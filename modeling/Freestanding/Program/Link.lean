import Freestanding.Program.Basic
import Freestanding.Program.Callee
import Freestanding.Warning

/-!
# Linking

Functions with their code become a program one after the other.  Each joins the unit of its scope.
The symbols that stand for cells of the host are replaced by the symbols of global variables: those
that were found by name, and those that are made up from the contents of the host's memory, numbered
within the scope of the function that first refers to them.  Declarations of compiled functions are
replaced by the output names of these functions.

The numbers of made-up variables are kept from one program to the next, also if linking one fails.

## Main definitions

* `Linker` — the state between two functions.
* `Linker.synthesize` — a variable made up from the host's memory.
* `Linker.resolveCell`, `Linker.resolveCells` — variables for the cells that a function refers to.
* `Linker.link` — one function.
* `Program.link` — all of them.
-/

namespace Freestanding

/-- How many variables have been made up in each scope. -/
abbrev Counters := Std.ExtTreeMap ScopePath Nat

/-- The state of linking between two functions. -/
structure Linker where
  /-- The units so far. -/
  units : ScopeUnits := ∅
  /-- The variables that are known, by address. -/
  known : Bindings := ∅
  /-- The numbers of made-up variables. -/
  counters : Counters := ∅
  /-- The addresses that could not be resolved, in order. -/
  diagnostics : List Error := []

namespace Linker

/-! ### Layouts -/

/-- The layouts of a unit together with those of a function; an error if the two disagree. -/
def mergeLayouts (scope : ScopePath) (layouts : Std.ExtTreeMap Text Layout) :
    List (Text × Layout) → Except Error (Std.ExtTreeMap Text Layout)
  | [] => .ok layouts
  | (symbol, layout) :: rest =>
    match layouts[symbol]? with
    | some existing =>
      if existing = layout then mergeLayouts scope layouts rest
      else .error (.inconsistentLayout symbol scope.dotted)
    | none => mergeLayouts scope (layouts.insert symbol layout) rest

/-- A function joins the unit of its scope. -/
def join (s : Linker) (index : Nat) (f : CompiledRoutine) : Except Error Linker := do
  let unit := s.units.unit f.scope
  let layouts ← mergeLayouts f.scope unit.layouts f.listing.layouts.toList
  return { s with
    units := s.units.insert f.scope { unit with functions := unit.functions ++ [index], layouts } }

/-! ### Cells -/

/-- Make up a variable in a scope from what the host's memory holds at an address. -/
def synthesize (heap : HeapImage) (scope : ScopePath) (address : UInt64) (counters : Counters) :
    Logged (Counters × Except Error Binding) :=
  match heap.reconstruct? address with
  | none => pure (counters, .error (.unreadable address "binding value"))
  | some value => do
    let number := counters.getD scope 0 + 1
    let made ← (Binding.make address ("_global_" ++ Text.decimal number) scope value).run
    return (counters.insert scope number, made)

/-- The variable at an address: a known one, or one that is made up and then known. -/
def obtain (heap : HeapImage) (scope : ScopePath) (address : UInt64) (s : Linker) :
    Logged (Linker × Except Error Binding) :=
  match s.known[address]? with
  | some b => pure (s, .ok b)
  | none => do
    let (counters, made) ← synthesize heap scope address s.counters
    let s := { s with counters }
    match made with
    | .ok b => return ({ s with known := s.known.insert address b }, .ok b)
    | .error e => return (s, .error e)

/-- What a function's own references become. -/
structure References where
  /-- The declarations of the variables it refers to, by symbol. -/
  externals : Std.ExtTreeMap Text Text
  /-- New symbols for old ones. -/
  renames : Renaming := ∅

/-- Resolve one cell of a function: its old symbol becomes that of the variable, which goes into the
unit of its owner. -/
def resolveCell (heap : HeapImage) (f : Routine) (address : UInt64) (old : Text)
    (s : Linker) (refs : References) : Logged (Linker × References) := do
  let (s, obtained) ← s.obtain heap f.scope address
  match obtained with
  | .error cause =>
    Logged.warn (.unresolved f.name cause)
    return ({ s with diagnostics := s.diagnostics ++ [.missingBinding f.name address] }, refs)
  | .ok b =>
    let units := s.units.update b.owner fun u => { u with bindings := u.bindings.insert address b }
    return ({ s with units }, {
      externals := refs.externals.insert b.symbol b.declaration
      renames := refs.renames.insert old b.symbol })

/-- Resolve the cells of a function, one after the other. -/
def resolveCells (heap : HeapImage) (f : Routine) :
    (cells : List (UInt64 × Text)) → Linker → References → Logged (Linker × References)
  | [], s, refs => pure (s, refs)
  | (address, old) :: cells, s, refs => do
    let (s, refs) ← resolveCell heap f address old s refs
    resolveCells heap f cells s refs

/-! ### Functions -/

/-- Add the new symbols of declared functions. -/
def resolveCallees (routines : List Routine) (declarations : List (Text × Text)) (r : Renaming) :
    Renaming :=
  declarations.foldl (fun r (symbol, line) =>
    match Callee.resolve? routines symbol line with
    | some name => r.insert symbol (Name.symbol name)
    | none => r) r

/-- Link a function: it joins its unit, and its references are resolved. -/
def link (heap : HeapImage) (routines : List Routine) (index : Nat) (f : CompiledRoutine)
    (s : Linker) : Logged (Linker × Except Error CompiledRoutine) :=
  match s.join index f with
  | .error e => pure (s, .error e)
  | .ok s => do
    let (s, refs) ← resolveCells heap f.toRoutine f.listing.addresses.cells.toList s
      { externals := f.listing.externals }
    let renames := resolveCallees routines f.listing.declarations.toList refs.renames
    let listing := { f.listing with externals := refs.externals }.rename renames
    return (s, .ok { f with listing })

/-- Link functions one after the other, up to the first failure; `index` is the position of the first
one. -/
def linkAll (heap : HeapImage) (routines : List Routine) :
    (index : Nat) → List CompiledRoutine → Linker →
      Logged (Linker × Except Error (List CompiledRoutine))
  | _, [], s => pure (s, .ok [])
  | index, f :: fs, s => do
    let (s, linked) ← s.link heap routines index f
    match linked with
    | .error e => return (s, .error e)
    | .ok f =>
      let (s, rest) ← linkAll heap routines (index + 1) fs s
      return (s, rest.map (f :: ·))

end Linker

/-- The program made of functions with their code, given the variables that are known; the counters go on
to the next program. -/
def Program.link (heap : HeapImage) (counters : Counters) (known : Bindings)
    (functions : List CompiledRoutine) : Logged (Counters × Except Error Program) := do
  let routines := functions.map CompiledRoutine.toRoutine
  let (s, linked) ← Linker.linkAll heap routines 0 functions { known, counters }
  return (s.counters, linked.map fun functions =>
    { units := s.units, functions, diagnostics := s.diagnostics })

end Freestanding
