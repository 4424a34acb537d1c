import Freestanding.Block
import Freestanding.Collector.Allocation
import Freestanding.Container.Creation
import Freestanding.Container.Dereference
import Freestanding.Warning
import Std.Data.ExtTreeSet

/-!
# Containers without the host

The code of a function is freed of the host's containers block by block: loads of empty instances,
creations, and marker calls.  The blocks that become unreachable on the way are blanked.  The layouts
of the container types are read from the image of the host's memory first.

A failure leaves the listing as far as it has been changed: the layouts read so far, and the bodies
before the one that failed.

## Main definitions

* `Container.Tally` — how much was changed.
* `Container.resolve` — the layouts of the container types that the code mentions.
* `Container.lowerBlock`, `Container.lowerBody`, `Container.lowerBodies` — the changes.
* `Container.lower` — the listing after all changes.
-/

namespace Freestanding.Container

/-! ### Layouts -/

/-- The layouts of container types, by symbol. -/
abbrev Layouts := Std.ExtTreeMap Text Layout

/-- The container types that the code mentions, each once and in order. -/
def mentioned (l : Listing) : List Text :=
  (Std.ExtTreeSet.ofList ((l.bodies.flatMap Token.globals).filter (l.addresses.isContainer ·))).toList

/-- An element size above this is worth a warning. -/
def largeElement : UInt64 := 256

/-- Read the layout of a container type at its address. -/
def readLayout (heap : HeapImage) (function symbol : Text) (address : UInt64) : Attempt Layout :=
  match heap.layout? address with
  | none => throw (.unreadable address ("container layout of " ++ symbol))
  | some layout => do
    if !layout.boxed && largeElement < layout.elementSize then
      Attempt.warn (.largeElement symbol function layout.elementSize)
    return layout

/-- Read the layouts that are not known yet, one symbol after the other, up to the first failure. -/
def resolve (heap : HeapImage) (function : Text) (table : AddressTable) :
    (symbols : List Text) → Layouts → Logged (Layouts × Except Error Unit)
  | [], layouts => pure (layouts, .ok ())
  | symbol :: symbols, layouts =>
    match table.containerAddress? symbol with
    | none => resolve heap function table symbols layouts
    | some address =>
      if symbol ∈ layouts then resolve heap function table symbols layouts
      else do
        match ← (readLayout heap function symbol address).run with
        | .error e => return (layouts, .error e)
        | .ok layout => resolve heap function table symbols (layouts.insert symbol layout)

/-! ### Changes -/

/-- How much was changed. -/
structure Tally where
  /-- Loads of an empty instance. -/
  dereferences : Nat := 0
  /-- Creations. -/
  allocations : Nat := 0
  /-- Marker calls. -/
  markers : Nat := 0
  /-- Creations whose elements have to be cleared; they are among the creations. -/
  cleared : Nat := 0
  deriving DecidableEq, Repr

namespace Tally

/-- The sum of two tallies. -/
def add (s t : Tally) : Tally :=
  { dereferences := s.dereferences + t.dereferences
    allocations := s.allocations + t.allocations
    markers := s.markers + t.markers
    cleared := s.cleared + t.cleared }

/-- The number of changes. -/
def total (t : Tally) : Nat :=
  t.dereferences + t.allocations + t.markers

end Tally

/-- What the changes of one function depend on. -/
structure Context where
  /-- The function, for errors. -/
  function : Text
  /-- The symbols that stand for container types. -/
  table : AddressTable
  /-- The layouts of container types. -/
  layouts : Layouts
  /-- The symbol of the static empty instance. -/
  singleton : Text

/-- A line after its change: the instructions that take its place, and the creation that they make up,
if it was one. -/
def lowerLine (c : Context) (line : Text) : Except Error (List Text × Option Creation) :=
  match Idiom.allocation? line with
  | none => .ok ([line], none)
  | some operands =>
    (Creation.read c.layouts c.function line operands).map fun creation =>
      (creation.lines, some creation)

/-- A block after its changes, the labels that became unreachable, and how much was changed. -/
def lowerBlock (c : Context) (b : Block) : Except Error (Block × List Text × Tally) := do
  let (lines, failures) ← Dereference.all c.table c.function c.singleton b.lines
  let lowered ← lines.mapM (lowerLine c)
  let creations := lowered.filterMap Prod.snd
  let lines := lowered.flatMap Prod.fst
  let kept := lines.filter (!Idiom.isMarker ·)
  return ({ b with lines := kept }, failures, {
    dereferences := failures.length
    allocations := creations.length
    markers := lines.length - kept.length
    cleared := creations.countP (·.layout.boxed) })

/-- Blank the first block with a given label. -/
def blankLabel? (label : Text) (blocks : List Block) : Option (List Block) :=
  (Cut.first? (fun b => if b.hasLabel label then some () else none) blocks).map fun cut =>
    cut.before ++ cut.found.blank :: cut.after

/-- Blank the blocks with the given labels, one label after the other. -/
def blankLabels (function : Text) : (labels : List Text) → List Block → Except Error (List Block)
  | [], blocks => .ok blocks
  | label :: labels, blocks =>
    match blankLabel? label blocks with
    | none => .error (Dereference.malformed function ("failure block " ++ label ++ " not found"))
    | some blocks => blankLabels function labels blocks

/-- A body after its changes, and how much was changed. -/
def lowerBody (c : Context) (body : Text) : Except Error (Text × Tally) := do
  let lowered ← (Block.split body).mapM (lowerBlock c)
  let blocks ← blankLabels c.function (lowered.flatMap (·.2.1)) (lowered.map (·.1))
  return (Block.join blocks, (lowered.map (·.2.2)).foldl Tally.add {})

/-- Change one body after the other.  The first failure leaves its own body and all later ones. -/
def lowerBodies (c : Context) : List Text → List Text × Except Error Tally
  | [] => ([], .ok {})
  | body :: bodies =>
    match lowerBody c body with
    | .error e => (body :: bodies, .error e)
    | .ok (body, tally) =>
      let (bodies, rest) := lowerBodies c bodies
      (body :: bodies, rest.map tally.add)

/-- The symbol of the static empty instance that belongs to a function. -/
def singletonSymbol (stem : Text) : Text :=
  Name.symbol ("_j_empty_memory_" ++ Name.sanitize stem)

/-- The definition of a static empty instance. -/
def singletonLine (symbol : Text) : Text :=
  symbol ++ " = internal global \x7b i64, ptr \x7d zeroinitializer, align 16"

/-- Add what the changed code refers to: the empty instance and the allocators. -/
def provide (singleton : Text) (tally : Tally) (l : Listing) : Listing :=
  let l := if 0 < tally.dereferences then
      { l with constants := l.constants.insert singleton (singletonLine singleton) }
    else l
  let l := if 0 < tally.allocations then l.declareMalloc else l
  if 0 < tally.cleared then l.declareCalloc else l

/-- Free a listing of the host's containers; the stem names its empty instance. -/
def lower (heap : HeapImage) (function stem : Text) (l : Listing) :
    Logged (Listing × Except Error Tally) := do
  let (layouts, resolved) ← resolve heap function l.addresses (mentioned l) l.layouts
  let l := { l with layouts }
  match resolved with
  | .error e => return (l, .error e)
  | .ok () =>
    let singleton := singletonSymbol stem
    let (bodies, result) := lowerBodies ⟨function, l.addresses, layouts, singleton⟩ l.bodies
    let l := { l with bodies }
    match result with
    | .error e => return (l, .error e)
    | .ok tally => return (provide singleton tally l, .ok tally)

end Freestanding.Container
