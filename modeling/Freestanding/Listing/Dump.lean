import Freestanding.Cut
import Freestanding.Listing
import Freestanding.Listing.TopLevel
import Freestanding.Name.Compiled

/-!
# Taking a listing from a dump

The host dumps a whole compilation unit for one function.  The listing keeps the definitions with
compiled names, the function itself first, and drops the wrappers around them.  The function gets its
output name, and entries of the constant pool get names that no other function's entries have, because
all output files are linked together.

## Main definitions

* `Target` — the function that is wanted and the name it gets.
* `Target.symbol`, `Target.poolName` — the output name, and that of an entry of the constant pool.
* `Listing.ofDump` — the listing of a dump.
-/

namespace Freestanding

/-- The function that is taken from a dump. -/
structure Target where
  /-- The name of the function in the source program. -/
  name : Text
  /-- The name that its definition gets, unless it is the entry point. -/
  external : Text
  /-- The entry point becomes `main`. -/
  isEntry : Bool := false
  /-- How many functions of the same name came before. -/
  overload : Nat := 0
  deriving DecidableEq, Repr

namespace Target

/-- The symbol of the function in the output. -/
def symbol (t : Target) : Text :=
  if t.isEntry then "@main" else Name.symbol t.external

/-- The output name of an entry of the constant pool. -/
def poolName (t : Target) (counter : Text) : Text :=
  let stem := "_j_const_" ++ Name.sanitize t.name
  if t.overload = 0 then stem ++ "_" ++ counter
  else stem ++ "." ++ Text.decimal t.overload ++ "_" ++ counter

/-- The new symbol of a constant, if it is an entry of the constant pool. -/
def poolSymbol? (t : Target) (symbol : Text) : Option Text :=
  (TopLevel.poolCounter? (Name.bare symbol)).map fun counter => Name.symbol (t.poolName counter)

end Target

namespace AddressTable

/-- Enter a symbol under its address, in the part that its name selects; an address keeps its first
symbol. -/
def enter (t : AddressTable) (symbol : Text) (address : UInt64) : AddressTable :=
  let name := Name.bare symbol
  if Text.occurs "jl_global" name then { t with cells := t.cells.insertIfNew address symbol }
  else if Text.occurs "GenericMemory" name then
    { t with containers := t.containers.insertIfNew address symbol }
  else { t with others := t.others.insertIfNew address symbol }

end AddressTable

namespace Listing

/-- The definitions with compiled names, the first one with the stem `name` in front; none if there is
no such one. -/
def selfFirst? (name : Text) (definitions : List Definition) : Option (Definition × List Definition) :=
  let compiled := definitions.filter fun d => (CompiledName.parse? d.name).isSome
  let own? (d : Definition) := (CompiledName.parse? d.name).filter (·.stem == name)
  (Cut.first? own? compiled).map fun c => (c.found, c.before ++ c.after)

/-- The lines of a dump that stand outside all definitions and are kept. -/
def topLevels (dump : Text) (definitions : List Definition) : List TopLevel :=
  ((Definition.placedLines dump).filter fun (place, _) => !definitions.any (·.covers place)).filterMap
    fun (_, line) => TopLevel.ofLine? line

/-- The new symbols of a listing: the function gets its output name, and each entry of the constant
pool its own. -/
def renamesFor (target : Target) (own : Text) (constants : List (Text × Text)) : Renaming :=
  constants.foldl (fun r (symbol, _) =>
    match target.poolSymbol? symbol with
    | some new => r.insert symbol new
    | none => r) ((∅ : Renaming).insert own target.symbol)

/-- The listing made of the given definitions and top-level lines. -/
def ofParts (target : Target) (own : Definition) (helpers : List Definition) (lines : List TopLevel)
    (dump : Text) : Listing :=
  let constants := lines.filterMap TopLevel.constant?
  let r := renamesFor target own.name constants
  let listing : Listing := {
    headers := (own :: helpers).map Definition.header
    bodies := (own :: helpers).map Definition.body
    constants := constants.foldl (fun m (symbol, line) => m.insert (r.apply symbol) (line.rename r)) ∅
    addresses := (lines.filterMap TopLevel.address?).foldl (fun t (symbol, a) => t.enter symbol a) {}
    declarations := (lines.filterMap TopLevel.declaration?).foldl
      (fun m (symbol, line) => m.insert symbol line) ∅
    attributes := lines.filterMap TopLevel.attributes?
    targets := lines.filterMap TopLevel.target?
    metadata := lines.filterMap TopLevel.metadata?
    dump }
  listing.rename r

/-- The listing of a function, taken from its dump. -/
def ofDump (target : Target) (dump : Text) : Except Error Listing := do
  let definitions ← Definition.all target.name dump
  match selfFirst? target.name definitions with
  | none => throw (.functionNotFound target.name)
  | some (own, helpers) => return ofParts target own helpers (topLevels dump definitions) dump

end Listing

end Freestanding
