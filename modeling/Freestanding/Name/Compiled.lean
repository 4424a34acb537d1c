import Freestanding.Name
import Freestanding.Text.Number

/-!
# Compiled names

The host names what it compiles `julia_<stem>_<counter>`, where the stem is the name of the function
in the source program.  A stem may itself contain underscores and digits: the counter is what follows
the last underscore.

## Main definitions

* `CompiledName` — stem and counter.
* `CompiledName.parse?` — reading one off a symbol.
-/

namespace Freestanding

/-- The name of a compiled function. -/
structure CompiledName where
  /-- The name of the function in the source program. -/
  stem : Text
  /-- The host's running number. -/
  counter : UInt64
  deriving DecidableEq, Repr

/-- Read the name of a symbol, written with or without sigil and quotes, as a compiled name. -/
def CompiledName.parse? (token : Text) : Option CompiledName := do
  let name ← Text.stripPrefix? (Name.bare token) "julia_"
  let digits := (name.reverse.takeWhile (· != '_')).reverse
  match name.reverse.dropWhile (· != '_') with
  | [] => none
  | _ :: reversed =>
    let stem := reversed.reverse
    if stem = [] ∨ '\n' ∈ stem then none
    else (Text.toWord? digits).map fun counter => ⟨stem, counter⟩

end Freestanding
