import Freestanding.Region
import Freestanding.Routine

/-!
# Callees

A call to a compiled function goes through a declaration whose name has the stem of that function but
a counter of its own.  It can be pointed at the function's output name if the stem alone, or the stem
with the number of parameters, tells which one is meant.

## Main definitions

* `Callee.parameterCount?` — the number of parameters in a declaration.
* `Callee.resolve?` — the output name of a declared function.
-/

namespace Freestanding.Callee

/-- The number of commas outside all brackets, where `depth` brackets are open before the text.  The depth
is an integer without bounds; each character changes it by one at most, so 32 bits hold it for all texts
of less than 2³¹ characters. -/
def topCommas : (depth : Int) → Text → Nat
  | _, [] => 0
  | depth, c :: t =>
    if c = '(' ∨ c = '\x7b' ∨ c = '[' ∨ c = '<' then topCommas (depth + 1) t
    else if c = ')' ∨ c = '\x7d' ∨ c = ']' ∨ c = '>' then topCommas (depth - 1) t
    else if c = ',' ∧ depth = 0 then topCommas depth t + 1
    else topCommas depth t

/-- The number of parameters in a list of them. -/
def countParameters (parameters : Text) : Nat :=
  match parameters.trim with
  | [] => 0
  | parameters => topCommas 0 parameters + 1

/-- The number of parameters with which a line declares a symbol. -/
def parameterCount? (line symbol : Text) : Option Nat := do
  let (_, rest) ← Text.cutAt? symbol line
  let (parameters, _) ← Region.enclosed? '(' ')' rest
  return countParameters parameters

/-- The output name of the function that a line declares under a compiled name, if only one of the
routines fits. -/
def resolve? (routines : List Routine) (symbol line : Text) : Option Text := do
  let name ← CompiledName.parse? symbol
  match routines.filter (·.name == name.stem) with
  | [] => none
  | [r] => some r.outputName
  | candidates =>
    let count ← parameterCount? line symbol
    match candidates.filter (·.arguments.length == count) with
    | [r] => some r.outputName
    | _ => none

end Freestanding.Callee
