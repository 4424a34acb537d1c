import Freestanding.Binding
import Freestanding.Routine

/-!
# Programs

The output of a run, grouped by scope.  Each scope that owns a function or a global variable of the
program has a unit: the variables it owns, the functions it owns, by their position in the list of all
functions, and the layouts of the container types that these work with.

## Main definitions

* `ScopeUnit` — what belongs to one scope.
* `Program` — the units, the functions, and what could not be resolved.
* `Program.functionsOf`, `Program.binding?` — looking things up.
* `ScopeUnit.globals?` — the text that defines the variables of a scope.
-/

namespace Freestanding

/-- What belongs to one scope. -/
structure ScopeUnit where
  /-- The scope. -/
  scope : ScopePath
  /-- The global variables that it owns, by address. -/
  bindings : Bindings := ∅
  /-- The positions of its functions. -/
  functions : List Nat := []
  /-- The layouts of the container types that its functions work with, by symbol. -/
  layouts : Std.ExtTreeMap Text Layout := ∅

namespace ScopeUnit

/-- The text that defines the variables of the scope; none if it owns none. -/
def globals? (u : ScopeUnit) : Option Text :=
  if u.bindings.isEmpty then none
  else
    let definitions : Text := u.bindings.values.flatMap fun b => b.definition ++ ['\n']
    some ("; globals of " ++ u.scope.dotted ++ "\n\n" ++ definitions)

end ScopeUnit

/-- The units of a program, by scope. -/
abbrev ScopeUnits := Std.ExtTreeMap ScopePath ScopeUnit

namespace ScopeUnits

/-- The unit of a scope, or an empty one. -/
def unit (units : ScopeUnits) (scope : ScopePath) : ScopeUnit :=
  units.getD scope { scope }

/-- Change the unit of a scope, where a scope without one starts with an empty one. -/
def update (units : ScopeUnits) (scope : ScopePath) (f : ScopeUnit → ScopeUnit) : ScopeUnits :=
  units.insert scope (f (units.unit scope))

end ScopeUnits

/-- A program, ready to be written. -/
structure Program where
  /-- The units by scope. -/
  units : ScopeUnits := ∅
  /-- The functions. -/
  functions : List CompiledRoutine := []
  /-- The addresses that could not be resolved. -/
  diagnostics : List Error := []

namespace Program

/-- The functions of a unit. -/
def functionsOf (p : Program) (u : ScopeUnit) : List CompiledRoutine :=
  u.functions.filterMap (p.functions[·]?)

/-- The variable at an address: the one in the first unit that has one there. -/
def binding? (p : Program) (address : UInt64) : Option Binding :=
  p.units.values.findSome? fun u => u.bindings[address]?

/-- The number of variables in all units. -/
def bindingCount (p : Program) : Nat :=
  p.units.values.foldl (fun n u => n + u.bindings.size) 0

end Program

end Freestanding
