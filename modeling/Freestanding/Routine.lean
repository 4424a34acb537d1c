import Freestanding.CallGraph
import Freestanding.Listing.Dump

/-!
# Routines

A function of the call graph on its way to the output: its name in the source program, its name in the
output, its signature, and whether the program starts with it.

## Main definitions

* `Routine` — the function.
* `Routine.outputName` — the name under which it is defined.
* `Routine.target` — what to look for in its dump.
* `CompiledRoutine` — a routine with its code.
-/

namespace Freestanding

/-- A function that goes to the output. -/
structure Routine where
  /-- The handle in the host. -/
  handle : Handle
  /-- The name in the source program. -/
  name : Text
  /-- The name in the output, unless it is the entry point. -/
  mangled : Text
  /-- The types of the arguments. -/
  arguments : List Text
  /-- The scope it belongs to. -/
  scope : ScopePath
  /-- The program starts here. -/
  isEntry : Bool
  /-- The number of earlier functions that would have had the same name. -/
  overload : Nat
  deriving DecidableEq, Repr

namespace Routine

/-- A node of the call graph as a routine. -/
def ofNode (entry : Handle) (n : CallGraph.Node) : Routine :=
  { handle := n.handle
    name := n.signature.name
    mangled := n.mangled
    arguments := n.signature.arguments
    scope := n.signature.scope
    isEntry := n.handle == entry
    overload := n.overload }

/-- The name under which the routine is defined in the output. -/
def outputName (r : Routine) : Text :=
  if r.isEntry then "main" else r.mangled

/-- What to take from the dump of the routine. -/
def target (r : Routine) : Target :=
  { name := r.name, external := r.mangled, isEntry := r.isEntry, overload := r.overload }

/-- A line that tells what the routine is. -/
def description (r : Routine) : Text :=
  let arguments : Text := [',', ' '].intercalate r.arguments
  r.scope.dotted ++ "." ++ r.name ++ "(" ++ arguments ++ ") as @" ++ r.outputName

end Routine

/-- A routine with its code. -/
structure CompiledRoutine extends Routine where
  /-- The code. -/
  listing : Listing

end Freestanding
