import Freestanding.Error

/-!
# Policies

A policy says what is done about code that needs the host's garbage collector.

## Main definitions

* `Policy` — the four policies.
* `Policy.name`, `Policy.ofName` — their names, and back.
* `Policy.strips`, `Policy.substitutes` — what a policy has done to the code.
-/

namespace Freestanding

/-- What is done about code that needs the host's garbage collector. -/
inductive Policy
  /-- Report it and go on; the code stays as it is. -/
  | warn
  /-- Give up. -/
  | strict
  /-- Remove the frames of the collector. -/
  | strip
  /-- Remove the frames, and allocate with `malloc`. -/
  | stripAll
  deriving DecidableEq, Repr, Inhabited

namespace Policy

/-- All policies. -/
def all : List Policy :=
  [.warn, .strict, .strip, .stripAll]

/-- The name of a policy. -/
def name : Policy → Text
  | .warn => "warn"
  | .strict => "strict"
  | .strip => "strip"
  | .stripAll => "strip_all"

/-- The policy with a name, if there is one. -/
def ofName? (t : Text) : Option Policy :=
  all.find? fun p => p.name == t

/-- The policy with a name. -/
def ofName (t : Text) : Except Error Policy :=
  match ofName? t with
  | some p => .ok p
  | none => .error (.config ("unknown GC policy `" ++ t ++
      "` (expected warn, strict, strip or strip_all)"))

/-- The frames of the collector are removed. -/
def strips : Policy → Bool
  | .strip | .stripAll => true
  | .warn | .strict => false

/-- Allocations are replaced. -/
def substitutes (p : Policy) : Bool :=
  p == .stripAll

end Policy

end Freestanding
