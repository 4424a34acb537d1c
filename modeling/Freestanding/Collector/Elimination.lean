import Freestanding.Collector.Residue
import Freestanding.Collector.Scaffolding
import Freestanding.Warning

/-!
# Doing without the collector

What is done about the collector depends on the policy: `warn` and `strict` leave the code alone,
`strip` removes scaffolding, and `strip_all` first replaces the allocations it can.  Afterwards the
code is judged: residue is an error under `strict`, and a finding that is reported otherwise.

## Main definitions

* `Collector.Tally` — how much was changed.
* `Collector.eliminate` — the listing after the changes that a policy asks for.
* `Collector.verdict` — the judgement.
-/

namespace Freestanding.Collector

/-- How much was changed. -/
structure Tally where
  /-- Lines removed. -/
  removed : Nat := 0
  /-- Allocations replaced. -/
  substituted : Nat := 0
  deriving DecidableEq, Repr

/-- The sum of two tallies. -/
def Tally.add (s t : Tally) : Tally :=
  { removed := s.removed + t.removed, substituted := s.substituted + t.substituted }

/-- A body after the changes that a policy asks for, and how much was changed. -/
def clean (policy : Policy) (body : Text) : Text × Tally :=
  let (substituted, replaced) := if policy.substitutes then Allocation.substitute body else (body, 0)
  let (stripped, removed) := Scaffolding.strip substituted
  (stripped, { removed, substituted := replaced })

/-- A listing after the changes that a policy asks for, and how much was changed. -/
def eliminate (policy : Policy) (l : Listing) : Listing × Tally :=
  if policy.strips then
    let cleaned := l.bodies.map (clean policy)
    let tally := (cleaned.map Prod.snd).foldl Tally.add {}
    let l := { l with bodies := cleaned.map Prod.fst }
    (if tally.substituted > 0 then l.declareMalloc else l, tally)
  else (l, {})

/-- Judge a listing: nothing if it is self-contained, otherwise an error that names the function, which
ends the run under the strict policy and is a finding under all others. -/
def verdict (policy : Policy) (function : Text) (l : Listing) : Attempt (Option Error) :=
  match l.residue? with
  | none => pure none
  | some residue => do
    let cause := Error.notSelfContained function residue.message
    if policy = .strict then throw cause
    Attempt.warn (.residue cause policy)
    return some cause

end Freestanding.Collector
