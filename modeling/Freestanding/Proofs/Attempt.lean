import Freestanding.Proofs.Lists
import Freestanding.Warning

/-!
# Outcomes of computations that warn

What a computation comes to does not depend on the warnings that arise on the way.  Its outcome is a
plain result or error, and the outcome of a sequence of steps is the sequence of their outcomes.  So
statements about results can be made, and proved, as if nobody warned.

## Main definitions

* `Attempt.outcome` — the result or the error of a computation, without its warnings.

## Main results

* `Except.bind_eq_ok_iff` — a sequence of two steps succeeds if both do.
* `Attempt.outcome_bind`, `Attempt.outcome_mapM` — outcomes of sequences.
-/

theorem Except.bind_eq_ok_iff {ε α β : Type} {x : Except ε α} {f : α → Except ε β} {b : β} :
    x >>= f = .ok b ↔ ∃ a, x = .ok a ∧ f a = .ok b := by
  cases x with
  | error e => simp [bind, Except.bind]
  | ok a => simp [bind, Except.bind]

theorem Except.exists_of_map_toOption {ε α β : Type} {x : Except ε α} {f : α → β} {b : β}
    (h : x.toOption.map f = some b) : ∃ a, x = .ok a ∧ f a = b := by
  cases x with
  | error e => exact absurd h (by simp [Except.toOption])
  | ok a => exact ⟨a, rfl, Option.some.inj h⟩

/-- Steps over a list succeed if each does, and their results are those of the single steps. -/
theorem Except.mapM_eq_ok_iff {ε α β : Type} {f : α → Except ε β} {xs : List α} {ys : List β} :
    xs.mapM f = .ok ys ↔ List.Forall₂ (fun x y => f x = .ok y) xs ys := by
  induction xs generalizing ys with
  | nil =>
    rw [List.mapM_nil]
    constructor
    · intro h
      obtain rfl : [] = ys := Except.ok.inj h
      exact .nil
    · intro h
      cases h
      rfl
  | cons x xs ih =>
    simp only [List.mapM_cons, Except.bind_eq_ok_iff]
    constructor
    · rintro ⟨y, hy, rest, hrest, h⟩
      obtain rfl : y :: rest = ys := Except.ok.inj h
      exact .cons hy (ih.mp hrest)
    · intro h
      cases h with
      | @cons _ y _ rest hy hrest => exact ⟨y, hy, rest, ih.mpr hrest, rfl⟩

/-- Steps over a list that have all succeeded can be continued item by item. -/
theorem Except.mapM_bind_of_mapM_eq_ok {ε α β γ : Type} {f : α → Except ε β} {g : β → Except ε γ}
    {xs : List α} {ys : List β} (h : xs.mapM f = .ok ys) :
    xs.mapM (fun x => f x >>= g) = ys.mapM g := by
  have hall := Except.mapM_eq_ok_iff.mp h
  clear h
  induction hall with
  | nil => rfl
  | cons hx _ ih => rw [List.mapM_cons, List.mapM_cons, ih, hx]; rfl

namespace Freestanding.Attempt

variable {α β : Type}

/-- The result or the error of a computation, without its warnings. -/
def outcome (x : Attempt α) : Except Error α :=
  x.run.value

@[simp] theorem outcome_pure (a : α) : outcome (pure a) = .ok a := rfl

@[simp] theorem outcome_throw (e : Error) : outcome (throw e : Attempt α) = .error e := rfl

@[simp] theorem outcome_ofExcept (x : Except Error α) : outcome (ofExcept x) = x := rfl

@[simp] theorem outcome_warn (w : Warning) : outcome (warn w) = .ok () := rfl

@[simp] theorem outcome_lift (x : Logged α) : outcome (ExceptT.lift x) = .ok x.value := rfl

/-- The outcome of two steps: that of the first, and if it is a result, that of the second. -/
@[simp] theorem outcome_bind (x : Attempt α) (f : α → Attempt β) :
    outcome (x >>= f) = outcome x >>= fun a => outcome (f a) := by
  simp only [outcome, ExceptT.run_bind, Logged.value_bind]
  cases x.run.value with
  | error e => rfl
  | ok a => rfl

/-- The outcome of steps over a list. -/
@[simp] theorem outcome_mapM (f : α → Attempt β) (xs : List α) :
    outcome (xs.mapM f) = xs.mapM fun x => outcome (f x) := by
  induction xs with
  | nil => rfl
  | cons x xs ih =>
    simp only [List.mapM_cons, outcome_bind, ih, outcome_pure]
    rfl

/-- Warnings about the items of a list do not stop a computation. -/
@[simp] theorem outcome_forM_warn (w : α → Warning) (xs : List α) :
    outcome (xs.forM fun x => warn (w x)) = .ok () := by
  induction xs with
  | nil => rfl
  | cons x xs ih =>
    rw [List.forM_eq_forM, List.forM_cons, outcome_bind, outcome_warn]
    exact ih

end Freestanding.Attempt
