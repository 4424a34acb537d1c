import Freestanding.Collector.Elimination
import Freestanding.Container.Lowering

/-!
# What the passes leave alone

Doing without the collector and without the host's containers changes bodies.  Beside that, the two
passes only add: declarations of the allocators that new calls need, and the static empty instance.
Whatever a listing defines or declares before, it defines or declares afterwards.

## Main definitions

* `Listing.Freed` — both passes over a listing have succeeded.

## Main results

* `Collector.eliminate_eq`, `Container.lower_eq` — the listing after each pass.
* `Listing.Freed.mem_constants`, `Listing.Freed.mem_declarations` — what is defined and declared after
  both.
-/

namespace Freestanding

namespace Listing

theorem mem_declarations_declare (l : Listing) (symbol line t : Text) :
    t ∈ (l.declare symbol line).declarations ↔ t ∈ l.declarations ∨ t = symbol := by
  rw [declare, Std.ExtTreeMap.mem_insertIfNew, Std.LawfulEqOrd.compare_eq_iff_eq, or_comm,
    eq_comm (a := symbol)]

/-- A line that declares a symbol is never replaced. -/
theorem getElem?_declarations_declare {l : Listing} {t line : Text} (h : l.declarations[t]? = some line)
    (symbol line' : Text) : (l.declare symbol line').declarations[t]? = some line := by
  rw [declare, Std.ExtTreeMap.getElem?_insertIfNew]
  split
  · next hnew =>
    obtain rfl := Std.LawfulEqOrd.eq_of_compare hnew.1
    exact absurd (Std.ExtTreeMap.mem_iff_isSome_getElem?.mpr (by rw [h]; rfl)) hnew.2
  · exact h

end Listing

namespace Collector

/-- Elimination changes bodies, and declares `malloc` if it has put in a call of it. -/
theorem eliminate_eq (policy : Policy) (l : Listing) :
    ∃ bodies, (eliminate policy l).1 =
      if 0 < (eliminate policy l).2.substituted then { l with bodies }.declareMalloc
      else { l with bodies } := by
  rw [eliminate]
  by_cases h : policy.strips
  · rw [if_pos h]
    exact ⟨_, rfl⟩
  · rw [if_neg h]
    exact ⟨l.bodies, rfl⟩

end Collector

namespace Container

/-- A successful run has read the layouts, changed the bodies, and provided what they refer to. -/
theorem exists_of_lower {heap : HeapImage} {function stem : Text} {l l' : Listing} {tally : Tally}
    (h : (lower heap function stem l).value = (l', .ok tally)) :
    ∃ layouts bodies, (resolve heap function l.addresses (mentioned l) l.layouts).value = (layouts, .ok ()) ∧
      lowerBodies ⟨function, l.addresses, layouts, singletonSymbol stem⟩ l.bodies = (bodies, .ok tally) ∧
      l' = provide (singletonSymbol stem) tally { l with layouts, bodies } := by
  rw [lower, Logged.value_bind] at h
  generalize (resolve heap function l.addresses (mentioned l) l.layouts).value = resolved at h ⊢
  obtain ⟨layouts, result⟩ := resolved
  cases result with
  | error e => exact absurd (congrArg Prod.snd h) (by simp)
  | ok u =>
    dsimp only at h
    generalize hr : lowerBodies ⟨function, l.addresses, layouts, singletonSymbol stem⟩ l.bodies = r at h
    obtain ⟨bodies, result⟩ := r
    cases result with
    | error e => exact absurd (congrArg Prod.snd h) (by simp)
    | ok tally' =>
      obtain ⟨hl, ht⟩ := Prod.mk.inj h
      cases ht
      exact ⟨layouts, bodies, rfl, hr, hl.symm⟩

/-- Lowering changes bodies and layouts, and then provides what the new code refers to. -/
theorem lower_eq {heap : HeapImage} {function stem : Text} {l l' : Listing} {tally : Tally}
    (h : (lower heap function stem l).value = (l', .ok tally)) :
    ∃ layouts bodies, l' = provide (singletonSymbol stem) tally { l with layouts, bodies } := by
  obtain ⟨layouts, bodies, -, -, hl⟩ := exists_of_lower h
  exact ⟨layouts, bodies, hl⟩

/-- Code that mentions no container type and has none of the idioms is left alone. -/
theorem lower_eq_self {heap : HeapImage} {function stem : Text} {l : Listing}
    (hmentioned : mentioned l = [])
    (hbodies : lowerBodies ⟨function, l.addresses, l.layouts, singletonSymbol stem⟩ l.bodies =
      (l.bodies, .ok {})) :
    (lower heap function stem l).value = (l, .ok {}) := by
  simp only [lower, hmentioned, resolve, Logged.value_bind, Logged.value_pure, hbodies]
  rfl

private theorem mem_constants_provide (singleton : Text) (tally : Tally) (l : Listing) (t : Text) :
    t ∈ (provide singleton tally l).constants ↔
      t ∈ l.constants ∨ 0 < tally.dereferences ∧ t = singleton := by
  have hdeclare : (provide singleton tally l).constants =
      if 0 < tally.dereferences then l.constants.insert singleton (singletonLine singleton)
      else l.constants := by
    rw [provide]
    split <;> split <;> split <;> rfl
  rw [hdeclare]
  by_cases h : 0 < tally.dereferences
  · rw [if_pos h, Std.ExtTreeMap.mem_insert, Std.LawfulEqOrd.compare_eq_iff_eq, or_comm,
      eq_comm (a := singleton)]
    simp only [h, true_and]
  · simp only [h, if_false, false_and, or_false]

private theorem mem_declarations_provide (singleton : Text) (tally : Tally) (l : Listing) (t : Text) :
    t ∈ (provide singleton tally l).declarations ↔ t ∈ l.declarations ∨
      (0 < tally.allocations ∧ t = "@malloc") ∨ (0 < tally.cleared ∧ t = "@calloc") := by
  have hstart : ∀ l' : Listing, l'.declarations = l.declarations →
      (t ∈ (if 0 < tally.allocations then l'.declareMalloc else l').declarations ↔
        t ∈ l.declarations ∨ 0 < tally.allocations ∧ t = "@malloc") := by
    intro l' hl'
    by_cases h : 0 < tally.allocations
    · rw [if_pos h, Listing.declareMalloc, Listing.mem_declarations_declare, hl']
      simp only [h, true_and]
    · simp only [h, if_false, hl', false_and, or_false]
  have hend : ∀ l' : Listing,
      (t ∈ (if 0 < tally.cleared then l'.declareCalloc else l').declarations ↔
        t ∈ l'.declarations ∨ 0 < tally.cleared ∧ t = "@calloc") := by
    intro l'
    by_cases h : 0 < tally.cleared
    · rw [if_pos h, Listing.declareCalloc, Listing.mem_declarations_declare]
      simp only [h, true_and]
    · simp only [h, if_false, false_and, or_false]
  rw [provide, hend, hstart _ (by split <;> rfl), or_assoc]

end Container

namespace Listing

/-- The two passes over a listing have succeeded: the listing afterwards, what was done about the
collector, and what was done about containers. -/
structure Freed (policy : Policy) (heap : HeapImage) (function stem : Text) (l l' : Listing)
    (collector : Collector.Tally) (containers : Container.Tally) : Prop where
  /-- What was done about the collector. -/
  eliminate : (Collector.eliminate policy l).2 = collector
  /-- What was done about containers. -/
  lower : (Container.lower heap function stem (Collector.eliminate policy l).1).value =
    (l', .ok containers)

namespace Freed

variable {policy : Policy} {heap : HeapImage} {function stem : Text} {l l' : Listing}
  {collector : Collector.Tally} {containers : Container.Tally}

/-- All but the bodies and the layouts of the listing afterwards. -/
theorem exists_eq (h : Freed policy heap function stem l l' collector containers) :
    ∃ layouts bodies, l' = Container.provide (Container.singletonSymbol stem) containers
      (if 0 < collector.substituted then { l with layouts, bodies }.declareMalloc
        else { l with layouts, bodies }) := by
  obtain ⟨layouts, bodies, hl⟩ := Container.lower_eq h.lower
  obtain ⟨bodies', he⟩ := Collector.eliminate_eq policy l
  rw [h.eliminate] at he
  refine ⟨layouts, bodies, ?_⟩
  rw [hl, he]
  split <;> rfl

theorem frame (h : Freed policy heap function stem l l' collector containers) :
    l'.headers = l.headers ∧ l'.addresses = l.addresses ∧ l'.externals = l.externals := by
  obtain ⟨layouts, bodies, rfl⟩ := h.exists_eq
  rw [Container.provide]
  split <;> split <;> split <;> split <;> exact ⟨rfl, rfl, rfl⟩

/-- The constants after both passes: those before, and the empty instance if it is used. -/
theorem mem_constants (h : Freed policy heap function stem l l' collector containers) {t : Text} :
    t ∈ l'.constants ↔ t ∈ l.constants ∨
      0 < containers.dereferences ∧ t = Container.singletonSymbol stem := by
  obtain ⟨layouts, bodies, rfl⟩ := h.exists_eq
  rw [Container.mem_constants_provide]
  split <;> rfl

/-- The declarations after both passes: those before, and the allocators that are called. -/
theorem mem_declarations (h : Freed policy heap function stem l l' collector containers) {t : Text} :
    t ∈ l'.declarations ↔ t ∈ l.declarations ∨
      (0 < collector.substituted ∨ 0 < containers.allocations) ∧ t = "@malloc" ∨
      0 < containers.cleared ∧ t = "@calloc" := by
  obtain ⟨layouts, bodies, rfl⟩ := h.exists_eq
  rw [Container.mem_declarations_provide]
  by_cases hs : 0 < collector.substituted
  · rw [if_pos hs, declareMalloc, mem_declarations_declare, or_assoc]
    simp only [hs, true_or, true_and, ← or_assoc, or_iff_left_of_imp And.right]
  · simp only [hs, if_false, false_or]

/-- A line that declares a symbol before both passes does so afterwards. -/
theorem getElem?_declarations (h : Freed policy heap function stem l l' collector containers)
    {t line : Text} (ht : l.declarations[t]? = some line) : l'.declarations[t]? = some line := by
  obtain ⟨layouts, bodies, rfl⟩ := h.exists_eq
  have hdeclare : ∀ {k : Listing} {p : Prop} [Decidable p] (symbol line' : Text),
      k.declarations[t]? = some line →
      (if p then k.declare symbol line' else k).declarations[t]? = some line := by
    intro k p _ symbol line' hk
    split
    · exact getElem?_declarations_declare hk symbol line'
    · exact hk
  -- three times an allocator may be declared, and once a constant is added between
  refine hdeclare _ _ (hdeclare _ _ ?_)
  split
  · exact hdeclare _ _ ht
  · exact hdeclare _ _ ht

end Freed

end Listing

end Freestanding
