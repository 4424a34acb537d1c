import Freestanding.Proofs.CallGraph.Walk
import Freestanding.Proofs.Host.Shape

/-!
# Walking a call graph again

A walk has every function that it visits compiled, and it asks the host for nothing else that could
change.  So a second walk, from the host that the first one left behind, visits the same functions in
the same order, and finds all of them compiled.

## Main definitions

* `Host.Later` — a host in which more functions are compiled.

## Main results

* `CallGraph.collect_again` — **the second walk has the same result, and leaves the host alone.**
-/

namespace Freestanding

namespace Host

/-- One host is the other one after some functions have been compiled. -/
structure Later (h h' : Host) : Prop where
  /-- The signatures are the same. -/
  table_eq : h'.table = h.table
  /-- The positions are the same. -/
  length_eq : h'.functions.length = h.functions.length
  /-- A record has the same calls, and stays compiled if it was. -/
  record : ∀ f r, h.get f = .ok r →
    ∃ r', h'.get f = .ok r' ∧ r'.callees = r.callees ∧ (r.compiled → r'.compiled)

namespace Later

variable {h h' h'' : Host}

theorem refl (h : Host) : Later h h :=
  ⟨rfl, rfl, fun _ r hr => ⟨r, hr, rfl, id⟩⟩

theorem trans (hl : Later h h') (hl' : Later h' h'') : Later h h'' where
  table_eq := hl'.table_eq.trans hl.table_eq
  length_eq := hl'.length_eq.trans hl.length_eq
  record f r hr := by
    obtain ⟨r', hr', hcallees, hcompiled⟩ := hl.record f r hr
    obtain ⟨r'', hr'', hcallees', hcompiled'⟩ := hl'.record f r' hr'
    exact ⟨r'', hr'', hcallees'.trans hcallees, hcompiled' ∘ hcompiled⟩

theorem describe_eq (hl : Later h h') (f : Handle) : h'.describe f = h.describe f := by
  rw [describe, describe, hl.table_eq]

theorem callees_eq (hl : Later h h') {f : Handle} {cs : List Handle} (hcs : h.callees f = .ok cs) :
    h'.callees f = .ok cs := by
  rw [← hcs]
  cases hr : h.get f with
  | error e =>
    rw [Host.callees, hr] at hcs
    cases hcs
  | ok r =>
    obtain ⟨r', hr', hcallees, -⟩ := hl.record f r hr
    simp only [Host.callees, hr, hr', bind, Except.bind, hcallees, hl.length_eq]

end Later

/-- A function that has been compiled, and nothing else has changed. -/
theorem later_of_ensureCompiled {h h' : Host} {f : Handle} (hc : h.ensureCompiled f = .ok h') :
    Later h h' ∧ ∃ r, h'.get f = .ok r ∧ r.compiled := by
  cases hr : h.get f with
  | error e =>
    rw [ensureCompiled, hr] at hc
    cases hc
  | ok r =>
    simp only [ensureCompiled, hr, bind, Except.bind, pure, Except.pure] at hc
    split at hc
    · next hcompiled =>
      cases hc
      exact ⟨.refl h, r, hr, hcompiled⟩
    · cases hc
      have hself : (h.functions.set f.position { r with compiled := true })[f.position]? =
          some { r with compiled := true } := List.getElem?_set_self (has_of_get hr)
      refine ⟨⟨rfl, List.length_set, ?_⟩, { r with compiled := true }, by rw [get, hself], rfl⟩
      intro g s hs
      by_cases hg : f = g
      · subst hg
        cases hr.symm.trans hs
        exact ⟨{ r with compiled := true }, by rw [get, hself], rfl, fun _ => rfl⟩
      · have hpos : f.position ≠ g.position := by
          intro hpos
          exact hg (by rw [← Handle.ofPosition_position f, hpos, Handle.ofPosition_position])
        refine ⟨s, ?_, rfl, id⟩
        rw [get, List.getElem?_set_ne hpos]
        exact hs

/-- A function that is compiled stays so, and a host asked to compile it again does nothing. -/
theorem Later.ensureCompiled_eq {h h' : Host} (hl : Later h h') {f : Handle} {r : Recorded}
    (hr : h.get f = .ok r) (hcompiled : r.compiled) : h'.ensureCompiled f = .ok h' := by
  obtain ⟨r', hr', -, hcompiled'⟩ := hl.record f r hr
  simp only [ensureCompiled, hr', bind, Except.bind, hcompiled' hcompiled, if_true]
  rfl

end Host

namespace CallGraph

/-- A walk that has ended leaves a host from which it can be repeated. -/
theorem walk_again (entry : Handle) (host : Host) (unseen queue : List Handle) (names : Names)
    (g : CallGraph) :
    ∀ {host' : Host} {g' : CallGraph}, walk entry host unseen queue names g = (host', .ok g') →
      host.Later host' ∧ walk entry host' unseen queue names g = (host', .ok g') := by
  fun_induction walk entry host unseen queue names g with
  | case1 host unseen names g =>
    intro host' g' h
    obtain ⟨rfl, rfl⟩ : host = host' ∧ g = g' := by simpa using h
    exact ⟨.refl host, by rw [walk]⟩
  | case2 | case4 | case5 => intro host' g' h; simp at h
  | case3 host unseen names g f queue s hd hp ih =>
    intro host' g' h
    obtain ⟨hl, hagain⟩ := ih h
    refine ⟨hl, ?_⟩
    rw [walk, hl.describe_eq, hd]
    exact (if_pos hp).trans hagain
  | case6 host unseen names g f queue s hd hp host₁ hc callees hcs ih =>
    -- the second time the function is compiled already, and it calls the same functions
    intro host' g' h
    obtain ⟨hl₁, r, hr, hcompiled⟩ := Host.later_of_ensureCompiled hc
    obtain ⟨hl, hagain⟩ := ih h
    refine ⟨hl₁.trans hl, ?_⟩
    rw [walk, (hl₁.trans hl).describe_eq, hd]
    simp only [if_neg hp, hl.ensureCompiled_eq hr hcompiled, hl.callees_eq hcs]
    exact hagain

/-- **Collecting a call graph again**, from the host that the first walk left behind, gives the same graph
and leaves the host alone. -/
theorem collect_again {host host' : Host} {entry : Handle} {g : CallGraph}
    (h : collect host entry = (host', .ok g)) : collect host' entry = (host', .ok g) := by
  obtain ⟨hl, hagain⟩ := walk_again entry host _ _ _ _ h
  have hhandles : handles host' = handles host := by rw [handles, hl.length_eq, handles]
  rw [collect, hhandles]
  exact hagain

end CallGraph

end Freestanding
