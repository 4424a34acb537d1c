import Freestanding.CallGraph
import Freestanding.Proofs.Lists
import Freestanding.Proofs.OrderedMap

/-!
# Invariants of the walk

The walk over a call graph takes one function after the other off its queue.  It may fail there, pass
the function over, or visit it.  Everything that is said about whole walks follows from what one such
step does, by the induction of this module.

A visit puts the function at the end of the list and its place into the index.  The index leads to the
places of the list as long as no function is listed twice.

## Main definitions

* `CallGraph.Indexed` — the index has the place of every function of the list, and nothing else.
* `CallGraph.Stuck` — the host refuses an answer about the function at the head of the queue.

## Main results

* `CallGraph.Indexed.push` — a visit keeps the index.
* `CallGraph.Indexed.get?_eq_some_iff` — a look-up through the index finds what is listed.
* `CallGraph.claim_fst`, `CallGraph.claim_snd` — the handles seen for the first time, and the others.
* `CallGraph.walk_invariant` — what every step keeps holds at the end of a walk, and wherever it fails.
-/

namespace Freestanding.CallGraph

/-! ### The index -/

/-- The index has the place of every function of the list, and nothing else. -/
def Indexed (g : CallGraph) : Prop :=
  ∀ (h : Handle) (i : Nat), g.index[h.id]? = some i ↔ ∃ n, g.nodes[i]? = some n ∧ n.handle = h

namespace Indexed

variable {g : CallGraph}

theorem empty : Indexed {} := by
  intro h i
  simp

/-- A function that is not listed yet is put at the end, and there the index leads. -/
theorem push (hg : g.Indexed) {n : Node} (hn : n.handle ∉ g.nodes.map Node.handle) :
    (g.push n).Indexed := by
  intro h i
  have hindex : (g.push n).index[h.id]? = if n.handle = h then some g.nodes.length else g.index[h.id]? := by
    rw [CallGraph.push, Std.ExtTreeMap.getElem?_insert]
    simp only [Std.LawfulEqCmp.compare_eq_iff_eq, Handle.ext_iff]
  rw [hindex, nodes_push]
  simp only [List.getElem?_concat_eq_some_iff]
  constructor
  · intro he
    split at he
    · next hh => exact ⟨n, .inr ⟨(Option.some.inj he).symm, rfl⟩, hh⟩
    · obtain ⟨m, hm, hh⟩ := (hg h i).mp he
      exact ⟨m, .inl hm, hh⟩
  · rintro ⟨m, hm | ⟨rfl, rfl⟩, hh⟩
    · -- the function at an old place has another handle
      have hne : n.handle ≠ h := by
        intro he
        exact hn (List.mem_map.mpr ⟨m, List.mem_of_getElem? hm, hh.trans he.symm⟩)
      rw [if_neg hne]
      exact (hg h i).mpr ⟨m, hm, hh⟩
    · rw [if_pos hh]

/-- A look-up through the index finds what is listed. -/
theorem get?_eq_some_iff (hg : g.Indexed) (f : Handle) (n : Node) :
    g.get? f = some n ↔ n ∈ g.nodes ∧ n.handle = f := by
  rw [get?, Option.bind_eq_some_iff]
  constructor
  · rintro ⟨i, hi, hn⟩
    obtain ⟨m, hm, hf⟩ := (hg f i).mp hi
    obtain rfl : m = n := Option.some.inj (hm.symm.trans hn)
    exact ⟨List.mem_of_getElem? hn, hf⟩
  · rintro ⟨hn, hf⟩
    obtain ⟨i, hi⟩ := List.mem_iff_getElem?.mp hn
    exact ⟨i, (hg f i).mpr ⟨n, hi, hf⟩, hi⟩

theorem contains_iff_mem (hg : g.Indexed) (f : Handle) :
    g.contains f = true ↔ f ∈ g.nodes.map Node.handle := by
  rw [contains, Std.ExtTreeMap.contains_iff_mem, Std.ExtTreeMap.mem_iff_exists, List.mem_map]
  simp only [hg f, List.mem_iff_getElem?]
  constructor
  · rintro ⟨i, n, hi, hf⟩
    exact ⟨n, ⟨i, hi⟩, hf⟩
  · rintro ⟨n, ⟨i, hi⟩, hf⟩
    exact ⟨i, n, hi, hf⟩

theorem nameOf?_eq_some_iff (hg : g.Indexed) (f : Handle) (name : Text) :
    g.nameOf? f = some name ↔ ∃ n ∈ g.nodes, n.handle = f ∧ n.mangled = name := by
  rw [nameOf?, Option.map_eq_some_iff]
  simp only [hg.get?_eq_some_iff, and_assoc]

end Indexed

theorem forall_mem_push {g : CallGraph} {n : Node} {P : Node → Prop} :
    (∀ m ∈ (g.push n).nodes, P m) ↔ (∀ m ∈ g.nodes, P m) ∧ P n := by
  rw [nodes_push, List.forall_mem_append, List.forall_mem_singleton]

/-! ### Claiming -/

/-- The handles that are claimed: the unseen ones among the callees, without repetitions. -/
theorem claim_fst {unseen : List Handle} (hu : unseen.Nodup) (callees : List Handle) :
    (claim unseen callees).1 = (callees.filter (· ∈ unseen)).eraseDups := by
  induction callees generalizing unseen with
  | nil => rfl
  | cons c rest ih =>
    by_cases hc : c ∈ unseen
    · rw [claim_cons_of_mem hc, List.filter_cons_of_pos (by simpa using hc), List.eraseDups_cons,
        List.filter_filter]
      simp only [ih (hu.erase c), hu.mem_erase_iff]
      congr 3
      funext b
      by_cases hb : b = c <;> simp [hb]
    · rw [claim_cons_of_notMem hc, List.filter_cons_of_neg (by simpa using hc)]
      exact ih hu

/-- The handles that stay unseen: those that are no callees. -/
theorem claim_snd {unseen : List Handle} (hu : unseen.Nodup) (callees : List Handle) :
    (claim unseen callees).2 = unseen.filter (· ∉ callees) := by
  induction callees generalizing unseen with
  | nil => simp
  | cons c rest ih =>
    by_cases hc : c ∈ unseen
    · simp only [claim_cons_of_mem hc, ih (hu.erase c)]
      rw [hu.erase_eq_filter, List.filter_filter]
      refine List.filter_congr fun b _ => ?_
      by_cases hb : b = c <;> simp [hb]
    · rw [claim_cons_of_notMem hc, ih hu]
      refine List.filter_congr fun b hb => ?_
      have hbc : b ≠ c := fun h => hc (h ▸ hb)
      simp [hbc]

/-! ### The walk -/

/-- The walk passes a function over. -/
def Passes (entry h : Handle) (s : Signature) : Prop :=
  h ≠ entry ∧ s.name ∈ skipped

/-- The host refuses an answer that a visit of the function needs. -/
inductive Stuck (entry : Handle) (host : Host) (h : Handle) (e : Error) : Prop
  /-- The function cannot be described. -/
  | describe (hd : host.describe h = .error e)
  /-- The function cannot be compiled. -/
  | compile (s : Signature) (hd : host.describe h = .ok s) (hp : ¬ Passes entry h s)
      (hc : host.ensureCompiled h = .error e)
  /-- The functions that it calls are not known. -/
  | callees (s : Signature) (host' : Host) (hd : host.describe h = .ok s) (hp : ¬ Passes entry h s)
      (hc : host.ensureCompiled h = .ok host') (hcs : host'.callees h = .error e)

/-- **What every step of the walk keeps, the whole walk keeps.**  At its end the queue is empty; where
it fails, the head of the queue is stuck. -/
theorem walk_invariant (entry : Handle)
    {P : Host → List Handle → List Handle → Names → CallGraph → Prop}
    (hpass : ∀ host unseen h queue names g s, P host unseen (h :: queue) names g →
      host.describe h = .ok s → Passes entry h s → P host unseen queue names g)
    (hvisit : ∀ host host' unseen h queue names g s callees, P host unseen (h :: queue) names g →
      host.describe h = .ok s → ¬ Passes entry h s → host.ensureCompiled h = .ok host' →
      host'.callees h = .ok callees →
      P host' (claim unseen callees).2 (queue ++ (claim unseen callees).1)
        (names.note (nextNode names h s)) (g.push (nextNode names h s)))
    (host : Host) (unseen queue : List Handle) (names : Names) (g : CallGraph)
    (hP : P host unseen queue names g) :
    (∀ host' g', walk entry host unseen queue names g = (host', .ok g') →
      ∃ unseen' names', P host' unseen' [] names' g') ∧
    (∀ host' e, walk entry host unseen queue names g = (host', .error e) →
      ∃ host₁ unseen₁ h queue₁ names₁ g₁, P host₁ unseen₁ (h :: queue₁) names₁ g₁ ∧
        Stuck entry host₁ h e) := by
  fun_induction walk entry host unseen queue names g with
  | case1 host unseen names g =>
    refine ⟨fun host' g' h => ?_, fun host' e h => by simp at h⟩
    obtain ⟨rfl, rfl⟩ : host = host' ∧ g = g' := by simpa using h
    exact ⟨unseen, names, hP⟩
  | case2 host unseen names g h queue e hd =>
    refine ⟨fun host' g' h => by simp at h, fun host' e' he => ?_⟩
    obtain ⟨rfl, rfl⟩ : host = host' ∧ e = e' := by simpa using he
    exact ⟨host, unseen, h, queue, names, g, hP, .describe hd⟩
  | case3 host unseen names g h queue s hd hp ih =>
    exact ih (hpass host unseen h queue names g s hP hd hp)
  | case4 host unseen names g h queue s hd hp e hc =>
    refine ⟨fun host' g' h => by simp at h, fun host' e' he => ?_⟩
    obtain ⟨rfl, rfl⟩ : host = host' ∧ e = e' := by simpa using he
    exact ⟨host, unseen, h, queue, names, g, hP, .compile s hd hp hc⟩
  | case5 host unseen names g h queue s hd hp host₁ hc e hcs =>
    refine ⟨fun host' g' h => by simp at h, fun host' e' he => ?_⟩
    obtain ⟨rfl, rfl⟩ : host₁ = host' ∧ e = e' := by simpa using he
    exact ⟨host, unseen, h, queue, names, g, hP, .callees s host₁ hd hp hc hcs⟩
  | case6 host unseen names g h queue s hd hp host₁ hc callees hcs ih =>
    exact ih (hvisit host host₁ unseen h queue names g s callees hP hd hp hc hcs)

end Freestanding.CallGraph
