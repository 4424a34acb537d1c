import Mathlib.Data.List.Forall2
import Mathlib.Data.List.Nodup

/-!
# Lists

What the proofs use of lists in general: lists without their repetitions, lists that have grown by one, and
lists that are put together from shorter ones.
-/

namespace List

variable {α β γ : Type*}

/-! ### Repetitions -/

section

variable [DecidableEq α]

/-- Induction along the recursion of `eraseDups`: behind an item, its copies are left out. -/
private theorem eraseDups_induction {motive : List α → Prop} (nil : motive [])
    (cons : ∀ a l, motive (l.filter fun b => !b == a) → motive (a :: l)) (l : List α) : motive l := by
  induction hn : l.length using Nat.strongRecOn generalizing l with
  | ind n ih =>
    cases l with
    | nil => exact nil
    | cons a l =>
      have hlt : (l.filter fun b => !b == a).length < n := by
        have := length_filter_le (fun b => !b == a) l
        simp only [length_cons] at hn
        omega
      exact cons a l (ih _ hlt _ rfl)

theorem eraseDups_filter (p : α → Bool) (l : List α) :
    (l.filter p).eraseDups = l.eraseDups.filter p := by
  induction l using eraseDups_induction with
  | nil => rfl
  | cons a l ih =>
    by_cases ha : p a
    · rw [filter_cons_of_pos ha, eraseDups_cons, eraseDups_cons,
        filter_cons_of_pos ha, ← ih, filter_filter, filter_filter]
      simp only [Bool.and_comm]
    · have hskip : (l.filter fun b => !b == a).filter p = l.filter p := by
        rw [filter_filter]
        refine filter_congr fun b _ => ?_
        by_cases hb : b = a
        · simp [hb, ha]
        · simp [hb]
      rw [filter_cons_of_neg ha, eraseDups_cons, filter_cons_of_neg ha, ← ih, hskip]

theorem nodup_eraseDups (l : List α) : l.eraseDups.Nodup := by
  induction l using eraseDups_induction with
  | nil => simp
  | cons a l ih =>
    rw [eraseDups_cons, nodup_cons]
    refine ⟨?_, ih⟩
    rw [mem_eraseDups, mem_filter]
    simp

/-- Repetitions in a longer list: those of the first part, and then what the second part adds. -/
theorem eraseDups_append_filter (l m : List α) :
    (l ++ m).eraseDups = l.eraseDups ++ (m.filter (· ∉ l)).eraseDups := by
  rw [eraseDups_append, removeAll]
  congr 3
  funext x
  simp

/-- A list without repetitions grows by what it does not have. -/
theorem eraseDups_concat (l : List α) (a : α) :
    (l ++ [a]).eraseDups = if a ∈ l then l.eraseDups else l.eraseDups ++ [a] := by
  rw [eraseDups_append]
  by_cases h : a ∈ l
  · simp [removeAll, h]
  · simp [removeAll, h, eraseDups_cons]

theorem eraseDups_eq_self {l : List α}
    (h : l.Nodup) : l.eraseDups = l := by
  induction l with
  | nil => rfl
  | cons a l ih =>
    obtain ⟨ha, hl⟩ := nodup_cons.mp h
    have hfilter : l.filter (fun b => !b == a) = l := by
      refine filter_eq_self.mpr fun b hb => ?_
      have hne : b ≠ a := fun he => ha (he ▸ hb)
      simpa using hne
    rw [eraseDups_cons, hfilter, ih hl]

end

/-! ### Places and keys -/

/-- The entries of a list that has grown by one. -/
theorem getElem?_concat_eq_some_iff {l : List α} {x y : α} {i : Nat} :
    (l ++ [x])[i]? = some y ↔ l[i]? = some y ∨ i = l.length ∧ x = y := by
  rcases Nat.lt_trichotomy i l.length with hlt | rfl | hgt
  · rw [getElem?_append_left hlt]
    simp [Nat.ne_of_lt hlt]
  · simp
  · rw [getElem?_eq_none (by simpa using Nat.succ_le_of_lt hgt),
      getElem?_eq_none (Nat.le_of_lt hgt)]
    simp [Nat.ne_of_gt hgt]

/-- A list is what its places hold, one after the other. -/
theorem filterMap_getElem?_range (l : List α) :
    (range l.length).filterMap (l[·]?) = l := by
  induction l with
  | nil => rfl
  | cons a l ih =>
    rw [length_cons, range_succ_eq_map, filterMap_cons, filterMap_map]
    exact congrArg (a :: ·) ih

/-- If no two items have the same key, one item has the key of an item. -/
theorem filter_eq_singleton_of_nodup [DecidableEq β] {key : α → β} {l : List α}
    (h : (l.map key).Nodup) {x : α} (hx : x ∈ l) : l.filter (key · = key x) = [x] := by
  induction l with
  | nil => cases hx
  | cons y l ih =>
    rw [map_cons, nodup_cons] at h
    rcases mem_cons.mp hx with rfl | hx
    · rw [filter_cons_of_pos (by simp)]
      refine congrArg (x :: ·) (filter_eq_nil_iff.mpr fun z hz he => h.1 ?_)
      exact mem_map.mpr ⟨z, hz, of_decide_eq_true he⟩
    · have hne : key y ≠ key x := fun he => h.1 (he ▸ mem_map_of_mem hx)
      rw [filter_cons_of_neg (by simpa using hne), ih h.2 hx]

theorem mem_of_lookup [BEq α] [LawfulBEq α] {l : List (α × β)} {a : α} {b : β} (h : l.lookup a = some b) :
    (a, b) ∈ l := by
  obtain ⟨before, after, rfl, -⟩ := lookup_eq_some_iff.mp h
  simp

/-! ### Lists made of lists -/

theorem flatMap_filter_not (q : α → Bool) (f : α → List β) (xs : List α) :
    (xs.filter (!q ·)).flatMap f = xs.flatMap fun x => if q x then [] else f x := by
  induction xs with
  | nil => rfl
  | cons x xs ih =>
    rw [flatMap_cons, ← ih, filter_cons]
    cases q x <;> rfl

/-- A list that is put together from lists of one item at most comes apart at each item. -/
theorem exists_of_flatMap_eq {g : γ → List α} {xs : List γ} {l r : List α} {a : α}
    (h : xs.flatMap g = l ++ a :: r) (hone : ∀ x ∈ xs, (g x).length ≤ 1) :
    ∃ before x after, xs = before ++ x :: after ∧ g x = [a] ∧ l = before.flatMap g ∧
      r = after.flatMap g := by
  induction xs generalizing l with
  | nil =>
    rw [flatMap_nil] at h
    cases l <;> cases h
  | cons x xs ih =>
    have hrest : ∀ y ∈ xs, (g y).length ≤ 1 := fun y hy => hone y (mem_cons_of_mem _ hy)
    rw [flatMap_cons] at h
    match hx : g x, hone x mem_cons_self with
    | [], _ =>
      rw [hx, nil_append] at h
      obtain ⟨before, y, after, rfl, hy, hl, hr⟩ := ih h hrest
      exact ⟨x :: before, y, after, rfl, hy, by rw [flatMap_cons, hx, hl]; rfl, hr⟩
    | [b], _ =>
      rw [hx, singleton_append] at h
      cases l with
      | nil =>
        obtain ⟨rfl, rfl⟩ := cons.inj h
        exact ⟨[], x, xs, rfl, hx, rfl, rfl⟩
      | cons c l =>
        obtain ⟨rfl, htail⟩ := cons.inj h
        obtain ⟨before, y, after, rfl, hy, hl, hr⟩ := ih htail hrest
        exact ⟨x :: before, y, after, rfl, hy, by rw [flatMap_cons, hx, hl]; rfl, hr⟩
    | _ :: _ :: _, hlength => simp at hlength

/-- Of two related lists, every item of the second has a partner in the first. -/
theorem Forall₂.exists_of_mem {R : α → β → Prop} {xs : List α} {ys : List β}
    (h : Forall₂ R xs ys) {y : β} (hy : y ∈ ys) : ∃ x ∈ xs, R x y := by
  induction h with
  | nil => cases hy
  | cons hR _ ih =>
    rcases mem_cons.mp hy with rfl | hy
    · exact ⟨_, mem_cons_self, hR⟩
    · obtain ⟨x, hx, hxy⟩ := ih hy
      exact ⟨x, mem_cons_of_mem _ hx, hxy⟩

end List
