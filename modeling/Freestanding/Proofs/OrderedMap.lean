import Std.Data.ExtTreeMap

/-!
# Entries of ordered maps

Membership, lookup and the list of entries of an ordered map are three views of one thing.  These are
the passages between them that the proofs about tables use.
-/

namespace Std.ExtTreeMap

variable {α β : Type} {cmp : α → α → Ordering} [Std.TransCmp cmp] {m : Std.ExtTreeMap α β cmp}

theorem mem_iff_exists {a : α} : a ∈ m ↔ ∃ b, m[a]? = some b := by
  rw [mem_iff_isSome_getElem?, Option.isSome_iff_exists]

theorem mem_of_mem_toList [Std.LawfulEqCmp cmp] {x : α × β} (h : x ∈ m.toList) : x.1 ∈ m :=
  mem_iff_exists.mpr ⟨x.2, mem_toList_iff_getElem?_eq_some.mp h⟩

theorem exists_mem_toList [Std.LawfulEqCmp cmp] {a : α} (h : a ∈ m) : ∃ b, (a, b) ∈ m.toList := by
  obtain ⟨b, hb⟩ := mem_iff_exists.mp h
  exact ⟨b, mem_toList_iff_getElem?_eq_some.mpr hb⟩

theorem values_eq_map_snd_toList : m.values = m.toList.map Prod.snd := by
  obtain ⟨⟨q⟩⟩ := m
  induction q using Quotient.inductionOn with
  | _ t =>
    -- both lists are read off the same tree
    change Std.DTreeMap.Internal.Impl.values t.inner =
      (Std.DTreeMap.Internal.Impl.Const.toList t.inner).map Prod.snd
    rw [Std.DTreeMap.Internal.Impl.values_eq_map_snd,
      Std.DTreeMap.Internal.Impl.Const.toList_eq_toListModel_map, List.map_map]
    rfl

/-- What stands under a key after an insertion is the new value or an old one. -/
theorem getElem?_insert_cases [Std.LawfulEqCmp cmp] {a a' : α} {b b' : β}
    (h : (m.insert a b)[a']? = some b') : a' = a ∧ b' = b ∨ m[a']? = some b' := by
  rw [getElem?_insert] at h
  split at h
  · next ha => exact .inl ⟨(Std.LawfulEqCmp.eq_of_compare ha).symm, (Option.some.inj h).symm⟩
  · exact .inr h

theorem mem_values_of_getElem? [Std.LawfulEqCmp cmp] {a : α} {b : β} (h : m[a]? = some b) :
    b ∈ m.values := by
  rw [values_eq_map_snd_toList]
  exact List.mem_map.mpr ⟨(a, b), mem_toList_iff_getElem?_eq_some.mpr h, rfl⟩

theorem exists_getElem?_of_mem_values [Std.LawfulEqCmp cmp] {b : β} (h : b ∈ m.values) :
    ∃ a : α, m[a]? = some b := by
  rw [values_eq_map_snd_toList] at h
  obtain ⟨⟨a, b⟩, hx, rfl⟩ := List.mem_map.mp h
  exact ⟨a, mem_toList_iff_getElem?_eq_some.mp hx⟩

/-- The keys of a map that is built up by insertions. -/
theorem mem_foldl_insert [Std.LawfulEqCmp cmp] {γ : Type} (key : γ → α) (value : γ → β)
    (xs : List γ) (m : Std.ExtTreeMap α β cmp) (a : α) :
    a ∈ xs.foldl (fun m x => m.insert (key x) (value x)) m ↔ a ∈ m ∨ ∃ x ∈ xs, key x = a := by
  induction xs generalizing m with
  | nil => simp
  | cons x xs ih =>
    rw [List.foldl_cons, ih, mem_insert, Std.LawfulEqCmp.compare_eq_iff_eq, or_assoc, or_left_comm]
    simp only [List.mem_cons, exists_eq_or_imp]

/-- What stands in a map that is built up by insertions has been inserted. -/
theorem getElem?_foldl_insert_cases [Std.LawfulEqCmp cmp] {γ : Type} (key : γ → α) (value : γ → β)
    {xs : List γ} {m : Std.ExtTreeMap α β cmp} {a : α} {b : β}
    (h : (xs.foldl (fun m x => m.insert (key x) (value x)) m)[a]? = some b) :
    m[a]? = some b ∨ ∃ x ∈ xs, key x = a ∧ value x = b := by
  induction xs generalizing m with
  | nil => exact .inl h
  | cons x xs ih =>
    rcases ih h with h | ⟨y, hy, he⟩
    · rcases getElem?_insert_cases h with ⟨rfl, rfl⟩ | h
      · exact .inr ⟨x, List.mem_cons_self, rfl, rfl⟩
      · exact .inl h
    · exact .inr ⟨y, List.mem_cons_of_mem x hy, he⟩

/-- Under each key of a map that is built up by insertions stands what was inserted last. -/
theorem getElem?_foldl_insert [Std.LawfulEqCmp cmp] [DecidableEq α] {γ : Type} (key : γ → α) (value : γ → β)
    (xs : List γ) (m : Std.ExtTreeMap α β cmp) (a : α) :
    (xs.foldl (fun m x => m.insert (key x) (value x)) m)[a]? =
      ((xs.reverse.find? fun x => key x = a).map value).or m[a]? := by
  induction xs generalizing m with
  | nil => rfl
  | cons x xs ih =>
    rw [List.foldl_cons, ih, List.reverse_cons, List.find?_append, Option.map_or, Option.or_assoc, getElem?_insert]
    by_cases hx : key x = a
    · simp [hx]
    · simp [hx, Std.LawfulEqCmp.compare_eq_iff_eq]

/-- Where a map is built up by insertions, some of which may be left out, the last insertion under a key
decides what stands there. -/
theorem getElem?_foldl_elim_insert_cases [Std.LawfulEqCmp cmp] {γ : Type} (item? : γ → Option (α × β))
    (xs : List γ) (m : Std.ExtTreeMap α β cmp) (a : α) :
    (∃ before x after b, xs = before ++ x :: after ∧ item? x = some (a, b) ∧
      (∀ y ∈ after, ∀ b', item? y ≠ some (a, b')) ∧
      (xs.foldl (fun m x => (item? x).elim m fun e => m.insert e.1 e.2) m)[a]? = some b) ∨
    (∀ x ∈ xs, ∀ b, item? x ≠ some (a, b)) ∧
      (xs.foldl (fun m x => (item? x).elim m fun e => m.insert e.1 e.2) m)[a]? = m[a]? := by
  induction xs generalizing m with
  | nil => exact .inr ⟨fun x hx => absurd hx List.not_mem_nil, rfl⟩
  | cons x xs ih =>
    rw [List.foldl_cons]
    rcases ih ((item? x).elim m fun e => m.insert e.1 e.2) with
      ⟨before, y, after, b, rfl, hy, hafter, hb⟩ | ⟨hnone, hsame⟩
    · exact .inl ⟨x :: before, y, after, b, rfl, hy, hafter, hb⟩
    · -- no later element inserts under the key, so the first one decides
      rw [hsame]
      cases hx : item? x with
      | none =>
        refine .inr ⟨fun y hy => ?_, rfl⟩
        rcases List.mem_cons.mp hy with rfl | hy
        · intro b
          rw [hx]
          exact (Option.some_ne_none _).symm
        · exact hnone y hy
      | some e =>
        obtain ⟨a', b⟩ := e
        by_cases ha : a' = a
        · subst ha
          exact .inl ⟨[], x, xs, b, rfl, hx, hnone, getElem?_insert_self⟩
        · refine .inr ⟨fun y hy b' hb' => ?_, ?_⟩
          · rcases List.mem_cons.mp hy with rfl | hy
            · rw [hx] at hb'
              exact ha (Prod.mk.inj (Option.some.inj hb')).1
            · exact hnone y hy b' hb'
          · rw [Option.elim_some, getElem?_insert,
              if_neg (by simpa [Std.LawfulEqCmp.compare_eq_iff_eq] using ha)]

/-- Entries with different keys are all found after they have been inserted. -/
theorem getElem?_foldl_insert_of_mem [Std.LawfulEqCmp cmp] {xs : List (α × β)} {m : Std.ExtTreeMap α β cmp}
    (hdistinct : xs.Pairwise fun x y => ¬ cmp x.1 y.1 = .eq) {a : α} {b : β} (h : (a, b) ∈ xs) :
    (xs.foldl (fun m x => m.insert x.1 x.2) m)[a]? = some b := by
  have hkeep : ∀ (ys : List (α × β)) (m : Std.ExtTreeMap α β cmp), m[a]? = some b →
      (∀ y ∈ ys, ¬ cmp y.1 a = .eq) → (ys.foldl (fun m x => m.insert x.1 x.2) m)[a]? = some b := by
    intro ys
    induction ys with
    | nil => exact fun m hm _ => hm
    | cons y ys ih =>
      intro m hm hys
      refine ih _ ?_ fun z hz => hys z (List.mem_cons_of_mem y hz)
      rw [getElem?_insert, if_neg (hys y List.mem_cons_self), hm]
  induction xs generalizing m with
  | nil => cases h
  | cons x xs ih =>
    obtain ⟨hx, hdistinct⟩ := List.pairwise_cons.mp hdistinct
    rcases List.mem_cons.mp h with rfl | h
    · -- no later entry has the key
      refine hkeep xs _ (by simp) fun y hy he => ?_
      exact hx y hy (Std.OrientedCmp.eq_symm he)
    · exact ih hdistinct h

/-- **A map is built up again from the list of its entries.** -/
theorem foldl_insert_toList [Std.LawfulEqCmp cmp] (m : Std.ExtTreeMap α β cmp) :
    m.toList.foldl (fun m x => m.insert x.1 x.2) (∅ : Std.ExtTreeMap α β cmp) = m := by
  refine ext_getElem? fun a => Option.ext fun b => ?_
  constructor
  · intro h
    rcases getElem?_foldl_insert_cases Prod.fst Prod.snd h with h | ⟨x, hx, rfl, rfl⟩
    · exact absurd h (by simp)
    · exact mem_toList_iff_getElem?_eq_some.mp hx
  · intro h
    exact getElem?_foldl_insert_of_mem distinct_keys_toList (mem_toList_iff_getElem?_eq_some.mpr h)

end Std.ExtTreeMap
