import Freestanding.Proofs.Collector.Residue
import Freestanding.Collector.Scaffolding
import Mathlib.Data.Finset.Card
import Mathlib.Order.Bounds.Basic

/-!
# What stripping removes

Lines are removed sweep by sweep, and a value that is gone takes further lines with it, before and after
the line that assigned it.  The order does not matter: what is removed in the end is the least set of
lines that has every line that mentions the collector or a value assigned in the set, where allocations
are never taken.  So no value that a remaining line uses has lost its assignment, except in allocations,
and nothing is left to remove.

## Main definitions

* `Scaffolding.Mentions` — what makes a line scaffolding.
* `Scaffolding.AssignedAt`, `Scaffolding.Closed` — places of lines that are closed under dependence.
* `Scaffolding.survivors` — the lines at all other places.
* `Scaffolding.Settled` — which values are gone in the end, as an invariant of sweeping.

## Main results

* `Scaffolding.sweep_sound`, `Scaffolding.exists_settled` — one sweep, and all of them.
* `Scaffolding.exists_isLeast_closed`, `Scaffolding.mem_iff_of_isLeast` — what is removed, and why.
* `Scaffolding.strip_least` — **stripping removes the least closed set of lines.**
-/

namespace Freestanding

namespace Scaffolding

/-! ### Dependence on the collector -/

/-- The code of a line mentions a value of the collector, a value that is gone, or a function of the
collector's frame. -/
def Mentions (gone : Text → Prop) (line : Text) : Prop :=
  (∃ t ∈ Token.locals (Line.code line), isCollectorValue t ∨ gone t) ∨
    ∃ t ∈ Token.globals (Line.code line), t ∈ frameFunctions

/-- A value is assigned by the line at one of the given places. -/
def AssignedAt (lines : List Text) (places : Set Nat) (value : Text) : Prop :=
  ∃ i ∈ places, ∃ line, lines[i]? = some line ∧ Line.assigned? line = some value

/-- The given places have every line, allocations apart, that mentions the collector or a value assigned
at one of them. -/
def Closed (lines : List Text) (places : Set Nat) : Prop :=
  ∀ (i : Nat) (line : Text), lines[i]? = some line → Allocation.isCall line = false →
    Mentions (AssignedAt lines places) line → i ∈ places

/-- The lines at all places but the given ones, in order. -/
def survivors (places : Finset Nat) (lines : List Text) : List Text :=
  (lines.zipIdx.filter fun p => p.2 ∉ places).map Prod.fst

theorem Mentions.mono {gone gone' : Text → Prop} {line : Text} (h : Mentions gone line)
    (hsub : ∀ t, gone t → gone' t) : Mentions gone' line := by
  refine h.imp_left ?_
  rintro ⟨t, ht, hc⟩
  exact ⟨t, ht, hc.imp_right (hsub t)⟩

@[simp] theorem not_mentions_nil (gone : Text → Prop) : ¬ Mentions gone [] := by
  rintro (⟨t, ht, -⟩ | ⟨t, ht, -⟩)
  · cases ht
  · cases ht

/-- A line is removed if it is no allocation and mentions something that is gone or has to go. -/
theorem isScaffolding_iff {gone : List Text} {line : Text} :
    isScaffolding gone line ↔ Allocation.isCall line = false ∧ Mentions (· ∈ gone) line := by
  unfold isScaffolding Mentions
  rw [Bool.and_eq_true, Bool.not_eq_true', Bool.or_eq_true]
  simp only [List.any_eq_true, Bool.or_eq_true, List.contains_iff_mem]

private theorem isScaffolding_mono {gone gone' : List Text} (hsub : gone ⊆ gone') {line : Text}
    (h : isScaffolding gone line) : isScaffolding gone' line := by
  rw [isScaffolding_iff] at h ⊢
  exact ⟨h.1, h.2.mono fun t ht => hsub ht⟩

/-! ### One sweep -/

theorem subset_sweep (gone lines : List Text) : gone ⊆ (sweep gone lines).2 := by
  induction lines generalizing gone with
  | nil => exact List.Subset.refl gone
  | cons line lines ih =>
    by_cases h : isScaffolding gone line
    · rw [sweep_cons_of_scaffolding h]
      exact List.Subset.trans (List.subset_append_right _ gone) (ih _)
    · rw [sweep_cons_of_not_scaffolding h]
      exact ih gone

/-- What a sweep removes is scaffolding for every list of values that includes those gone after it. -/
theorem filter_sweep {gone lines final : List Text} (hfinal : (sweep gone lines).2 ⊆ final) :
    (sweep gone lines).1.filter (fun line => !isScaffolding final line) =
      lines.filter fun line => !isScaffolding final line := by
  induction lines generalizing gone with
  | nil => rfl
  | cons line lines ih =>
    by_cases h : isScaffolding gone line
    · rw [sweep_cons_of_scaffolding h] at hfinal ⊢
      have hgone : gone ⊆ final := by
        intro t ht
        exact hfinal (subset_sweep _ lines (List.mem_append_right _ ht))
      rw [ih hfinal, List.filter_cons_of_neg (by simp [isScaffolding_mono hgone h])]
    · rw [sweep_cons_of_not_scaffolding h] at hfinal ⊢
      by_cases hline : isScaffolding final line
      · rw [List.filter_cons_of_neg (by simp [hline]), List.filter_cons_of_neg (by simp [hline])]
        exact ih hfinal
      · rw [List.filter_cons_of_pos (by simp [hline]), List.filter_cons_of_pos (by simp [hline])]
        exact congrArg _ (ih hfinal)

/-- A line stays, or the value it assigns is gone after the sweep. -/
theorem mem_sweep_or (gone : List Text) {lines : List Text} {line : Text} (hline : line ∈ lines) :
    line ∈ (sweep gone lines).1 ∨
      ∀ t, Line.assigned? line = some t → t ∈ (sweep gone lines).2 := by
  induction lines generalizing gone with
  | nil => cases hline
  | cons first lines ih =>
    by_cases h : isScaffolding gone first
    · rw [sweep_cons_of_scaffolding h]
      rcases List.mem_cons.mp hline with rfl | hline
      · right
        intro t ht
        refine subset_sweep _ lines ?_
        rw [ht]
        exact List.mem_cons_self
      · exact ih _ hline
    · rw [sweep_cons_of_not_scaffolding h]
      rcases List.mem_cons.mp hline with rfl | hline
      · exact Or.inl List.mem_cons_self
      · exact (ih gone hline).imp_left (List.mem_cons_of_mem first)

/-- **A sweep takes no value without a reason**: a property of values that is closed under dependence
holds of all values that are gone after a sweep, if it does before. -/
theorem sweep_sound {gone lines : List Text} {P : Text → Prop}
    (hP : ∀ line ∈ lines, Allocation.isCall line = false → Mentions P line →
      ∀ t, Line.assigned? line = some t → P t)
    (hgone : ∀ t ∈ gone, P t) : ∀ t ∈ (sweep gone lines).2, P t := by
  induction lines generalizing gone with
  | nil => exact hgone
  | cons line lines ih =>
    have hrest := fun l hl => hP l (List.mem_cons_of_mem line hl)
    by_cases h : isScaffolding gone line
    · rw [sweep_cons_of_scaffolding h]
      obtain ⟨hcall, hmentions⟩ := isScaffolding_iff.mp h
      refine ih hrest ?_
      intro t ht
      rcases List.mem_append.mp ht with ht | ht
      · exact hP line List.mem_cons_self hcall (hmentions.mono hgone) t (Option.mem_toList.mp ht)
      · exact hgone t ht
    · rw [sweep_cons_of_not_scaffolding h]
      exact ih hrest hgone

theorem sweep_sublist (gone lines : List Text) : (sweep gone lines).1.Sublist lines := by
  induction lines generalizing gone with
  | nil => exact List.Sublist.refl []
  | cons line lines ih =>
    by_cases h : isScaffolding gone line
    · rw [sweep_cons_of_scaffolding h]
      exact (ih _).cons line
    · rw [sweep_cons_of_not_scaffolding h]
      exact (ih gone).cons_cons line

/-- A sweep that removes nothing has found nothing to remove. -/
theorem not_isScaffolding_of_length {gone lines : List Text}
    (h : ¬ (sweep gone lines).1.length < lines.length) :
    ∀ line ∈ lines, isScaffolding gone line = false := by
  induction lines generalizing gone with
  | nil => exact fun line hline => absurd hline List.not_mem_nil
  | cons first lines ih =>
    by_cases hfirst : isScaffolding gone first
    · rw [sweep_cons_of_scaffolding hfirst] at h
      have := (sweep_sublist ((Line.assigned? first).toList ++ gone) lines).length_le
      rw [List.length_cons] at h
      omega
    · rw [sweep_cons_of_not_scaffolding hfirst] at h
      intro line hline
      rcases List.mem_cons.mp hline with rfl | hline
      · simpa using hfirst
      · exact ih (by simpa using h) line hline

/-! ### All sweeps -/

theorem settle_eq (gone lines : List Text) :
    settle gone lines =
      if (sweep gone lines).1.length < lines.length then
        settle (sweep gone lines).2 (sweep gone lines).1
      else lines := by
  rw [settle]

/-- The values `final` are gone in the end, if the values `gone` are at the start. -/
structure Settled (gone lines final : List Text) : Prop where
  /-- No value comes back. -/
  subset : gone ⊆ final
  /-- What remains is what is no scaffolding in the end. -/
  kept : settle gone lines = lines.filter fun line => !isScaffolding final line
  /-- What is removed takes its value with it. -/
  closed : ∀ line ∈ lines, isScaffolding final line →
    ∀ t, Line.assigned? line = some t → t ∈ final
  /-- No value is gone without a reason. -/
  sound : ∀ P : Text → Prop, (∀ line ∈ lines, Allocation.isCall line = false → Mentions P line →
    ∀ t, Line.assigned? line = some t → P t) → (∀ t ∈ gone, P t) → ∀ t ∈ final, P t

/-- If there is nothing to remove, all is settled. -/
theorem Settled.of_forall {gone lines : List Text} (hlt : ¬ (sweep gone lines).1.length < lines.length) :
    Settled gone lines gone where
  subset := List.Subset.refl gone
  kept := by
    rw [settle_eq, if_neg hlt, List.filter_eq_self.mpr]
    intro line hline
    rw [not_isScaffolding_of_length hlt line hline]
    rfl
  closed := by
    intro line hline hscaffolding
    rw [not_isScaffolding_of_length hlt line hline] at hscaffolding
    cases hscaffolding
  sound := fun P _ hgone => hgone

/-- What settles after a sweep was already settled before it. -/
theorem Settled.of_sweep {gone lines final : List Text}
    (hlt : (sweep gone lines).1.length < lines.length)
    (h : Settled (sweep gone lines).2 (sweep gone lines).1 final) : Settled gone lines final where
  subset := List.Subset.trans (subset_sweep gone lines) h.subset
  kept := by
    rw [settle_eq, if_pos hlt, h.kept, filter_sweep h.subset]
  closed := by
    intro line hline hscaffolding t ht
    rcases mem_sweep_or gone hline with hkept | hgone
    · exact h.closed line hkept hscaffolding t ht
    · exact h.subset (hgone t ht)
  sound := by
    intro P hP hgone
    refine h.sound P ?_ (sweep_sound hP hgone)
    intro line hline
    exact hP line ((sweep_sublist gone lines).subset hline)

/-- **Sweeping until no line goes settles.** -/
theorem exists_settled (gone lines : List Text) : ∃ final, Settled gone lines final := by
  -- by the number of lines: a sweep that does not end the loop has removed some
  induction hn : lines.length using Nat.strongRecOn generalizing gone lines with
  | ind n ih =>
    by_cases hlt : (sweep gone lines).1.length < lines.length
    · obtain ⟨final, h⟩ := ih _ (hn ▸ hlt) (sweep gone lines).2 (sweep gone lines).1 rfl
      exact ⟨final, h.of_sweep hlt⟩
    · exact ⟨gone, .of_forall hlt⟩

/-! ### The places of the lines that are removed -/

/-- The places of the lines that are scaffolding once the values `final` are gone. -/
def places (final lines : List Text) : Finset Nat :=
  ((lines.zipIdx.filter fun p => isScaffolding final p.1).map Prod.snd).toFinset

theorem mem_places {final lines : List Text} {i : Nat} :
    i ∈ places final lines ↔ ∃ line, lines[i]? = some line ∧ isScaffolding final line := by
  unfold places
  rw [List.mem_toFinset, List.mem_map]
  constructor
  · rintro ⟨⟨line, j⟩, hp, rfl⟩
    obtain ⟨hmem, hline⟩ := List.mem_filter.mp hp
    exact ⟨line, List.mem_zipIdx_iff_getElem?.mp hmem, hline⟩
  · rintro ⟨line, hi, hline⟩
    exact ⟨(line, i), List.mem_filter.mpr ⟨List.mem_zipIdx_iff_getElem?.mpr hi, hline⟩, rfl⟩

/-- A line is at most once at one place, so the places are as many as the lines. -/
theorem card_places (final lines : List Text) :
    (places final lines).card = lines.countP fun line => isScaffolding final line := by
  have hnodup : ((lines.zipIdx.filter fun p => isScaffolding final p.1).map Prod.snd).Nodup := by
    refine List.Nodup.sublist (List.filter_sublist.map Prod.snd) ?_
    rw [List.zipIdx_map_snd]
    exact List.nodup_range'
  unfold places
  rw [List.toFinset_card_of_nodup hnodup, List.length_map, ← List.countP_eq_length_filter]
  conv_rhs => rw [← List.zipIdx_map_fst 0 lines, List.countP_map]
  rfl

private theorem survivors_places (final lines : List Text) :
    survivors (places final lines) lines = lines.filter fun line => !isScaffolding final line := by
  have hfilter : (lines.zipIdx.filter fun p => p.2 ∉ places final lines) =
      lines.zipIdx.filter ((fun line => !isScaffolding final line) ∘ Prod.fst) := by
    refine List.filter_congr ?_
    rintro ⟨line, i⟩ hp
    have hi : lines[i]? = some line := List.mem_zipIdx_iff_getElem?.mp hp
    simp [mem_places, hi]
  unfold survivors
  rw [hfilter, ← List.filter_map, List.zipIdx_map_fst]

/-- What is assigned where lines are removed is gone. -/
theorem Settled.assignedAt {gone lines final : List Text} (h : Settled gone lines final) {t : Text}
    (ht : AssignedAt lines (places final lines) t) : t ∈ final := by
  obtain ⟨i, hi, line, hline, hassigned⟩ := ht
  obtain ⟨line', hline', hscaffolding⟩ := mem_places.mp hi
  obtain rfl : line = line' := Option.some.inj (hline.symm.trans hline')
  exact h.closed line (List.mem_of_getElem? hline) hscaffolding t hassigned

private theorem Settled.closed_places {gone lines final : List Text} (h : Settled gone lines final) :
    Closed lines (places final lines) := by
  intro i line hi hcall hmentions
  refine mem_places.mpr ⟨line, hi, isScaffolding_iff.mpr ⟨hcall, ?_⟩⟩
  exact hmentions.mono fun t ht => h.assignedAt ht

/-- **Every closed set of lines has all that is removed.** -/
theorem Settled.places_subset {lines final : List Text} (h : Settled [] lines final) {S : Set Nat}
    (hS : Closed lines S) : (places final lines : Set Nat) ⊆ S := by
  have hfinal : ∀ t ∈ final, AssignedAt lines S t := by
    refine h.sound (AssignedAt lines S) ?_ (fun t ht => absurd ht List.not_mem_nil)
    intro line hline hcall hmentions t ht
    obtain ⟨j, hj⟩ := List.mem_iff_getElem?.mp hline
    exact ⟨j, hS j line hj hcall hmentions, line, hj, ht⟩
  intro i hi
  obtain ⟨line, hline, hscaffolding⟩ := mem_places.mp hi
  obtain ⟨hcall, hmentions⟩ := isScaffolding_iff.mp hscaffolding
  exact hS i line hline hcall (hmentions.mono hfinal)

/-! ### Stripping -/

theorem strip_eq (body : Text) :
    strip body =
      (Text.unlines (settle [] body.lines), body.lines.length - (settle [] body.lines).length) := rfl

theorem Settled.strip_eq {body : Text} {final : List Text} (h : Settled [] body.lines final) :
    strip body =
      (Text.unlines (survivors (places final body.lines) body.lines),
        (places final body.lines).card) := by
  have hcount : body.lines.length = body.lines.countP (isScaffolding final) +
      (body.lines.filter fun line => !isScaffolding final line).length := by
    rw [← List.countP_eq_length_filter]
    simpa using List.length_eq_countP_add_countP (isScaffolding final) (l := body.lines)
  rw [Scaffolding.strip_eq, h.kept, survivors_places, card_places, hcount, Nat.add_sub_cancel]

/-- **Stripping removes the lines of a least closed set.** -/
theorem exists_isLeast_closed (body : Text) :
    ∃ S : Finset Nat, IsLeast {T : Set Nat | Closed body.lines T} S ∧
      strip body = (Text.unlines (survivors S body.lines), S.card) := by
  obtain ⟨final, h⟩ := exists_settled [] body.lines
  refine ⟨places final body.lines, ⟨h.closed_places, ?_⟩, h.strip_eq⟩
  intro T hT
  exact h.places_subset hT

/-! ### Consequences -/

theorem mem_survivors {places : Finset Nat} {lines : List Text} {line : Text} :
    line ∈ survivors places lines ↔ ∃ i, lines[i]? = some line ∧ i ∉ places := by
  unfold survivors
  rw [List.mem_map]
  constructor
  · rintro ⟨⟨line, i⟩, hp, rfl⟩
    obtain ⟨hmem, hi⟩ := List.mem_filter.mp hp
    exact ⟨i, List.mem_zipIdx_iff_getElem?.mp hmem, of_decide_eq_true hi⟩
  · rintro ⟨i, hline, hi⟩
    exact ⟨(line, i), List.mem_filter.mpr ⟨List.mem_zipIdx_iff_getElem?.mpr hline, decide_eq_true hi⟩, rfl⟩

theorem notMem_of_mem_survivors {places : Finset Nat} {body line : Text}
    (h : line ∈ survivors places body.lines) : '\n' ∉ line := by
  obtain ⟨i, hline, -⟩ := mem_survivors.mp h
  exact Text.notMem_of_mem_lines (List.mem_of_getElem? hline)

/-- A least closed set has no line without a reason: it is a fixed point. -/
theorem mem_iff_of_isLeast {lines : List Text} {S : Set Nat}
    (hS : IsLeast {T : Set Nat | Closed lines T} S) {i : Nat} {line : Text} (hi : lines[i]? = some line) :
    i ∈ S ↔ Allocation.isCall line = false ∧ Mentions (AssignedAt lines S) line := by
  constructor
  · intro hmem
    -- the places of `S` that have a reason are closed already
    have hclosed : Closed lines {j ∈ S | ∀ l, lines[j]? = some l →
        Allocation.isCall l = false ∧ Mentions (AssignedAt lines S) l} := by
      intro j l hj hcall hmentions
      have hsub : Mentions (AssignedAt lines S) l := by
        refine hmentions.mono ?_
        rintro t ⟨k, ⟨hk, -⟩, hassigned⟩
        exact ⟨k, hk, hassigned⟩
      refine ⟨hS.1 j l hj hcall hsub, ?_⟩
      intro l' hl'
      obtain rfl : l = l' := Option.some.inj (hj.symm.trans hl')
      exact ⟨hcall, hsub⟩
    exact (hS.2 hclosed hmem).2 line hi
  · rintro ⟨hcall, hmentions⟩
    exact hS.1 i line hi hcall hmentions

/-- A line that remains is an allocation, or mentions nothing that is gone. -/
theorem not_mentions_of_mem_survivors {lines : List Text} {S : Finset Nat}
    (hS : IsLeast {T : Set Nat | Closed lines T} S) {line : Text} (hline : line ∈ survivors S lines)
    (hcall : Allocation.isCall line = false) : ¬ Mentions (AssignedAt lines S) line := by
  obtain ⟨i, hi, hnot⟩ := mem_survivors.mp hline
  intro hmentions
  exact hnot ((mem_iff_of_isLeast hS hi).mpr ⟨hcall, hmentions⟩)

/-- A body without scaffolding is left alone. -/
theorem strip_eq_self {body : Text} (h : ∀ line ∈ body.lines, Allocation.isCall line = false →
    ¬ Mentions (fun _ => False) line) : strip body = (body, 0) := by
  obtain ⟨S, hS, hstrip⟩ := exists_isLeast_closed body
  have hclosed : Closed body.lines ∅ := by
    intro i line hi hcall hmentions
    refine absurd (hmentions.mono ?_) (h line (List.mem_of_getElem? hi) hcall)
    rintro t ⟨j, hj, -⟩
    exact hj
  obtain rfl : S = ∅ := Finset.coe_eq_empty.mp (Set.subset_empty_iff.mp (hS.2 hclosed))
  have hall : survivors ∅ body.lines = body.lines := by
    simp [survivors]
  rw [hstrip, hall, Text.unlines_lines, Finset.card_empty]

/-- **Stripping removes the least closed set of lines**, and says how many they are.  What remains is
unchanged and in order, none of it depends on what is gone, allocations apart, and stripping it again
removes nothing. -/
theorem strip_least (body : Text) :
    ∃ S : Finset Nat, IsLeast {T : Set Nat | Closed body.lines T} S ∧
      strip body = (Text.unlines (survivors S body.lines), S.card) ∧
      (∀ line ∈ (strip body).1.lines, Allocation.isCall line = false →
        ¬ Mentions (AssignedAt body.lines S) line) ∧
      strip (strip body).1 = ((strip body).1, 0) := by
  obtain ⟨S, hS, hstrip⟩ := exists_isLeast_closed body
  have hnone : ∀ line ∈ (strip body).1.lines, Allocation.isCall line = false →
      ¬ Mentions (AssignedAt body.lines S) line := by
    intro line hline hcall
    rw [hstrip] at hline
    rcases Text.mem_lines_unlines (fun l hl => notMem_of_mem_survivors hl) hline with hmem | rfl
    · exact not_mentions_of_mem_survivors hS hmem hcall
    · exact not_mentions_nil _
  refine ⟨S, hS, hstrip, hnone, strip_eq_self ?_⟩
  intro line hline hcall hmentions
  exact hnone line hline hcall (hmentions.mono fun t ht => ht.elim)

/-- A line that builds a frame goes, and so does what is computed from the frame; the call of an allocator
stays. -/
example : strip (Text.unlines
      ["  %gcframe = call ptr @julia.new_gc_frame(i32 1)", "  %slot = getelementptr ptr, ptr %gcframe, i64 2",
        "  %box = call ptr @ijl_gc_pool_alloc(ptr %slot, i32 1, i32 16)", "  ret ptr %box"]) =
    (Text.unlines ["  %box = call ptr @ijl_gc_pool_alloc(ptr %slot, i32 1, i32 16)", "  ret ptr %box"], 2) := by
  decide +kernel

end Scaffolding

end Freestanding
