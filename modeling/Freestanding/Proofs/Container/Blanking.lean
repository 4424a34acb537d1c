import Freestanding.Container.Lowering
import Mathlib.Data.List.Pairwise

/-!
# Blocks of a body

A body is the sequence of the lines of its blocks, so that cutting it into blocks and joining them again
gives it back.  Blanking goes through a list of labels: each label blanks the first block that has it.
As a block keeps its label when it is blanked, the order of the labels does not matter, and a label may
come up more than once.

## Main definitions

* `Block.isTarget` — a block is the first one with one of the given labels.
* `Block.blankIf` — a block that may be blanked.

## Main results

* `Block.flatMap_lines_split`, `Block.join_split` — cutting into blocks loses nothing.
* `Container.blankLabels_eq_ok` — **the targets are blanked, and all other blocks stay as they are.**
-/

namespace Freestanding

namespace Block

/-! ### Cutting and joining -/

private theorem flatMap_lines_splitFrom (block : Block) (rest : List Text) :
    (splitFrom block rest).flatMap Block.lines = block.lines.reverse ++ rest := by
  induction rest generalizing block with
  | nil => simp
  | cons line rest ih =>
    cases hlabel : label? line with
    | some label =>
      rw [splitFrom_cons_of_label block hlabel, List.flatMap_cons, ih]
      rfl
    | none =>
      rw [splitFrom_cons_of_no_label block hlabel, ih, List.reverse_cons, List.append_assoc]
      rfl

/-- **The lines of the blocks are the lines of the body.** -/
theorem flatMap_lines_split (body : Text) : (split body).flatMap Block.lines = body.lines :=
  flatMap_lines_splitFrom _ _

theorem join_split (body : Text) : join (split body) = body := by
  rw [join, flatMap_lines_split, Text.unlines_lines]

theorem index_splitFrom (block : Block) (rest : List Text) :
    (∀ b ∈ splitFrom block rest, block.index ≤ b.index) ∧
      (splitFrom block rest).Pairwise fun b c => b.index < c.index := by
  induction rest generalizing block with
  | nil => simp
  | cons line rest ih =>
    cases hlabel : label? line with
    | some label =>
      rw [splitFrom_cons_of_label block hlabel]
      obtain ⟨hle, hlt⟩ := ih { label := some label, index := block.index + 1, lines := [line] }
      refine ⟨List.forall_mem_cons.mpr ⟨Nat.le_refl _, fun b hb => ?_⟩, List.pairwise_cons.mpr ⟨hle, hlt⟩⟩
      exact Nat.le_of_succ_le (hle b hb)
    | none =>
      rw [splitFrom_cons_of_no_label block hlabel]
      exact ih { block with lines := line :: block.lines }

/-- No two blocks of a body have the same position. -/
theorem nodup_index_split (body : Text) : ((split body).map Block.index).Nodup := by
  rw [List.Nodup, List.pairwise_map]
  exact (index_splitFrom _ _).2.imp fun hlt => Nat.ne_of_lt hlt

/-! ### Targets -/

/-- The block is the first one with one of the labels. -/
def isTarget (labels : List Text) (blocks : List Block) (b : Block) : Bool :=
  labels.any fun label => (blocks.find? (·.hasLabel label)).any (·.index == b.index)

/-- The block, blanked under a condition. -/
def blankIf (condition : Bool) (b : Block) : Block :=
  if condition then b.blank else b

@[simp] theorem label_blankIf (condition : Bool) (b : Block) : (b.blankIf condition).label = b.label := by
  cases condition <;> rfl

@[simp] theorem index_blankIf (condition : Bool) (b : Block) : (b.blankIf condition).index = b.index := by
  cases condition <;> rfl

@[simp] theorem blankIf_blankIf (p q : Bool) (b : Block) : (b.blankIf p).blankIf q = b.blankIf (p || q) := by
  cases p <;> cases q <;> rfl

/-- Which blocks are targets does not depend on their lines. -/
theorem isTarget_congr {blocks blocks' : List Block}
    (h : blocks.map (fun b => (b.label, b.index)) = blocks'.map fun b => (b.label, b.index))
    (labels : List Text) {b b' : Block} (hb : b.index = b'.index) :
    isTarget labels blocks b = isTarget labels blocks' b' := by
  have hfind : ∀ (label : Text) (blocks : List Block),
      (blocks.find? (·.hasLabel label)).any (·.index == b.index) =
        ((blocks.map fun b => (b.label, b.index)).find? fun s =>
          hasLabel ⟨s.1, s.2, []⟩ label).any (·.2 == b.index) := by
    intro label blocks
    rw [List.find?_map, Option.any_map]
    rfl
  unfold isTarget
  simp only [hfind, h, ← hb]

end Block

namespace Container

variable {function : Text} {blocks blocks' : List Block}

private theorem blankLabel?_eq_some {label : Text} (h : blankLabel? label blocks = some blocks')
    (hindex : (blocks.map Block.index).Nodup) : ∃ found, blocks.find? (·.hasLabel label) = some found ∧
      blocks' = blocks.map fun b => b.blankIf (found.index == b.index) := by
  obtain ⟨cut, hcut, rfl⟩ := Option.map_eq_some_iff.mp h
  obtain ⟨happ, hread, hbefore⟩ := Cut.append_eq_of_first? hcut
  have hfound : cut.found.hasLabel label := by
    by_contra hnot
    rw [if_neg hnot] at hread
    cases hread
  have hfirst : ∀ b ∈ cut.before, b.hasLabel label = false := by
    intro b hb
    by_contra hlabel
    have hnone := hbefore b hb
    rw [if_pos (by simpa using hlabel)] at hnone
    cases hnone
  refine ⟨cut.found, ?_, ?_⟩
  · rw [← happ, List.find?_eq_some_iff_append]
    exact ⟨hfound, cut.before, cut.after, rfl, fun b hb => by rw [hfirst b hb]; rfl⟩
  · -- the other blocks have other positions
    rw [← happ, List.map_append, List.map_cons, List.nodup_append, List.nodup_cons] at hindex
    have hkeep : ∀ {l : List Block}, (∀ b ∈ l, cut.found.index ≠ b.index) →
        l.map (fun b => b.blankIf (cut.found.index == b.index)) = l := by
      intro l hne
      rw [List.map_congr_left fun b hb => by rw [beq_eq_false_iff_ne.mpr (hne b hb)]]
      exact List.map_id' l
    rw [← happ, List.map_append, List.map_cons, beq_self_eq_true,
      hkeep fun b hb he => hindex.2.2 _ (List.mem_map_of_mem hb) _ List.mem_cons_self he.symm,
      hkeep fun b hb he => hindex.2.1.1 (he ▸ List.mem_map_of_mem hb)]
    rfl

/-- **The targets are blanked, and all other blocks stay as they are.** -/
theorem blankLabels_eq_ok {labels : List Text} (h : blankLabels function labels blocks = .ok blocks')
    (hindex : (blocks.map Block.index).Nodup) :
    (∀ label ∈ labels, ∃ b ∈ blocks, b.hasLabel label) ∧
      blocks' = blocks.map fun b => b.blankIf (Block.isTarget labels blocks b) := by
  induction labels generalizing blocks with
  | nil =>
    obtain rfl := Except.ok.inj h
    exact ⟨fun label hlabel => (List.not_mem_nil hlabel).elim, (List.map_id' blocks).symm⟩
  | cons label labels ih =>
    rw [blankLabels] at h
    split at h
    · cases h
    · next next hnext =>
      obtain ⟨found, hfound, rfl⟩ := blankLabel?_eq_some hnext hindex
      have hsignature : (blocks.map fun b => b.blankIf (found.index == b.index)).map
          (fun b => (b.label, b.index)) = blocks.map fun b => (b.label, b.index) := by
        rw [List.map_map]
        exact List.map_congr_left fun b _ => by simp
      obtain ⟨hlabels, rfl⟩ := ih h (by simpa [List.map_map, Function.comp_def] using hindex)
      refine ⟨List.forall_mem_cons.mpr ⟨⟨found, List.mem_of_find?_eq_some hfound, ?_⟩, fun label hlabel => ?_⟩, ?_⟩
      · simpa using List.find?_some hfound
      · obtain ⟨b, hb, hlabel⟩ := hlabels label hlabel
        obtain ⟨b, hmem, rfl⟩ := List.mem_map.mp hb
        exact ⟨b, hmem, by simpa [Block.hasLabel] using hlabel⟩
      · rw [List.map_map]
        refine List.map_congr_left fun b _ => ?_
        have htarget : Block.isTarget (label :: labels) blocks b =
            (found.index == b.index || Block.isTarget labels blocks b) := by
          rw [Block.isTarget, List.any_cons, hfound]
          rfl
        rw [Function.comp_apply, Block.isTarget_congr hsignature labels (Block.index_blankIf _ b),
          Block.blankIf_blankIf, htarget]

end Container

end Freestanding
