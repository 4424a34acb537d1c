import Freestanding.Proofs.Container.Blanking
import Mathlib.Data.List.Basic

/-!
# A body as the sequence of its blocks

A line of a body belongs to the block whose number is the count of label lines up to that line, the line
itself included.  Cutting a body into blocks sorts its lines by this number: the first block has the lines
before all labels, and every later one starts with its label line and has no other.  Blocks that are blanked
take their lines with them, and all other lines stay in their order.

## Main definitions

* `Block.owner` — the number of the block to which a line belongs.
* `Block.linesOf` — the lines of the blocks with certain numbers.
* `Block.Headed` — a block that starts with its label line.
* `Block.Partition` — blocks that make up a body.

## Main results

* `Block.splitFrom_eq` — the first block that is cut off, and those behind it.
* `Block.flatMap_numbered_split` — the lines of the blocks are the lines of the body, under the same numbers.
* `Block.split_partition` — **the blocks of a body make it up.**
-/

namespace Freestanding.Block

/-! ### Lines and their blocks -/

/-- The number of the block to which the line at a position belongs. -/
def owner (lines : List Text) (position : Nat) : Nat :=
  (lines.take (position + 1)).countP fun line => (label? line).isSome

/-- The lines of the blocks whose numbers are wanted, in order. -/
def linesOf (wanted : Nat → Bool) (lines : List Text) : List Text :=
  (lines.zipIdx.filter fun x => wanted (owner lines x.2)).map Prod.fst

/-- The lines of a block, each with the number of the block. -/
def numbered (b : Block) : List (Text × Nat) :=
  b.lines.map (·, b.index)

theorem owner_cons_zero (line : Text) (rest : List Text) :
    owner (line :: rest) 0 = if (label? line).isSome then 1 else 0 := by
  simp [owner]

theorem owner_cons_succ (line : Text) (rest : List Text) (position : Nat) :
    owner (line :: rest) (position + 1) = owner rest position + if (label? line).isSome then 1 else 0 := by
  rw [owner, List.take_succ_cons, List.countP_cons]
  rfl

/-- The lines of the blocks under way are numbered from the number of the first one. -/
theorem flatMap_numbered_splitFrom (block : Block) (rest : List Text) :
    (splitFrom block rest).flatMap numbered =
      block.lines.reverse.map (·, block.index) ++
        rest.zipIdx.map fun x => (x.1, block.index + owner rest x.2) := by
  induction rest generalizing block with
  | nil => simp [numbered]
  | cons line rest ih =>
    have hshift : ∀ n, (rest.zipIdx 1).map (fun x => (x.1, n + owner (line :: rest) x.2)) =
        rest.zipIdx.map fun x => (x.1, (n + if (label? line).isSome then 1 else 0) + owner rest x.2) := by
      intro n
      rw [List.zipIdx_succ, List.map_map]
      refine List.map_congr_left fun x _ => ?_
      show (x.1, n + owner (line :: rest) (x.2 + 1)) = _
      rw [owner_cons_succ, Nat.add_comm (owner rest x.2), Nat.add_assoc]
    rw [List.zipIdx_cons, List.map_cons, Nat.zero_add, hshift, owner_cons_zero]
    cases hlabel : label? line with
    | some label =>
      -- the line opens the next block
      rw [splitFrom_cons_of_label block hlabel, List.flatMap_cons, ih]
      rfl
    | none =>
      -- the line goes to the block under way
      rw [splitFrom_cons_of_no_label block hlabel, ih, List.reverse_cons, List.map_append, List.append_assoc]
      rfl

/-- **The lines of the blocks are the lines of the body, under the same numbers.** -/
theorem flatMap_numbered_split (body : Text) :
    (split body).flatMap numbered = body.lines.zipIdx.map fun x => (x.1, owner body.lines x.2) := by
  rw [split, flatMap_numbered_splitFrom]
  simp

/-- The lines of the blocks that are wanted. -/
theorem flatMap_lines_of_wanted (body : Text) (wanted : Nat → Bool) :
    (split body).flatMap (fun b => if wanted b.index then b.lines else []) = linesOf wanted body.lines := by
  have hblock : ∀ b : Block, (b.numbered.filter fun x => wanted x.2).map Prod.fst =
      if wanted b.index then b.lines else [] := by
    intro b
    rw [numbered, List.filter_map, List.map_map]
    cases hb : wanted b.index <;> simp [Function.comp_def, hb]
  calc (split body).flatMap (fun b => if wanted b.index then b.lines else [])
      = (((split body).flatMap numbered).filter fun x => wanted x.2).map Prod.fst := by
        rw [List.filter_flatMap, List.map_flatMap]
        exact List.flatMap_congr fun b _ => (hblock b).symm
    _ = linesOf wanted body.lines := by
        rw [flatMap_numbered_split, List.filter_map, List.map_map]
        rfl

/-! ### Labels and positions -/

/-- The block starts with the line of its label, and has no other label line. -/
def Headed (b : Block) : Prop :=
  ∃ line rest label, b.lines = line :: rest ∧ label? line = some label ∧ b.label = some label ∧
    ∀ l ∈ rest, label? l = none

/-- **The block under way takes the lines up to the next label**, and the blocks behind it start with their
labels. -/
theorem splitFrom_eq (block : Block) (rest : List Text) :
    ∃ more later, splitFrom block rest = { block with lines := block.lines.reverse ++ more } :: later ∧
      (∀ l ∈ more, label? l = none) ∧ ∀ b ∈ later, Headed b := by
  induction rest generalizing block with
  | nil => exact ⟨[], [], by simp, by simp, by simp⟩
  | cons line rest ih =>
    cases hlabel : label? line with
    | some label =>
      obtain ⟨more, later, hnext, hmore, hlater⟩ :=
        ih { label := some label, index := block.index + 1, lines := [line] }
      refine ⟨[], _, by rw [splitFrom_cons_of_label block hlabel, List.append_nil], by simp, ?_⟩
      rw [hnext]
      exact List.forall_mem_cons.mpr ⟨⟨line, more, label, rfl, hlabel, rfl, hmore⟩, hlater⟩
    | none =>
      obtain ⟨more, later, hnext, hmore, hlater⟩ := ih { block with lines := line :: block.lines }
      refine ⟨line :: more, later, ?_, List.forall_mem_cons.mpr ⟨hlabel, hmore⟩, hlater⟩
      rw [splitFrom_cons_of_no_label block hlabel, hnext]
      simp

private theorem index_of_getElem?_splitFrom (block : Block) {b : Block} {rest : List Text} {i : Nat}
    (h : (splitFrom block rest)[i]? = some b) : b.index = block.index + i := by
  induction rest generalizing block i with
  | nil =>
    obtain ⟨rfl, rfl⟩ : i = 0 ∧ { block with lines := block.lines.reverse } = b := by
      simpa [List.getElem?_singleton] using h
    rfl
  | cons line rest ih =>
    cases hlabel : label? line with
    | some label =>
      rw [splitFrom_cons_of_label block hlabel] at h
      cases i with
      | zero =>
        rw [← Option.some.inj h]
        rfl
      | succ i =>
        have hi : b.index = block.index + 1 + i := ih _ h
        omega
    | none =>
      rw [splitFrom_cons_of_no_label block hlabel] at h
      exact ih { block with lines := line :: block.lines } h

/-- Blocks know their positions. -/
theorem index_of_getElem?_split {body : Text} {b : Block} {i : Nat} (h : (split body)[i]? = some b) :
    b.index = i :=
  (index_of_getElem?_splitFrom _ h).trans (Nat.zero_add i)

/-- A block has the lines that belong to it, because no other has its position. -/
theorem lines_of_getElem?_split {body : Text} {b : Block} {i : Nat} (h : (split body)[i]? = some b) :
    b.lines = linesOf (· == i) body.lines := by
  obtain ⟨before, after, hsplit⟩ := List.append_of_mem (List.mem_of_getElem? h)
  have hindex := (index_splitFrom { label := none, index := 0, lines := [] } body.lines).2
  rw [← split, hsplit, List.pairwise_append, List.pairwise_cons] at hindex
  have hnone : ∀ l : List Block, (∀ c ∈ l, c.index ≠ b.index) →
      l.flatMap (fun c => if c.index == b.index then c.lines else []) = [] := by
    intro l hne
    exact List.flatMap_eq_nil_iff.mpr fun c hc => if_neg (by simpa using hne c hc)
  have hbefore := hnone before fun c hc => Nat.ne_of_lt (hindex.2.2 c hc b List.mem_cons_self)
  have hafter := hnone after fun c hc => (Nat.ne_of_lt (hindex.2.1.1 c hc)).symm
  rw [← index_of_getElem?_split h, ← flatMap_lines_of_wanted, hsplit, List.flatMap_append, List.flatMap_cons,
    hbefore, hafter, beq_self_eq_true, if_pos rfl, List.append_nil, List.nil_append]

/-- What is done to blocks by their positions is done by their own numbers. -/
theorem mapIdx_split {α : Type} (f : Nat → Block → α) (body : Text) :
    (split body).mapIdx f = (split body).map fun b => f b.index b := by
  refine List.ext_getElem? fun i => ?_
  rw [List.getElem?_mapIdx, List.getElem?_map]
  cases h : (split body)[i]? with
  | none => rfl
  | some b => rw [Option.map_some, Option.map_some, index_of_getElem?_split h]

/-! ### The partition -/

/-- The blocks make up the body. -/
structure Partition (body : Text) (blocks : List Block) : Prop where
  /-- There is a first block, without a label. -/
  first : ∃ b, blocks[0]? = some b ∧ b.label = none ∧ ∀ l ∈ b.lines, label? l = none
  /-- Each later block starts with the line of its label, and no other line of it is a label line. -/
  later : ∀ (i : Nat) (b : Block), blocks[i + 1]? = some b → Headed b
  /-- Each block knows its position. -/
  index_eq : ∀ (i : Nat) (b : Block), blocks[i]? = some b → b.index = i
  /-- It has the lines of the body that belong to it. -/
  lines_eq : ∀ (i : Nat) (b : Block), blocks[i]? = some b → b.lines = linesOf (· == i) body.lines
  /-- If some blocks are blanked, the lines of the others are left in their order. -/
  join_blanked : ∀ blanked : Nat → Bool,
    join (blocks.mapIdx fun i (b : Block) => if blanked i then b.blank else b) =
      Text.unlines (linesOf (!blanked ·) body.lines)
  /-- If none is blanked, the body is left. -/
  join_eq : join blocks = body

/-- **The blocks of a body make it up.** -/
theorem split_partition (body : Text) : Partition body (split body) where
  first := by
    obtain ⟨more, later, hsplit, hmore, -⟩ := splitFrom_eq { label := none, index := 0, lines := [] } body.lines
    exact ⟨_, by rw [split, hsplit]; rfl, rfl, hmore⟩
  later i b hb := by
    obtain ⟨more, later, hsplit, -, hlater⟩ := splitFrom_eq { label := none, index := 0, lines := [] } body.lines
    rw [split, hsplit, List.getElem?_cons_succ] at hb
    exact hlater b (List.mem_of_getElem? hb)
  index_eq _ _ := index_of_getElem?_split
  lines_eq _ _ := lines_of_getElem?_split
  join_blanked blanked := by
    rw [mapIdx_split, join, List.flatMap_map, ← flatMap_lines_of_wanted]
    refine congrArg Text.unlines (List.flatMap_congr fun b _ => ?_)
    cases blanked b.index <;> rfl
  join_eq := join_split body

/-- A label ends the block before it, with quotes or without; a colon further to the right does not. -/
example : split (Text.unlines ["", "  br label %L1", "L1:", "  ret void ; so: it ends", "\"a b\":", ""]) =
    [⟨none, 0, ["", "  br label %L1"]⟩, ⟨some "L1", 1, ["L1:", "  ret void ; so: it ends"]⟩,
      ⟨some "a b", 2, ["\"a b\":", ""]⟩] := by
  decide +kernel

end Freestanding.Block
