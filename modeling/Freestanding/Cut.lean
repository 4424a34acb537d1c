/-!
# Cutting a list at the first match

A search that keeps its surroundings: the elements before the first one that can be read in a certain
way, what was read, and the elements after it.

## Main definitions

* `Cut` — a list around one of its elements.
* `Cut.first?` — the cut at the first element that a reader accepts.

## Main results

* `Cut.append_eq_of_first?` — a cut puts together to the list.
-/

namespace Freestanding

/-- A list cut around one of its elements. -/
structure Cut (α β : Type) where
  /-- The elements before. -/
  before : List α
  /-- The element. -/
  found : α
  /-- What was read off the element. -/
  reading : β
  /-- The elements after. -/
  after : List α

namespace Cut

variable {α β : Type}

/-- The cut at the first element that the reader accepts. -/
def first? (read : α → Option β) : List α → Option (Cut α β)
  | [] => none
  | a :: l =>
    match read a with
    | some b => some { before := [], found := a, reading := b, after := l }
    | none => (first? read l).map fun c => { c with before := a :: c.before }

/-- The parts of a cut make up the list, its element reads as recorded, and no earlier element can be
read. -/
theorem append_eq_of_first? {read : α → Option β} {l : List α} {c : Cut α β}
    (h : first? read l = some c) :
    c.before ++ c.found :: c.after = l ∧ read c.found = some c.reading ∧
      ∀ a ∈ c.before, read a = none := by
  induction l generalizing c with
  | nil => simp [first?] at h
  | cons a l ih =>
    unfold first? at h
    split at h
    · rename_i b hb
      cases h
      simp [hb]
    · rename_i hb
      obtain ⟨d, hd, rfl⟩ := Option.map_eq_some_iff.mp h
      obtain ⟨happ, hread, hbefore⟩ := ih hd
      refine ⟨by simp [happ], hread, ?_⟩
      simpa [hb] using hbefore

/-- There is no cut exactly if the reader accepts no element. -/
theorem first?_eq_none_iff {read : α → Option β} {l : List α} :
    first? read l = none ↔ ∀ a ∈ l, read a = none := by
  induction l with
  | nil => simp [first?]
  | cons a l ih =>
    unfold first?
    split
    · rename_i b hb
      simp [hb]
    · rename_i hb
      simp [hb, ih]

end Cut

end Freestanding
