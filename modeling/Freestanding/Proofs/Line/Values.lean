import Freestanding.Line
import Freestanding.Proofs.Listing.Reread
import Freestanding.Proofs.Name.Quoting

/-!
# The values that lines assign

A line assigns a value if the text before its first equals sign, which stands between blanks, is one
token of a local value and nothing else.  This module says the same of the parts of the line, in both
directions, and how such a token is spelled.

## Main definitions

* `Token.IsValue` — a text is one local value.

## Main results

* `Token.IsValue.read?_append` — a local value is read again where nothing continues it.
* `Name.quote_notMem_bare` — the name of a local value holds no quotes.
* `Line.exists_of_assigned?` — the parts of a line that assigns a value.
* `Line.assigned?_stripReturn` — line ends do not matter.
-/

namespace Freestanding

namespace Token

/-! ### Local values -/

variable {token rest t : Text}

/-- The text is one local value. -/
def IsValue (token : Text) : Prop :=
  read? '%' token = some (token, [])

instance (token : Text) : Decidable (IsValue token) :=
  inferInstanceAs (Decidable (_ = _))

theorem isValue_of_read? (h : read? '%' t = some (token, rest)) : IsValue token := by
  obtain ⟨-, u, name, rfl, hspells⟩ := exists_spells_of_read? h
  have hread : read? '%' ('%' :: u ++ []) = some ('%' :: u, []) :=
    hspells.read?_sigil_append fun c hc => by cases hc
  rwa [List.append_nil] at hread

theorem IsValue.exists_spells (h : IsValue token) :
    ∃ u name, token = '%' :: u ∧ Spells ('@' :: u) name :=
  (exists_spells_of_read? h).2

/-- **A value is read again**, unless the text behind it continues a bare name. -/
theorem IsValue.read?_append (h : IsValue token)
    (hrest : ∀ c, rest.head? = some c → isNameChar c = false) :
    read? '%' (token ++ rest) = some (token, rest) := by
  obtain ⟨u, name, rfl, hspells⟩ := h.exists_spells
  exact hspells.read?_sigil_append hrest

end Token

/-! ### Names of values -/

namespace Name

private theorem bare_sigil (u : Text) : bare ('%' :: u) = bare ('@' :: u) := rfl

/-- The name of a value does not hold quotes. -/
theorem quote_notMem_bare {token : Text} (h : Token.IsValue token) : '"' ∉ bare token := by
  obtain ⟨u, name, rfl, hspells⟩ := h.exists_spells
  rw [bare_sigil, hspells.bare_eq]
  exact hspells.quote_notMem

end Name

/-! ### Assignments -/

namespace Line

variable {line value : Text}

theorem assigned?_eq_some_iff : assigned? line = some value ↔
    Token.IsValue value ∧ ∃ left rest, Text.cutAt? " = " line.trimStart = some (left, rest) ∧
      left.trim = value := by
  unfold assigned?
  rw [Option.bind_eq_bind, Option.bind_eq_some_iff]
  constructor
  · rintro ⟨⟨left, rest⟩, hcut, h⟩
    dsimp only at h
    split at h
    · next token hread =>
      obtain rfl : token = value := Option.some.inj h
      have he : token = left.trim := by simpa using (Token.append_eq_of_read? hread).1
      exact ⟨Token.isValue_of_read? hread, left, rest, hcut, he.symm⟩
    · cases h
  · rintro ⟨hvalue, left, rest, hcut, rfl⟩
    refine ⟨(left, rest), hcut, ?_⟩
    dsimp only
    rw [hvalue]

theorem isValue_of_assigned? (h : assigned? line = some value) : Token.IsValue value :=
  (assigned?_eq_some_iff.mp h).1

/-- **The parts of a line that assigns a value**: the value stands behind the blanks at the start, more
blanks may follow it, and the equals sign behind them is the first one. -/
theorem exists_of_assigned? (h : assigned? line = some value) :
    ∃ blanks rest, line = line.takeWhile Text.isBlank ++ (value ++ (blanks ++ (" = " ++ rest))) ∧
      ∀ c ∈ blanks, Text.isBlank c := by
  obtain ⟨-, left, rest, hcut, htrim⟩ := assigned?_eq_some_iff.mp h
  obtain ⟨hline, -⟩ := Text.cutAt?_eq_some_iff.mp hcut
  -- the line starts with no blank any more, so blanks are only trimmed at the end
  have hleft : left.trimStart = left := by
    refine Text.dropWhile_eq_self fun c hc => Text.head?_trimStart line c ?_
    rw [hline, List.head?_append, hc]
    rfl
  obtain ⟨blanks, hsplit, hblanks⟩ := Text.exists_trimEnd_append left
  have hvalue' : left.trimEnd = value := by
    rw [← htrim, Text.trim, hleft]
  rw [hvalue'] at hsplit
  refine ⟨blanks, rest, ?_, hblanks⟩
  rw [← List.append_assoc value, ← hsplit, ← hline]
  exact List.takeWhile_append_dropWhile.symm

theorem head?_of_isValue (h : Token.IsValue value) : ∃ u, value = '%' :: u := by
  obtain ⟨u, -, rfl, -⟩ := h.exists_spells
  exact ⟨u, rfl⟩

/-- The value that a line assigns is a part of it. -/
theorem value_of_assigned? (h : assigned? line = some value) : value <:+: line := by
  obtain ⟨blanks, rest, hline, -⟩ := exists_of_assigned? h
  exact ⟨line.takeWhile Text.isBlank, blanks ++ (" = " ++ rest), by rw [List.append_assoc, ← hline]⟩

/-- A carriage return at the end of a line does not matter. -/
theorem assigned?_stripReturn (line : Text) : assigned? (Text.stripReturn line) = assigned? line := by
  rw [Text.stripReturn]
  split
  · next hlast =>
    obtain ⟨line, rfl⟩ := List.getLast?_eq_some_iff.mp hlast
    rw [List.dropLast_concat]
    by_cases hblank : ∀ c ∈ line, Text.isBlank c
    · have hall : ∀ c ∈ line ++ ['\r'], Text.isBlank c := by
        intro c hc
        rcases List.mem_append.mp hc with hc | hc
        · exact hblank c hc
        · rw [List.mem_singleton.mp hc]
          decide
      rw [assigned?, assigned?, Text.trimStart, Text.trimStart, List.dropWhile_eq_nil_iff.mpr hblank,
        List.dropWhile_eq_nil_iff.mpr hall]
    · have hstart : Text.trimStart (line ++ ['\r']) = Text.trimStart line ++ ['\r'] := by
        refine List.dropWhile_append.trans (if_neg ?_)
        rw [List.isEmpty_iff, List.dropWhile_eq_nil_iff]
        exact hblank
      rw [assigned?, assigned?, hstart, Text.cutAt?_append (by decide)]
      cases Text.cutAt? " = " (Text.trimStart line) with
      | none => rfl
      | some cut => rfl
  · rfl

end Line

end Freestanding
