import Freestanding.Proofs.Collector.Residue
import Freestanding.Region

/-!
# Comments and quoted semicolons

A semicolon starts a comment, unless it stands in a quoted name.  Where regions are matched this is
observed, but residue is searched up to the first semicolon of a line only, quoted or not.  So of the
places in the code of a line where residue begins those count that no quoted semicolon precedes: what
stands behind one is taken for a comment, and a text with residue there is found to be self-contained.

## Main definitions

* `Line.uncommented` — a line without its comment, where quoted semicolons start none.

## Main results

* `Line.code_eq` — what is searched is the uncommented line up to its first semicolon.
* `Residue.isSelfContained_eq_false_iff` — **residue is found exactly if it begins in the code of a line
  before all quoted semicolons.**
* `Residue.quotedSemicolon_isSelfContained` — a line with residue that is not found.
-/

namespace Freestanding

/-! ### Lines without comments -/

namespace Line

/-- A text up to the semicolon that starts a comment, where the text goes on in a mode. -/
def uncommentedFrom : Region.Mode → Text → Text
  | _, [] => []
  | mode, c :: t => if mode.next c = .comment then [] else c :: uncommentedFrom (mode.next c) t

/-- A line without its comment. -/
def uncommented (line : Text) : Text :=
  uncommentedFrom .code line

private theorem takeWhile_uncommentedFrom {mode : Region.Mode} (hmode : mode ≠ .comment) (t : Text) :
    (uncommentedFrom mode t).takeWhile (· != ';') = t.takeWhile (· != ';') := by
  induction t generalizing mode with
  | nil => rfl
  | cons c t ih =>
    rw [uncommentedFrom]
    split
    · next hnext =>
      -- only a semicolon starts a comment
      obtain rfl : c = ';' := by
        cases mode with
        | code =>
          by_contra hc
          simp only [Region.Mode.next, if_neg hc] at hnext
          split at hnext <;> cases hnext
        | quoted =>
          rw [Region.Mode.next] at hnext
          split at hnext <;> cases hnext
        | comment => exact absurd rfl hmode
      rfl
    · next hnext => rw [List.takeWhile_cons, List.takeWhile_cons, ih hnext]

/-- **What is searched for residue** is the uncommented line up to its first semicolon. -/
theorem code_eq (line : Text) : code line = (uncommented line).takeWhile (· != ';') :=
  (takeWhile_uncommentedFrom (by decide) line).symm

end Line

/-! ### Residue -/

namespace Residue

/-- A semicolon behind the place where residue begins does not matter. -/
theorem begins_takeWhile (t : Text) : begins (t.takeWhile (· != ';')) = begins t := by
  by_cases hmem : ';' ∈ t
  · obtain ⟨u, rest, rfl, hu⟩ := List.eq_append_cons_of_mem hmem
    have hcode : ∀ c ∈ u, (c != ';') = true := fun c hc => bne_iff_ne.mpr fun he => hu (he ▸ hc)
    have htake : (u ++ ';' :: rest).takeWhile (· != ';') = u := by
      rw [List.takeWhile_append_of_pos hcode]
      simp
    rw [htake]
    cases u with
    | nil => rfl
    | cons c u => exact (begins_append_tail c u (.stop rest (by decide))).symm
  · have hcode : ∀ c ∈ t, (c != ';') = true := fun c hc => bne_iff_ne.mpr fun he => hmem (he ▸ hc)
    rw [List.takeWhile_eq_self_iff.mpr hcode]

/-- Residue of a line begins in its code before all semicolons. -/
theorem isSome_ofLine?_iff (line : Text) : (ofLine? line).isSome ↔
    ∃ before after, Line.uncommented line = before ++ after ∧ begins after ∧ ';' ∉ before := by
  have hcode : ∀ {before : Text}, ';' ∉ before → ∀ c ∈ before, (c != ';') = true :=
    fun hbefore c hc => bne_iff_ne.mpr fun he => hbefore (he ▸ hc)
  rw [ofLine?, isSome_ofCode?_iff, Line.code_eq]
  constructor
  · rintro ⟨before, after, he, hbegins⟩
    obtain ⟨rest, hrest⟩ := List.takeWhile_prefix (p := (· != ';')) (l := Line.uncommented line)
    rw [he, List.append_assoc] at hrest
    have hbefore : ';' ∉ before := by
      intro hmem
      have hnot := List.mem_takeWhile_imp (he ▸ List.mem_append_left after hmem)
      simp at hnot
    have hafter : (after ++ rest).takeWhile (· != ';') = after := by
      rw [← hrest, List.takeWhile_append_of_pos (hcode hbefore)] at he
      exact List.append_cancel_left he
    refine ⟨before, after ++ rest, hrest.symm, ?_, hbefore⟩
    rw [← begins_takeWhile, hafter]
    exact hbegins
  · rintro ⟨before, after, he, hbegins, hbefore⟩
    refine ⟨before, after.takeWhile (· != ';'), ?_, (begins_takeWhile after).trans hbegins⟩
    rw [he, List.takeWhile_append_of_pos (hcode hbefore)]

/-- **Residue is found exactly if it begins before all quoted semicolons**: at some place in a line, its
comment left out, that no semicolon precedes. -/
theorem isSelfContained_eq_false_iff (t : Text) : isSelfContained t = false ↔
    ∃ line ∈ t.lines, ∃ before after,
      Line.uncommented line = before ++ after ∧ begins after ∧ ';' ∉ before := by
  have hfound : isSelfContained t = false ↔ ∃ line ∈ t.printedLines, (ofLine? line).isSome := by
    rw [isSelfContained, ofText?, ← Option.not_isSome, Bool.not_eq_false', List.findSome?_isSome_iff]
  rw [hfound, exists_mem_printedLines_iff]
  simp only [isSome_ofLine?_iff]

/-- A line that stores to an address of the host, behind a name with a semicolon. -/
def quotedSemicolon : Text :=
  "  store ptr %\"a;b\", ptr inttoptr (i64 4096 to ptr)"

/-- The address is part of the code of the line, but the line is found to be self-contained. -/
theorem quotedSemicolon_isSelfContained :
    (∃ line ∈ quotedSemicolon.lines, ∃ before after,
      Line.uncommented line = before ++ after ∧ begins after) ∧
      isSelfContained quotedSemicolon = true := by
  refine ⟨⟨quotedSemicolon, by decide +kernel, "  store ptr %\"a;b\", ptr ",
    "inttoptr (i64 4096 to ptr)", by decide +kernel, by decide +kernel⟩, by decide +kernel⟩

end Residue

end Freestanding
