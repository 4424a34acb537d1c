import Freestanding.Proofs.Name.Plain

/-!
# When two names become one

The output name of a member of a scope is made of the names on the way to it, with underscores between
them and in place of every character that is not plain.  What is left of the names are words: the runs
of letters, digits and dots.  Their sequence determines the output name and can be read off it, so two
members have the same output name if and only if they have the same words.

## Main definitions

* `Name.words` — the words of a name.
* `ScopePath.words` — the words of a member of a scope.

## Main results

* `ScopePath.mangle_eq_iff` — **members with the same output name are members with the same words.**
* `Name.symbol_injective` — different output names give different symbols.
-/

namespace Freestanding

namespace Name

/-- A character that can stand in a word: a letter, a digit or a dot. -/
def isWordChar (c : Char) : Bool :=
  c.isAlphanum || c == '.'

/-- The words of a name: what lies between the other characters, empty words included. -/
def words (name : Text) : List Text :=
  name.splitOnP fun c => !isWordChar c

/-- Words are what lies between the underscores of the sanitised name. -/
theorem splitOn_sanitize (name : Text) : (sanitize name).splitOn '_' = words name := by
  induction name with
  | nil => rfl
  | cons c name ih =>
    have hcons : sanitize (c :: name) = (if isPlain c then c else '_') :: sanitize name := rfl
    rw [hcons, List.splitOn_cons_eq_if_modifyHead, ih, words, words, List.splitOnP_cons_eq_if_modifyHead]
    by_cases hc : isWordChar c
    · -- a word character is plain, and it is no underscore
      have hplain : isPlain c := by
        rw [isWordChar, Bool.or_eq_true] at hc
        rcases hc with hc | hc <;> simp [isPlain, hc]
      have hne : (c == '_') = false := by
        rw [beq_eq_false_iff_ne]
        rintro rfl
        exact absurd hc (by decide)
      rw [if_pos hplain, hne, hc]
      rfl
    · have hunder : (if isPlain c then c else '_') = '_' := by
        by_cases hplain : isPlain c
        · simp only [isWordChar, Bool.or_eq_true, not_or] at hc
          have : c = '_' := by simpa [isPlain, hc.1, hc.2] using hplain
          rw [this, ite_self]
        · rw [if_neg hplain]
      rw [hunder, Bool.eq_false_of_not_eq_true hc]
      rfl

theorem words_eq_singleton {name : Text} (h : ∀ c ∈ name, isWordChar c) : words name = [name] :=
  List.splitOnP_eq_singleton fun c hc => by simp [h c hc]

/-- Different names have different symbols. -/
theorem symbol_injective : Function.Injective symbol := by
  have hquote : ∀ name rest : Text, isIdentifier name → name ≠ '"' :: rest := by
    rintro _ rest h rfl
    exact absurd h (by simp [isIdentifier, show Token.isNameChar '"' = false from rfl])
  intro name name' h
  simp only [symbol, write] at h
  split at h <;> split at h
  · exact (List.cons.inj h).2
  · next hid _ => exact absurd (List.cons.inj h).2 (hquote _ _ hid)
  · next hid => exact absurd (List.cons.inj h).2.symm (hquote _ _ hid)
  · exact List.append_cancel_right (List.cons.inj (List.cons.inj h).2).2

end Name

namespace ScopePath

open Name

/-- The words of a member of a scope: those of the names on the way, and its own.  A nameless root counts
for nothing. -/
def words (p : ScopePath) (name : Text) : List Text :=
  (if p = [[]] then [] else p.flatMap Name.words) ++ Name.words name

/-- Texts with underscores between them, cut at all underscores. -/
theorem splitOn_intercalate_flatMap {ts : List Text} (h : ts ≠ []) :
    (['_'].intercalate ts).splitOn '_' = ts.flatMap (List.splitOn '_') := by
  induction ts with
  | nil => exact absurd rfl h
  | cons t ts ih =>
    cases ts with
    | nil => simp
    | cons t' ts =>
      rw [List.intercalate_cons_cons, List.append_assoc, List.singleton_append,
        List.splitOn_append_cons_self, ih (by simp), ← List.flatMap_cons]

theorem stem_eq_nil_iff (p : ScopePath) : p.stem = [] ↔ p = [] ∨ p = [[]] := by
  rw [stem]
  match p with
  | [] => simp
  | [name] => simp [sanitize]
  | name :: name' :: rest => simp [List.intercalate_cons_cons]

/-- **The words of a member can be read off its output name.** -/
theorem splitOn_mangle (p : ScopePath) (name : Text) :
    (p.mangle name).splitOn '_' = p.words name := by
  have hempty := p.stem_eq_nil_iff
  rw [mangle, words]
  split
  · next hstem =>
    rw [splitOn_sanitize]
    rcases hempty.mp (List.isEmpty_iff.mp hstem) with rfl | rfl <;> rfl
  · next hstem =>
    have hne : p ≠ [] ∧ p ≠ [[]] := not_or.mp fun h => hstem (List.isEmpty_iff.mpr (hempty.mpr h))
    rw [List.splitOn_append_cons_self, splitOn_sanitize, if_neg hne.2, stem,
      splitOn_intercalate_flatMap (by simpa using hne.1), List.flatMap_map]
    simp only [splitOn_sanitize]

/-- **Members with the same output name are members with the same words.** -/
theorem mangle_eq_iff {p p' : ScopePath} {name name' : Text} :
    p.mangle name = p'.mangle name' ↔ p.words name = p'.words name' := by
  rw [← splitOn_mangle, ← splitOn_mangle]
  constructor
  · exact congrArg (List.splitOn '_')
  · intro h
    calc p.mangle name = ['_'].intercalate ((p.mangle name).splitOn '_') :=
          (List.intercalate_splitOn '_').symm
      _ = ['_'].intercalate ((p'.mangle name').splitOn '_') := by rw [h]
      _ = p'.mangle name' := List.intercalate_splitOn '_'

end ScopePath

end Freestanding
