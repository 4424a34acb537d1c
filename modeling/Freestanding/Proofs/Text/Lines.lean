import Freestanding.Text.Basic
import Mathlib.Data.List.TakeWhile

/-!
# Lines of a text, and blanks at its ends

Lines hold no line feeds, and texts are the same thing as lists of lines: what is made up of lines falls
apart into them again.  Trimming takes blanks off both ends of a text and leaves nothing to trim.

## Main results

* `Text.lines_unlines`, `Text.mem_lines_unlines` — the lines of a text that is made up of lines.
* `Text.lines_induction` — a text is one line, or a line and a text.
* `Text.filterMap_printedLines` — what is looked for line by line.
* `Text.trim_eq_self`, `Text.trim_trim` — trimming.
-/

namespace Freestanding.Text

/-! ### Lines -/

theorem lines_of_notMem {t : Text} (h : '\n' ∉ t) : t.lines = [t] :=
  List.splitOn_eq_singleton h

@[simp] theorem lines_append (a b : Text) : (a ++ '\n' :: b).lines = a.lines ++ b.lines :=
  List.splitOn_append_cons_self a b

/-- A text is one line, or a line, a line feed and a text. -/
theorem lines_induction {P : Text → Prop} (last : ∀ t : Text, '\n' ∉ t → P t)
    (cons : ∀ a b : Text, '\n' ∉ a → P b → P (a ++ '\n' :: b)) (t : Text) : P t := by
  induction hn : t.length using Nat.strongRecOn generalizing t with
  | ind n ih =>
    by_cases hmem : '\n' ∈ t
    · obtain ⟨a, b, rfl, ha⟩ := List.eq_append_cons_of_mem hmem
      refine cons a b ha (ih b.length ?_ b rfl)
      rw [← hn, List.length_append, List.length_cons]
      omega
    · exact last t hmem

theorem notMem_of_mem_lines {t line : Text} (h : line ∈ t.lines) : '\n' ∉ line := by
  rw [lines] at h
  induction t generalizing line with
  | nil =>
    rw [List.splitOn_nil, List.mem_singleton] at h
    rw [h]
    exact List.not_mem_nil
  | cons c t ih =>
    rw [List.splitOn_cons_eq_if_modifyHead] at h
    split at h
    · rcases List.mem_cons.mp h with rfl | h
      · exact List.not_mem_nil
      · exact ih h
    · next hc =>
      obtain ⟨first, rest, hs⟩ := List.exists_cons_of_ne_nil (List.splitOn_ne_nil '\n' t)
      rw [hs] at h ih
      rcases List.mem_cons.mp h with rfl | h
      · intro hm
        rcases List.mem_cons.mp hm with he | hm
        · exact hc (by simp [← he])
        · exact ih List.mem_cons_self hm
      · exact ih (List.mem_cons_of_mem _ h)

theorem notMem_of_mem_printedLines {t line : Text} (h : line ∈ t.printedLines) : '\n' ∉ line := by
  have hended : ∀ line ∈ t.lines.dropLast.map stripReturn, '\n' ∉ line := by
    intro line hline
    obtain ⟨full, hfull, rfl⟩ := List.mem_map.mp hline
    have hnot := notMem_of_mem_lines (List.dropLast_subset _ hfull)
    rw [stripReturn]
    split
    · exact fun hm => hnot (List.dropLast_subset _ hm)
    · exact hnot
  rw [printedLines] at h
  split at h
  · next c cs hlast =>
    rcases List.mem_append.mp h with h | h
    · exact hended line h
    · rw [List.mem_singleton.mp h]
      exact notMem_of_mem_lines (List.mem_of_getLast? hlast)
  · exact hended line h

theorem printedLines_ne_nil {t : Text} (h : t ≠ []) : t.printedLines ≠ [] := by
  intro hnil
  cases hlast : t.lines.getLast? with
  | none => exact List.splitOn_ne_nil '\n' t (List.getLast?_eq_none_iff.mp hlast)
  | some line =>
    obtain ⟨front, hlines⟩ := List.getLast?_eq_some_iff.mp hlast
    rw [printedLines, hlast] at hnil
    cases line with
    | cons c cs => exact absurd hnil (by simp)
    | nil =>
      -- all that is left is one empty line, and that is the empty text
      have hfront : front = [] := by simpa [hlines] using hnil
      rw [hfront] at hlines
      apply h
      rw [← unlines_lines t, hlines]
      rfl

/-- Lines without line feeds are the lines of what they make up. -/
theorem lines_unlines {ls : List Text} (hne : ls ≠ []) (h : ls.all fun line => line.all (· != '\n')) :
    lines (unlines ls) = ls := by
  refine List.splitOn_intercalate '\n' (fun line hline hmem => ?_) hne
  simpa using List.all_eq_true.mp (List.all_eq_true.mp h line hline) '\n' hmem

theorem mem_lines_unlines {ls : List Text} (h : ∀ l ∈ ls, '\n' ∉ l) {line : Text}
    (hline : line ∈ lines (unlines ls)) : line ∈ ls ∨ line = [] := by
  cases ls with
  | nil => exact Or.inr (List.mem_singleton.mp hline)
  | cons l ls =>
    left
    unfold lines unlines at hline
    rwa [List.splitOn_intercalate '\n' h (List.cons_ne_nil l ls)] at hline

/-- A line of a text is the first one, or follows a line break. -/
theorem unlines_eq_of_mem {ls : List Text} {line : Text} (h : line ∈ ls) :
    ∃ before after, unlines ls = before ++ line ++ after ∧
      (before = [] ∧ ls.head? = some line ∨ ∃ rest, before = rest ++ ['\n']) := by
  induction ls with
  | nil => cases h
  | cons l ls ih =>
    rcases List.mem_cons.mp h with rfl | h
    · cases ls with
      | nil => exact ⟨[], [], by simp [unlines], .inl ⟨rfl, rfl⟩⟩
      | cons next ls =>
        exact ⟨[], '\n' :: unlines (next :: ls), by simp [unlines], .inl ⟨rfl, rfl⟩⟩
    · obtain ⟨before, after, heq, hbefore⟩ := ih h
      obtain ⟨next, ls, rfl⟩ := List.exists_cons_of_ne_nil (List.ne_nil_of_mem h)
      have hcons : unlines (l :: next :: ls) = l ++ '\n' :: unlines (next :: ls) := by
        simp [unlines]
      refine ⟨l ++ '\n' :: before, after, by simp [hcons, heq], .inr ?_⟩
      rcases hbefore with ⟨rfl, -⟩ | ⟨rest, rfl⟩
      · exact ⟨l, rfl⟩
      · exact ⟨l ++ '\n' :: rest, by simp⟩

/-- The pieces between separators are parts of the text. -/
theorem infix_of_mem_splitOnP {p : Char → Bool} {t piece : Text} (h : piece ∈ t.splitOnP p) :
    piece <:+: t := by
  induction hn : t.length using Nat.strongRecOn generalizing t with
  | ind n ih =>
    by_cases hsep : ∃ c ∈ t, p c
    · obtain ⟨c, hc, hp⟩ := hsep
      obtain ⟨a, b, rfl⟩ := List.append_of_mem hc
      rw [List.splitOnP_append_cons a b hp] at h
      simp only [List.length_append, List.length_cons] at hn
      rcases List.mem_append.mp h with h | h
      · exact (ih a.length (by omega) h rfl).trans (List.infix_append' [] a (c :: b))
      · exact (ih b.length (by omega) h rfl).trans ⟨a ++ [c], [], by simp⟩
    · rw [List.splitOnP_eq_singleton fun c hc => by simpa using fun hp => hsep ⟨c, hc, hp⟩] at h
      exact List.mem_singleton.mp h ▸ List.infix_rfl

/-- What is looked for line by line, and found neither in empty lines nor in line ends, is found in the
same places if lines are printed. -/
theorem filterMap_printedLines {α : Type} {f : Text → Option α} (hnil : f [] = none)
    (hreturn : ∀ line, f (stripReturn line) = f line) (t : Text) :
    t.printedLines.filterMap f = t.lines.filterMap f := by
  obtain ⟨init, last, hlines⟩ := (List.eq_nil_or_concat t.lines).resolve_left (List.splitOn_ne_nil _ _)
  have hinit : (init.map stripReturn).filterMap f = init.filterMap f := by
    rw [List.filterMap_map]
    exact congrArg (List.filterMap · init) (funext hreturn)
  rw [printedLines, hlines, List.concat_eq_append]
  simp only [List.dropLast_concat, List.getLast?_concat]
  cases last with
  | nil => simp [hnil, hinit]
  | cons c last => simp only [List.filterMap_append, hinit]

/-! ### Trimming -/

theorem ne_of_isBlank {c d : Char} (hc : isBlank c) (hd : isBlank d = false) : c ≠ d := by
  intro he
  rw [he, hd] at hc
  cases hc

theorem dropWhile_eq_self {p : Char → Bool} {t : Text} (h : ∀ c, t.head? = some c → p c = false) :
    t.dropWhile p = t := by
  cases t with
  | nil => rfl
  | cons c t => exact List.dropWhile_cons_of_neg (by simp [h c rfl])

theorem dropWhileEnd_eq_self {p : Char → Bool} {t : Text}
    (h : ∀ c, t.getLast? = some c → p c = false) : t.dropWhileEnd p = t := by
  rw [dropWhileEnd, dropWhile_eq_self fun c hc => h c (List.head?_reverse ▸ hc), List.reverse_reverse]

/-- What is not dropped at the start stays. -/
theorem mem_dropWhile {p : Char → Bool} {t : Text} {c : Char} (hc : p c = false) (h : c ∈ t) :
    c ∈ t.dropWhile p := by
  rw [← List.takeWhile_append_dropWhile (p := p) (l := t)] at h
  rcases List.mem_append.mp h with h | h
  · rw [List.mem_takeWhile_imp h] at hc
    cases hc
  · exact h

theorem mem_dropWhileEnd {p : Char → Bool} {t : Text} {c : Char} (hc : p c = false) (h : c ∈ t) :
    c ∈ t.dropWhileEnd p := by
  rw [dropWhileEnd, List.mem_reverse]
  exact mem_dropWhile hc (List.mem_reverse.mpr h)

theorem dropWhileEnd_isPrefix (p : Char → Bool) (t : Text) : dropWhileEnd p t <+: t := by
  rw [dropWhileEnd, ← List.reverse_suffix, List.reverse_reverse]
  exact List.dropWhile_suffix _

theorem exists_trimEnd_append (t : Text) :
    ∃ blanks, t = t.trimEnd ++ blanks ∧ ∀ c ∈ blanks, isBlank c := by
  refine ⟨(t.reverse.takeWhile isBlank).reverse, ?_, ?_⟩
  · rw [trimEnd, dropWhileEnd, ← List.reverse_append, List.takeWhile_append_dropWhile,
      List.reverse_reverse]
  · intro c hc
    exact List.mem_takeWhile_imp (List.mem_reverse.mp hc)

theorem trim_isInfix (t : Text) : t.trim <:+: t :=
  (dropWhileEnd_isPrefix _ _).isInfix.trans (List.dropWhile_suffix _).isInfix

theorem trimStart_append_cons {c : Char} (hc : isBlank c = false) (t u : Text) :
    trimStart (t ++ c :: u) = trimStart t ++ c :: u := by
  induction t with
  | nil => simp [trimStart, hc]
  | cons d t ih =>
    rw [trimStart, List.cons_append, List.dropWhile_cons, trimStart, List.dropWhile_cons]
    split
    · exact ih
    · rfl

theorem trim_eq_self {t : Text} (hhead : ∀ c, t.head? = some c → isBlank c = false)
    (hlast : ∀ c, t.getLast? = some c → isBlank c = false) : t.trim = t := by
  have hstart : t.trimStart = t := dropWhile_eq_self hhead
  rw [trim, hstart]
  exact dropWhileEnd_eq_self hlast

theorem head?_trimStart (t : Text) : ∀ c, t.trimStart.head? = some c → isBlank c = false := by
  intro c hc
  have := List.head?_dropWhile_not isBlank t
  rw [show t.dropWhile isBlank = t.trimStart from rfl, hc] at this
  simpa using this

theorem getLast?_trim (t : Text) : ∀ c, t.trim.getLast? = some c → isBlank c = false := by
  intro c hc
  rw [trim, trimEnd, dropWhileEnd, List.getLast?_reverse] at hc
  exact head?_trimStart _ c hc

theorem head?_trim (t : Text) : ∀ c, t.trim.head? = some c → isBlank c = false := by
  intro c hc
  obtain ⟨blanks, hsplit, -⟩ := exists_trimEnd_append t.trimStart
  refine head?_trimStart t c ?_
  rw [hsplit, List.head?_append]
  rw [trim] at hc
  rw [hc]
  rfl

theorem mem_of_mem_trim {t : Text} {c : Char} (h : c ∈ t.trim) : c ∈ t := by
  obtain ⟨blanks, hsplit, -⟩ := exists_trimEnd_append t.trimStart
  refine List.dropWhile_subset isBlank ?_
  rw [show t.dropWhile isBlank = t.trimStart from rfl, hsplit]
  exact List.mem_append_left blanks h

@[simp] theorem trim_trim (t : Text) : t.trim.trim = t.trim :=
  trim_eq_self (head?_trim t) (getLast?_trim t)

end Freestanding.Text
