/-!
# Text

IR text is a list of characters.  This module holds the vocabulary in which the rest of the library
speaks about it: lines, trimming, words, prefixes, first occurrences.  All of it is structural, so
that a statement about a changed text is a statement about lists.

White space is the Unicode property of that name throughout.

## Main definitions

* `Text` — the type.
* `Text.lines`, `Text.unlines` — cutting at line feeds, and its inverse.
* `Text.printedLines` — the lines of a text as a reader counts them: no empty last line, and a
  carriage return before a line feed belongs to the line end.
* `Text.trim`, `Text.words` — white space removed at the ends, and everywhere.
* `Text.stripPrefix?`, `Text.occurs`, `Text.cutAt?`, `Text.first?` — literal and general search.

## Main results

* `Text.unlines_lines` — cutting into lines loses nothing.
-/

namespace Freestanding

/-- A piece of text, character by character. -/
abbrev Text := List Char

instance : Coe String Text := ⟨String.toList⟩

/-- Lists of texts are ordered by their first difference. -/
instance instTransOrdTexts : Std.TransOrd (List Text) :=
  List.instTransOrd

namespace Text

/-! ### Character classes given by ranges -/

/-- Whether a character lies in one of the inclusive ranges of code points. -/
def inRanges (ranges : List (Nat × Nat)) (c : Char) : Bool :=
  ranges.any fun r => r.1 ≤ c.toNat && c.toNat ≤ r.2

/-- The white space characters, as inclusive ranges of code points in increasing order. -/
def blankRanges : List (Nat × Nat) :=
  [(0x0009, 0x000D), (0x0020, 0x0020), (0x0085, 0x0085), (0x00A0, 0x00A0), (0x1680, 0x1680),
   (0x2000, 0x200A), (0x2028, 0x2029), (0x202F, 0x202F), (0x205F, 0x205F), (0x3000, 0x3000)]

/-- A white space character. -/
def isBlank (c : Char) : Bool :=
  inRanges blankRanges c

/-! ### Lines -/

/-- The pieces between line feeds; a text without line feeds is one line. -/
def lines (t : Text) : List Text :=
  t.splitOn '\n'

/-- Lines put back together with line feeds between them. -/
def unlines (ls : List Text) : Text :=
  ['\n'].intercalate ls

@[simp] theorem unlines_lines (t : Text) : unlines t.lines = t :=
  List.intercalate_splitOn '\n'

/-- A line without one carriage return at its end. -/
def stripReturn (line : Text) : Text :=
  if line.getLast? = some '\r' then line.dropLast else line

/-- The lines of a text as they are printed: a line feed ends a line, together with a carriage return
right before it, and no empty line follows the last line feed. -/
def printedLines (t : Text) : List Text :=
  let pieces := t.lines
  let ended := pieces.dropLast.map stripReturn
  match pieces.getLast? with
  | some (c :: cs) => ended ++ [c :: cs]
  | _ => ended

/-! ### Trimming and words -/

/-- The text without the longest run of `p` characters at its end. -/
def dropWhileEnd (p : Char → Bool) (t : Text) : Text :=
  (t.reverse.dropWhile p).reverse

/-- White space removed at the start. -/
def trimStart (t : Text) : Text :=
  t.dropWhile isBlank

/-- White space removed at the end. -/
def trimEnd (t : Text) : Text :=
  t.dropWhileEnd isBlank

/-- White space removed at both ends. -/
def trim (t : Text) : Text :=
  trimEnd (trimStart t)

/-- The maximal runs of characters that are not white space. -/
def words (t : Text) : List Text :=
  (t.splitOnP isBlank).filter (!·.isEmpty)

/-! ### Literal search -/

/-- What follows the literal `p` at the start of the text. -/
def stripPrefix? : (t p : Text) → Option Text
  | t, [] => some t
  | [], _ :: _ => none
  | c :: t, d :: p => if c = d then stripPrefix? t p else none

@[simp] theorem stripPrefix?_nil (t : Text) : stripPrefix? t [] = some t := by
  cases t <;> rfl

@[simp] theorem stripPrefix?_nil_cons (d : Char) (p : Text) : stripPrefix? [] (d :: p) = none := rfl

@[simp] theorem stripPrefix?_cons_cons (c d : Char) (t p : Text) :
    stripPrefix? (c :: t) (d :: p) = if c = d then stripPrefix? t p else none := rfl

/-- Stripping a prefix succeeds exactly on the texts that start with it. -/
theorem stripPrefix?_eq_some_iff {t p rest : Text} :
    stripPrefix? t p = some rest ↔ t = p ++ rest := by
  induction p generalizing t with
  | nil => simp
  | cons d p ih =>
    cases t with
    | nil => simp
    | cons c t =>
      by_cases h : c = d
      · simp [h, ih]
      · simp [h]

/-- The text starts with the literal `p`. -/
def startsWith (t p : Text) : Bool :=
  (t.stripPrefix? p).isSome

/-- What precedes the literal `s` at the end of the text. -/
def stripSuffix? (t s : Text) : Option Text :=
  (stripPrefix? t.reverse s.reverse).map List.reverse

/-- The literal `p` occurs somewhere in the text. -/
def occurs (p : Text) : (t : Text) → Bool
  | [] => p.isEmpty
  | c :: t => startsWith (c :: t) p || occurs p t

/-- The text before and after the first occurrence of the literal `p`. -/
def cutAt? (p : Text) : (t : Text) → Option (Text × Text)
  | [] => if p.isEmpty then some ([], []) else none
  | c :: t =>
    match stripPrefix? (c :: t) p with
    | some rest => some ([], rest)
    | none => (cutAt? p t).map fun (before, rest) => (c :: before, rest)

/-- The result of the recogniser `f` at the first position where it succeeds. -/
def first? {α : Type} (f : Text → Option α) : Text → Option α
  | [] => f []
  | c :: t =>
    match f (c :: t) with
    | some a => some a
    | none => first? f t

/-- The result of the recogniser `f` at the last position where it succeeds. -/
def last? {α : Type} (f : Text → Option α) : Text → Option α
  | [] => f []
  | c :: t =>
    match last? f t with
    | some a => some a
    | none => f (c :: t)

/-- A run of at least one `p` character at the start, and what follows the longest one. -/
def run? (p : Char → Bool) (t : Text) : Option (Text × Text) :=
  match t.takeWhile p with
  | [] => none
  | c :: cs => some (c :: cs, t.dropWhile p)

end Text

end Freestanding
