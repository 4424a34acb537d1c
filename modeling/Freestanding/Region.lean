import Freestanding.Text.Utf8

/-!
# Delimited regions

A function body is what stands between a brace and its partner.  Delimiters inside quoted names and
strings, and inside comments, do not count: the text is read in one of three modes, and a delimiter is
live only in code.

## Main definitions

* `Region.Mode`, `Region.Mode.next` — code, quoted text and comment, and how a character changes them.
* `Region.isLive` — a character counts as a delimiter.
* `Region.closeIndex?` — the position of the partner of the delimiter that starts a text.
* `Region.enclosed?` — what the two delimiters enclose, and what follows them.
* `Region.match?`, `Region.findOpen?` — the same by byte offsets into a larger text.
-/

namespace Freestanding

namespace Region

/-- How a character is read. -/
inductive Mode
  /-- Instructions and types. -/
  | code
  /-- Between double quotes. -/
  | quoted
  /-- After a semicolon, up to the end of the line. -/
  | comment
  deriving DecidableEq, Repr

/-- The mode after a character. -/
def Mode.next : Mode → Char → Mode
  | .code, c => if c = '"' then .quoted else if c = ';' then .comment else .code
  | .quoted, c => if c = '"' then .code else .quoted
  | .comment, c => if c = '\n' then .code else .comment

/-- A character that can be a delimiter: it is read as code and does not end the code. -/
def isLive (mode : Mode) (c : Char) : Bool :=
  mode == .code && c != '"' && c != ';'

/-- The index of the live closing delimiter at which as many closing delimiters have been read as
opening ones, where `depth` more opening ones precede the text and `index` characters do. -/
def closeIndexFrom? (opening closing : Char) : (mode : Mode) → (depth index : Nat) → Text → Option Nat
  | _, _, _, [] => none
  | mode, depth, index, c :: t =>
    let next := mode.next c
    if isLive mode c && c == opening then
      closeIndexFrom? opening closing next (depth + 1) (index + 1) t
    else if isLive mode c && c == closing then
      match depth with
      | 0 => none
      | 1 => some index
      | d + 2 => closeIndexFrom? opening closing next (d + 1) (index + 1) t
    else closeIndexFrom? opening closing next depth (index + 1) t

/-- The index of the partner of the opening delimiter that starts the text. -/
def closeIndex? (opening closing : Char) (t : Text) : Option Nat :=
  if t.head? = some opening then closeIndexFrom? opening closing .code 0 0 t else none

/-- The text between the opening delimiter at the start and its partner, and the text after that. -/
def enclosed? (opening closing : Char) (t : Text) : Option (Text × Text) :=
  (closeIndex? opening closing t).map fun i => ((t.take i).drop 1, t.drop (i + 1))

end Region

/-- A delimited region of a text; offsets count bytes. -/
structure Region where
  /-- The offset of the opening delimiter. -/
  openAt : Nat
  /-- The offset of the closing delimiter. -/
  closeAt : Nat
  /-- The text between the delimiters. -/
  inner : Text
  /-- The text with the delimiters. -/
  outer : Text
  deriving DecidableEq, Repr

namespace Region

/-- The offset right after the closing delimiter. -/
def stop (r : Region) : Nat :=
  r.closeAt + 1

/-- The text from a byte offset on, if a character starts there or the text ends there. -/
def dropBytes? : (n : Nat) → Text → Option Text
  | 0, t => some t
  | _ + 1, [] => none
  | n + 1, c :: t => if c.utf8Size ≤ n + 1 then dropBytes? (n + 1 - c.utf8Size) t else none

/-- The region opened by the delimiter at a byte offset. -/
def match? (opening closing : Char) (t : Text) (offset : Nat) : Option Region := do
  let t ← dropBytes? offset t
  let i ← closeIndex? opening closing t
  let inside := t.take i
  some {
    openAt := offset
    closeAt := offset + Text.byteLength inside
    inner := inside.drop 1
    outer := t.take (i + 1) }

/-- The byte offset of the first live character `opening`, where `offset` bytes precede the text. -/
def findLive? (opening : Char) : (mode : Mode) → (offset : Nat) → Text → Option Nat
  | _, _, [] => none
  | mode, offset, c :: t =>
    if isLive mode c && c == opening then some offset
    else findLive? opening (mode.next c) (offset + c.utf8Size) t

/-- The text from the first character that starts at or after a byte offset, and that character's
own offset, where `before` bytes precede the text. -/
def seek : (before offset : Nat) → Text → Nat × Text
  | before, _, [] => (before, [])
  | before, offset, c :: t =>
    if offset ≤ before then (before, c :: t) else seek (before + c.utf8Size) offset t

/-- The byte offset of the first live opening delimiter at or after a byte offset. -/
def findOpen? (opening : Char) (t : Text) (offset : Nat) : Option Nat :=
  let (start, rest) := seek 0 offset t
  findLive? opening .code start rest

end Region

end Freestanding
