import Freestanding.Json.Basic

/-!
# Reading JSON

A text is a document if it follows the grammar to the letter: no comments, no trailing commas, no
leading zeros, no control characters inside strings.  Blanks may stand around every token.

## Main definitions

* `Json.readLiteral?`, `Json.readNumeral?` — strings and numbers.
* `Json.readValue?` — the document at the start of a text.
* `Json.parse?` — the document that a text is.
-/

namespace Freestanding.Json

/-- The blanks of the grammar. -/
def isBlank (c : Char) : Bool :=
  c == ' ' || c == '\n' || c == '\t' || c == '\r'

/-- The text from the next token on. -/
def skipBlanks (t : Text) : Text :=
  t.dropWhile isBlank

/-! ### Strings -/

/-- A piece of a string. -/
inductive Piece
  /-- A character. -/
  | char (c : Char)
  /-- A surrogate, written as an escape. -/
  | surrogate (code : Nat)

/-- The value of a hexadecimal digit. -/
def hexDigit? (c : Char) : Option Nat :=
  if c.isDigit then some (c.toNat - 48)
  else if 'a' ≤ c ∧ c ≤ 'f' then some (c.toNat - 87)
  else if 'A' ≤ c ∧ c ≤ 'F' then some (c.toNat - 55)
  else none

/-- The piece written by four hexadecimal digits, and what follows them. -/
def readCode? : Text → Option (Piece × Text)
  | a :: b :: c :: d :: t => do
    let code := ((← hexDigit? a) * 16 + (← hexDigit? b)) * 256 +
      ((← hexDigit? c) * 16 + (← hexDigit? d))
    return (if 0xD800 ≤ code ∧ code ≤ 0xDFFF then .surrogate code else .char (Char.ofNat code), t)
  | _ => none

/-- The piece written by an escape, given the text after the backslash. -/
def readEscape? : Text → Option (Piece × Text)
  | '"' :: t => some (.char '"', t)
  | '\\' :: t => some (.char '\\', t)
  | '/' :: t => some (.char '/', t)
  | 'b' :: t => some (.char '\x08', t)
  | 'f' :: t => some (.char '\x0c', t)
  | 'n' :: t => some (.char '\x0a', t)
  | 'r' :: t => some (.char '\x0d', t)
  | 't' :: t => some (.char '\x09', t)
  | 'u' :: t => readCode? t
  | _ => none

/-- The text of a string: every surrogate must be the first or the second half of a pair. -/
def joinPieces : List Piece → Option Text
  | [] => some []
  | .char c :: rest => (joinPieces rest).map (c :: ·)
  | .surrogate high :: .surrogate low :: rest =>
    if high < 0xDC00 ∧ 0xDC00 ≤ low then
      (joinPieces rest).map (Char.ofNat ((high - 0xD800) * 1024 + (low - 0xDC00) + 0x10000) :: ·)
    else none
  | .surrogate _ :: _ => none

/-- The pieces of a string up to its closing quote, whether none is an escape, and what follows. -/
def readPieces? : (fuel : Nat) → Text → Option (List Piece × Bool × Text)
  | 0, _ => none
  | _ + 1, [] => none
  | n + 1, c :: t =>
    if c = '"' then some ([], true, t)
    else if c = '\\' then do
      let (piece, t) ← readEscape? t
      let (pieces, _, t) ← readPieces? n t
      return (piece :: pieces, false, t)
    else if c.toNat < 0x20 then none
    else do
      let (pieces, plain, t) ← readPieces? n t
      return (.char c :: pieces, plain, t)

/-- The string up to its closing quote, given the text after the opening one. -/
def readLiteral? (t : Text) : Option (Literal × Text) := do
  let (pieces, plain, rest) ← readPieces? (t.length + 1) t
  return (⟨joinPieces pieces, plain⟩, rest)

/-! ### Numbers -/

/-- The digits before the point: a single zero, or a run that starts with another digit. -/
def readWhole? (t : Text) : Option (Text × Text) :=
  match t with
  | '0' :: rest => some (['0'], rest)
  | _ => Text.run? Char.isDigit t

/-- The digits after a point, if there is one. -/
def readFraction? : Text → Option (Option Text × Text)
  | '.' :: t => (Text.run? Char.isDigit t).map fun (digits, rest) => (some digits, rest)
  | t => some (none, t)

/-- The digits of an exponent with the given sign. -/
def readExponentDigits? (negative : Bool) (t : Text) : Option (Option (Bool × Text) × Text) :=
  (Text.run? Char.isDigit t).map fun (digits, rest) => (some (negative, digits), rest)

/-- The exponent, if there is one. -/
def readExponent? : Text → Option (Option (Bool × Text) × Text)
  | c :: t =>
    if c = 'e' ∨ c = 'E' then
      match t with
      | '-' :: u => readExponentDigits? true u
      | '+' :: u => readExponentDigits? false u
      | _ => readExponentDigits? false t
    else some (none, c :: t)
  | [] => some (none, [])

/-- The number at the start of a text. -/
def readNumeral? (t : Text) : Option (Numeral × Text) := do
  let (negative, t) : Bool × Text :=
    match t with
    | '-' :: u => (true, u)
    | _ => (false, t)
  let (whole, t) ← readWhole? t
  let (fraction, t) ← readFraction? t
  let (exponent, t) ← readExponent? t
  return (⟨negative, whole, fraction, exponent⟩, t)

/-! ### Documents -/

/-- A member name and the colon after it. -/
def readName? (t : Text) : Option (Literal × Text) := do
  let t ← (skipBlanks t).stripPrefix? "\""
  let (name, t) ← readLiteral? t
  let t ← (skipBlanks t).stripPrefix? ":"
  return (name, t)

mutual

/-- The document at the start of a text, and what follows it. -/
def readValue? : (fuel : Nat) → Text → Option (Json × Text)
  | 0, _ => none
  | n + 1, t =>
    match skipBlanks t with
    | [] => none
    | c :: t =>
      if c = '"' then (readLiteral? t).map fun (s, rest) => (.string s, rest)
      else if c = '[' then
        match skipBlanks t with
        | ']' :: rest => some (.array [], rest)
        | t => (readItems? n t).map fun (items, rest) => (.array items, rest)
      else if c = '\x7b' then
        match skipBlanks t with
        | '\x7d' :: rest => some (.object [], rest)
        | t => (readMembers? n t).map fun (members, rest) => (.object members, rest)
      else if c = 'n' then (Text.stripPrefix? t "ull").map fun rest => (.null, rest)
      else if c = 't' then (Text.stripPrefix? t "rue").map fun rest => (.bool true, rest)
      else if c = 'f' then (Text.stripPrefix? t "alse").map fun rest => (.bool false, rest)
      else (readNumeral? (c :: t)).map fun (m, rest) => (.number m, rest)

/-- The items of a list up to its closing bracket. -/
def readItems? : (fuel : Nat) → Text → Option (List Json × Text)
  | 0, _ => none
  | n + 1, t => do
    let (j, t) ← readValue? n t
    match skipBlanks t with
    | ',' :: t =>
      let (rest, t) ← readItems? n t
      return (j :: rest, t)
    | ']' :: t => return ([j], t)
    | _ => none

/-- The members of an object up to its closing brace. -/
def readMembers? : (fuel : Nat) → Text → Option (List (Literal × Json) × Text)
  | 0, _ => none
  | n + 1, t => do
    let (name, t) ← readName? t
    let (j, t) ← readValue? n t
    match skipBlanks t with
    | ',' :: t =>
      let (rest, t) ← readMembers? n t
      return ((name, j) :: rest, t)
    | '\x7d' :: t => return ([(name, j)], t)
    | _ => none

end

/-- The document that a text is; blanks may follow it, and nothing else. -/
def parse? (t : Text) : Option Json :=
  match readValue? (2 * t.length + 2) t with
  | some (j, rest) => if skipBlanks rest = [] then some j else none
  | none => none

end Freestanding.Json
