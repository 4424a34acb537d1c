import Freestanding.Text.Number

/-!
# JSON documents

A document is kept as it is written where that matters: a number keeps its digits, because whether it
is an integer depends on how it is written, and a string keeps whether it was written with escapes.
A string may contain a surrogate that is not part of a pair; then it has no text.

## Main definitions

* `Json.Numeral`, `Json.Literal` — numbers and strings as they are written.
* `Json` — documents.
* `Json.ofText`, `Json.ofNat` and companions — documents for simple values.
-/

namespace Freestanding

namespace Json

/-- A number as it is written. -/
structure Numeral where
  /-- It starts with a minus sign. -/
  negative : Bool := false
  /-- The digits before the point. -/
  whole : Text
  /-- The digits after the point, if there is one. -/
  fraction : Option Text := none
  /-- The exponent, if there is one: whether it is negative, and its digits. -/
  exponent : Option (Bool × Text) := none
  deriving DecidableEq, Repr

/-- A string as it is written. -/
structure Literal where
  /-- The text of the string; none if it has a surrogate without its partner. -/
  text : Option Text
  /-- No character of it is written as an escape. -/
  plain : Bool
  deriving DecidableEq, Repr

end Json

/-- A JSON document. -/
inductive Json
  /-- The word `null`. -/
  | null
  /-- A truth value. -/
  | bool (b : Bool)
  /-- A number. -/
  | number (n : Json.Numeral)
  /-- A string. -/
  | string (s : Json.Literal)
  /-- A list of documents. -/
  | array (items : List Json)
  /-- Named documents; a name may occur more than once. -/
  | object (members : List (Json.Literal × Json))

namespace Json

/-- A character that is written as an escape. -/
def needsEscape (c : Char) : Bool :=
  c.toNat < 0x20 || c == '"' || c == '\\'

/-- The string with a text. -/
def Literal.ofText (t : Text) : Literal :=
  ⟨some t, t.all (!needsEscape ·)⟩

/-- The document with a text. -/
def ofText (t : Text) : Json :=
  .string (.ofText t)

/-- The document with a number. -/
def ofNat (n : Nat) : Json :=
  .number { whole := Text.decimal n }

/-- The document with an integer. -/
def ofInt : Int → Json
  | .ofNat n => ofNat n
  | .negSucc n => .number { negative := true, whole := Text.decimal (n + 1) }

/-- The object with the given members. -/
def record (members : List (Text × Json)) : Json :=
  .object (members.map fun (k, v) => (.ofText k, v))

end Json

end Freestanding
