import Freestanding.Token
import Freestanding.Text.Digit
import Freestanding.Text.Word
import Freestanding.Text.Number

/-!
# Instruction lines

What can be read off one line of IR: its code (the part before a comment), the value it assigns, and a
run-time address baked into it as an integer literal.

## Main definitions

* `Line.code` — the line up to its first semicolon.
* `Line.assigned?` — the local value that the line defines.
* `Line.castLiteral?`, `Line.address?` — the integer literal cast to a pointer, and its value.
-/

namespace Freestanding.Line

/-- The part of a line before its first semicolon. -/
def code (line : Text) : Text :=
  line.takeWhile (· != ';')

/-- The local value assigned by a line of the form `<value> = ...`. -/
def assigned? (line : Text) : Option Text := do
  let (left, _) ← Text.cutAt? " = " line.trimStart
  match Token.read? '%' left.trim with
  | some (token, []) => some token
  | _ => none

/-- The digits of an integer literal that is cast to a pointer at the start of the text. -/
def castLiteralAt? (t : Text) : Option Text := do
  let t ← t.stripPrefix? "inttoptr"
  let t := t.trimStart
  let t := (t.stripPrefix? "(").getD t
  let t ← t.trimStart.stripPrefix? "i64"
  let (_, t) ← Text.run? Text.isBlank t
  let (digits, t) ← Text.run? Text.isDecimal t
  let (_, t) ← Text.run? Text.isBlank t
  let t ← t.stripPrefix? "to"
  if t.atWordEnd then some digits else none

/-- The digits of the first integer literal that is cast to a pointer. -/
def castLiteral? (t : Text) : Option Text :=
  t.first? castLiteralAt?

/-- The address given by the first integer literal that is cast to a pointer. -/
def address? (t : Text) : Option UInt64 :=
  (castLiteral? t).bind Text.toWord?

end Freestanding.Line
