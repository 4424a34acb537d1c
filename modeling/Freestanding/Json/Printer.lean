import Freestanding.Json.Basic

/-!
# Writing JSON

Documents are written without blanks.  In strings only quotes, backslashes and control characters are
escaped, those with a letter of their own by it and the others by their code in lower-case hexadecimal.
The exponent of a number always has a sign.

## Main definitions

* `Json.render` — the text of a document.
-/

namespace Freestanding.Json

/-- Four lower-case hexadecimal digits. -/
def hex4 (n : Nat) : Text :=
  let digits := Text.hex n
  List.replicate (4 - digits.length) '0' ++ digits

/-- A character inside a string. -/
def renderChar (c : Char) : Text :=
  if c = '"' then "\\\""
  else if c = '\\' then "\\\\"
  else if c = '\x08' then "\\b"
  else if c = '\x09' then "\\t"
  else if c = '\x0a' then "\\n"
  else if c = '\x0c' then "\\f"
  else if c = '\x0d' then "\\r"
  else if c.toNat < 0x20 then "\\u" ++ hex4 c.toNat
  else [c]

/-- A string with its quotes.  One without a text is written as a surrogate without its partner. -/
def Literal.render (s : Literal) : Text :=
  match s.text with
  | some t => '"' :: t.flatMap renderChar ++ ['"']
  | none => "\"\\ud800\""

/-- A number.  Its exponent has a sign also where it is not negative. -/
def Numeral.render (n : Numeral) : Text :=
  let sign : Text := if n.negative then "-" else ""
  let fraction : Text :=
    match n.fraction with
    | some digits => '.' :: digits
    | none => []
  let exponent : Text :=
    match n.exponent with
    | some (true, digits) => 'e' :: '-' :: digits
    | some (false, digits) => 'e' :: '+' :: digits
    | none => []
  sign ++ n.whole ++ fraction ++ exponent

mutual

/-- The text of a document. -/
def render : Json → Text
  | .null => "null"
  | .bool true => "true"
  | .bool false => "false"
  | .number n => n.render
  | .string s => s.render
  | .array items => '[' :: renderItems items ++ [']']
  | .object members => '\x7b' :: renderMembers members ++ ['\x7d']

/-- The items of a list with commas between them. -/
def renderItems : List Json → Text
  | [] => []
  | [j] => j.render
  | j :: k :: rest => j.render ++ ',' :: renderItems (k :: rest)

/-- The members of an object with commas between them. -/
def renderMembers : List (Literal × Json) → Text
  | [] => []
  | [(s, j)] => s.render ++ ':' :: j.render
  | (s, j) :: m :: rest => s.render ++ ':' :: j.render ++ ',' :: renderMembers (m :: rest)

end

end Freestanding.Json
