import Freestanding.Error
import Freestanding.Region
import Freestanding.Text.Word
import Freestanding.Token

/-!
# Definitions in a dump

A definition starts with a line `define ... {` at the left margin and ends with the partner of the
brace.  Its place in the dump is remembered, because what stands inside a definition is not read as a
top-level line.

## Main definitions

* `Definition` — name, header, body and place.
* `Definition.nameIn?` — the first symbol with a parameter list in a line.
* `Definition.read` — the definition that starts at a given line.
* `Definition.all` — the definitions of a dump.
-/

namespace Freestanding

/-- A function definition in a dump; places count characters. -/
structure Definition where
  /-- The symbol that is defined. -/
  name : Text
  /-- The first line, up to the opening brace. -/
  header : Text
  /-- The text between the braces. -/
  body : Text
  /-- The place of the first character. -/
  start : Nat
  /-- The place after the closing brace. -/
  stop : Nat
  deriving DecidableEq, Repr

namespace Definition

/-- A place lies inside the definition. -/
def covers (d : Definition) (place : Nat) : Bool :=
  d.start ≤ place && place < d.stop

/-- The symbol at the start of the text, if an opening parenthesis follows it. -/
def calledName? (t : Text) : Option Text := do
  match Token.named? '@' t with
  | some (token, '(' :: _) => some token
  | _ => none

/-- The first symbol of a line that an opening parenthesis follows. -/
def nameIn? (line : Text) : Option Text :=
  Text.first? calledName? line

/-- The lines of a text with the place where each starts, where `place` characters precede it. -/
def placed : (place : Nat) → (lines : List Text) → List (Nat × Text)
  | _, [] => []
  | place, line :: lines => (place, line) :: placed (place + line.length + 1) lines

@[simp] theorem placed_nil (place : Nat) : placed place [] = [] := rfl

@[simp] theorem placed_cons (place : Nat) (line : Text) (lines : List Text) :
    placed place (line :: lines) = (place, line) :: placed (place + line.length + 1) lines := rfl

/-- The lines of a dump, each with its place. -/
def placedLines (dump : Text) : List (Nat × Text) :=
  placed 0 dump.lines

/-- A line that starts a definition. -/
def isDefineLine (line : Text) : Bool :=
  match Text.stripPrefix? line "define" with
  | some rest => Text.atWordEnd rest
  | none => false

/-- What is wrong with a definition. -/
def malformed (function detail : Text) : Error :=
  .malformed function "function definition" detail

/-- Read the definition whose first line is given, with its place in the dump.  Errors name the
function whose dump is read. -/
def read (function dump : Text) (place : Nat) (line : Text) : Except Error Definition := do
  let header := line.trimEnd
  if header.getLast? ≠ some '\x7b' then
    throw (malformed function ("body brace not on the define line: " ++ header))
  let brace := place + header.length - 1
  match Region.enclosed? '\x7b' '\x7d' (dump.drop brace) with
  | none => throw (malformed function "unbalanced braces")
  | some (body, _) =>
    match nameIn? header with
    | none => throw (malformed function ("no name in: " ++ header))
    | some name => return { name, header, body, start := place, stop := brace + body.length + 2 }

/-- The definitions of a dump, in order. -/
def all (function dump : Text) : Except Error (List Definition) :=
  ((placedLines dump).filter fun (_, line) => isDefineLine line).mapM
    fun (place, line) => read function dump place line

end Definition

end Freestanding
