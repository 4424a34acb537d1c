import Freestanding.Json.Number
import Freestanding.Json.Parser

/-!
# Decoding JSON

A decoder turns a document into a value, or refuses it.  A structure is written as an object with a
member for each field, or as an array of the fields in order.  Members with other names are passed over
without a look at them, a member that occurs twice is refused, and a field may be missing only where it
has a default.

Documents that are nested too deeply are refused: a decoder is told for how many further arrays and
objects there is room.

## Main definitions

* `Json.Decoder` — the type of decoders.
* `Json.slots?` — the fields of a structure.
* `Json.required?`, `Json.optional?` — the value of a field.
* `Json.isRepresentable` — a document can be taken in whole, whatever it holds.
* `Json.decodeText?` — decoding a text.
-/

namespace Freestanding.Json

/-- A way to read a document with room for a number of further arrays and objects inside one
another. -/
abbrev Decoder (α : Type) := (room : Nat) → Json → Option α

/-- The greatest number of arrays and objects inside one another. -/
def maxDepth : Nat := 127

/-- Decode a text. -/
def decodeText? {α : Type} (d : Decoder α) (t : Text) : Option α :=
  (parse? t).bind (d maxDepth)

/-! ### Simple values -/

/-- A truth value. -/
def bool? : Decoder Bool
  | _, .bool b => some b
  | _, _ => none

/-- A text. -/
def text? : Decoder Text
  | _, .string s => s.text
  | _, _ => none

/-- A natural number of 64 bits. -/
def word? : Decoder UInt64
  | _, .number n => n.toWord?
  | _, _ => none

/-- A number of eight bits. -/
def byte? : Decoder UInt8
  | _, .number n => n.toWord?.bind fun w => if w < 256 then some w.toUInt8 else none
  | _, _ => none

/-- A list. -/
def list? {α : Type} (d : Decoder α) : Decoder (List α)
  | room + 1, .array items => items.mapM (d room)
  | _, _ => none

/-! ### Structures -/

/-- The members of an object with the texts of their names. -/
def named? (members : List (Literal × Json)) : Option (List (Text × Json)) :=
  members.mapM fun (k, v) => k.text.map fun name => (name, v)

/-- The member with a name: there may be none, but not two. -/
def member? (members : List (Text × Json)) (name : Text) : Option (Option Json) :=
  match members.filter (·.1 == name) with
  | [] => some none
  | [(_, v)] => some (some v)
  | _ => none

/-- The fields with the given names, in that order, of a structure that is written as an object or as
an array. -/
def slots? (names : List Text) : Json → Option (List (Option Json))
  | .object members => (named? members).bind fun ms => names.mapM (member? ms)
  | .array items =>
    if items.length ≤ names.length then
      some (items.map some ++ List.replicate (names.length - items.length) none)
    else none
  | _ => none

/-- A field that must be there. -/
def required? {α : Type} (d : Decoder α) (room : Nat) (slot : Option Json) : Option α :=
  slot.bind (d room)

/-- A field that has a default. -/
def optional? {α : Type} (d : Decoder α) (default : α) (room : Nat) : Option Json → Option α
  | some j => d room j
  | none => some default

/-! ### Documents taken in whole -/

mutual

/-- A document that can be taken in whole: there is room for its arrays and objects, its numbers are
finite and its strings have texts. -/
def isRepresentable : (room : Nat) → Json → Bool
  | _, .null => true
  | _, .bool _ => true
  | _, .number n => n.scalar?.isSome
  | _, .string s => s.text.isSome
  | 0, .array _ => false
  | 0, .object _ => false
  | room + 1, .array items => areItemsRepresentable room items
  | room + 1, .object members => areMembersRepresentable room members

/-- The items of an array can be taken in whole. -/
def areItemsRepresentable : (room : Nat) → List Json → Bool
  | _, [] => true
  | room, j :: rest => isRepresentable room j && areItemsRepresentable room rest

/-- The members of an object can be taken in whole. -/
def areMembersRepresentable : (room : Nat) → List (Literal × Json) → Bool
  | _, [] => true
  | room, (k, j) :: rest =>
    k.text.isSome && isRepresentable room j && areMembersRepresentable room rest

end

end Freestanding.Json
