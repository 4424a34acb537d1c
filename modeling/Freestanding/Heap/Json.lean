import Freestanding.Heap.Object
import Freestanding.Json.Decoder
import Freestanding.Json.Printer

/-!
# Memory images and layouts as JSON

An image is written with its words under their addresses, in order of address.  An address is written
as a plain decimal number in quotes, and read only in that form.  Of two words at one address the later
one counts.

## Main definitions

* `HeapImage.toJson`, `HeapImage.decode?` — images.
* `Layout.toJson`, `Layout.decode?` — element layouts.
-/

namespace Freestanding

namespace HeapImage

/-- The address that a member name denotes: a decimal number without sign and leading zeros, and
without escapes. -/
def addressOfName? (name : Json.Literal) : Option UInt64 := do
  let t ← name.text
  if name.plain ∧ (t.head? ≠ some '0' ∨ t.length = 1) then Text.toWord? t else none

/-- The words of an object. -/
def wordsOf? (members : List (Json.Literal × Json)) : Option (List (UInt64 × UInt64)) :=
  members.mapM fun (name, j) => do return (← addressOfName? name, ← Json.word? 0 j)

/-- Read an image. -/
def decode? : Json.Decoder HeapImage
  | room + 1, j => do
    match (← Json.slots? ["words"] j), room with
    | [some (.object members)], _ + 1 =>
      return ⟨(← wordsOf? members).foldl (fun words (a, w) => words.insert a w) ∅⟩
    | _, _ => none
  | 0, _ => none

/-- The document of an image. -/
def toJson (h : HeapImage) : Json :=
  .record [("words", .record (h.words.toList.map fun (a, w) =>
    (Text.decimal a.toNat, .ofNat w.toNat)))]

end HeapImage

namespace Layout

/-- Read an element layout. -/
def decode? : Json.Decoder Layout
  | room + 1, j => do
    match (← Json.slots? ["mutable_or_abstract", "element_size"] j) with
    | [boxed, size] =>
      return ⟨← Json.required? Json.bool? room boxed, ← Json.required? Json.word? room size⟩
    | _ => none
  | 0, _ => none

/-- The document of an element layout. -/
def toJson (l : Layout) : Json :=
  .record [("mutable_or_abstract", .bool l.boxed), ("element_size", .ofNat l.elementSize.toNat)]

end Layout

end Freestanding
