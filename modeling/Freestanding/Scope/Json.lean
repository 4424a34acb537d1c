import Freestanding.Scope
import Freestanding.Value.Json

/-!
# Scopes as JSON

An entry is one object with the members of its cell among its own, and everything in it but the name,
the address and the mark of an import is taken in whole.  Entries and inner scopes may be missing.

## Main definitions

* `Entry.toJson`, `Entry.decode?` — entries.
* `Scope.toJson`, `Scope.decode?` — scopes.
-/

namespace Freestanding

namespace CellKind

/-- The name of a kind of cell. -/
def name : CellKind → Text
  | .ref => "ref"
  | .constant => "constant"
  | .variable => "global"

/-- The kinds of cell by name. -/
def byName : List (Text × CellKind) :=
  [CellKind.ref, .constant, .variable].map fun k => (k.name, k)

end CellKind

namespace Entry

/-- The members of an entry that do not belong to its cell. -/
def ownFields : List Text :=
  ["name", "address", "imported"]

/-- Read an entry. -/
def decode? : Json.Decoder Entry
  | room + 1, .object members => do
    let named ← Json.named? members
    let name ← Json.required? Json.text? room (← Json.member? named "name")
    let address ← Json.required? Json.word? room (← Json.member? named "address")
    let imported ← Json.optional? Json.bool? false room (← Json.member? named "imported")
    if !(named.filter fun m => !ownFields.contains m.1).all fun m => Json.isRepresentable room m.2 then failure
    let kind ← Value.choice? CellKind.byName true (← (← Json.member? named "cell"))
    let value ← Value.decode? true room (← (← Json.member? named "value"))
    return { name, address, cell := ⟨kind, value⟩, imported }
  | _, _ => none

/-- The document of an entry. -/
def toJson (e : Entry) : Json :=
  .record [
    ("name", .ofText e.name),
    ("address", .ofNat e.address.toNat),
    ("cell", .ofText e.cell.kind.name),
    ("value", e.cell.value.toJson),
    ("imported", .bool e.imported)]

end Entry

namespace Scope

/-- Read a scope, given a way to read the scopes inside it. -/
def decodeWith? (children? : Json.Decoder (List Scope)) : Json.Decoder Scope := fun room j => do
  match (← Json.slots? ["name", "bindings", "children"] j) with
  | [name, entries, children] =>
    let name ← Json.required? Json.text? room name
    let entries ← Json.optional? (Json.list? Entry.decode?) [] room entries
    let children ← Json.optional? children? [] room children
    return .mk name entries children
  | _ => none

/-- Read a scope.  Those inside it need room for their list and for themselves. -/
def decode? : Json.Decoder Scope
  | 0, _ => none
  | 1, j => decodeWith? (fun _ _ => none) 0 j
  | room + 2, j => decodeWith? (Json.list? fun _ j => decode? room j) (room + 1) j

mutual

/-- The document of a scope. -/
def toJson : Scope → Json
  | .mk name entries children =>
    .record [
      ("name", .ofText name),
      ("bindings", .array (entries.map Entry.toJson)),
      ("children", .array (toJsonAll children))]

/-- The documents of scopes. -/
def toJsonAll : List Scope → List Json
  | [] => []
  | s :: rest => s.toJson :: toJsonAll rest

end

end Scope

end Freestanding
