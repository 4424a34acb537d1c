import Freestanding.Decimal.Shortest
import Freestanding.Json.Decoder
import Freestanding.Json.Printer
import Freestanding.Value

/-!
# Values as JSON

A value is written as an object whose member `kind` says what the others mean.  It can also be read
from an array that has the kind first.  Integers are written with their width but are never read back,
since the width of the reader's numbers does not suffice for all of them.

Where a value is part of a document that was taken in whole, the kind may also be given by position.

## Main definitions

* `Value.Kind` — the kinds and their members.
* `Value.toJson`, `Value.decode?` — writing and reading.
* `Json.ofFloat64`, `Json.ofFloat32` — the shortest numbers that read back.
-/

namespace Freestanding

namespace Json

/-- How a decimal is written: with a point from `-leadingZeros` places up to `places` places, and with
an exponent beyond. -/
structure NumberStyle where
  /-- The greatest number of digits before the point. -/
  places : Int
  /-- The number of zeros after the point from which on an exponent is written. -/
  leadingZeros : Int

/-- The number of a decimal. -/
def NumberStyle.numeral (style : NumberStyle) (negative : Bool) (d : Decimal) : Numeral :=
  let digits := Text.decimal d.digits
  let point : Int := digits.length + d.exponent
  if 0 ≤ d.exponent ∧ point ≤ style.places then
    { negative, whole := digits ++ List.replicate d.exponent.toNat '0', fraction := some "0" }
  else if 0 < point ∧ point ≤ style.places then
    { negative, whole := digits.take point.toNat, fraction := some (digits.drop point.toNat) }
  else if -style.leadingZeros < point ∧ point ≤ 0 then
    { negative, whole := "0", fraction := some (List.replicate (-point).toNat '0' ++ digits) }
  else
    { negative
      whole := digits.take 1
      fraction := if digits.length = 1 then none else some (digits.drop 1)
      exponent := some (point - 1 < 0, Text.decimal (point - 1).natAbs) }

/-- The style of 64-bit numbers. -/
def style64 : NumberStyle := ⟨16, 5⟩

/-- The style of 32-bit numbers. -/
def style32 : NumberStyle := ⟨13, 6⟩

/-- The number with a 64-bit pattern; what is not finite is written as `null`. -/
def ofFloat64 (pattern : UInt64) : Json :=
  let negative := pattern.toNat >>> 63 = 1
  let magnitude := pattern.toNat % 1 <<< 63
  if 2047 <<< 52 ≤ magnitude then .null
  else if magnitude = 0 then .number { negative, whole := "0", fraction := some "0" }
  else .number (style64.numeral negative (Decimal.ofFloat64 magnitude))

/-- The number with a 32-bit pattern; what is not finite is written as `null`. -/
def ofFloat32 (pattern : UInt32) : Json :=
  let negative := pattern.toNat >>> 31 = 1
  let magnitude := pattern.toNat % 1 <<< 31
  if 255 <<< 23 ≤ magnitude then .null
  else if magnitude = 0 then .number { negative, whole := "0", fraction := some "0" }
  else .number (style32.numeral negative (Decimal.ofFloat32 magnitude))

end Json

namespace Value

/-- A kind of value. -/
inductive Kind
  /-- Integers. -/
  | int
  /-- 32-bit floating-point numbers. -/
  | float32
  /-- 64-bit floating-point numbers. -/
  | float64
  /-- Truth values. -/
  | bool
  /-- Addresses. -/
  | pointer
  /-- Bytes with a type. -/
  | bytes
  /-- Strings. -/
  | string
  /-- Functions. -/
  | function
  /-- Types. -/
  | type
  /-- Other objects. -/
  | object
  deriving DecidableEq, Repr

namespace Kind

/-- All kinds, by position. -/
def all : List Kind :=
  [.int, .float32, .float64, .bool, .pointer, .bytes, .string, .function, .type, .object]

/-- The name of a kind. -/
def name : Kind → Text
  | .int => "int"
  | .float32 => "float32"
  | .float64 => "float64"
  | .bool => "bool"
  | .pointer => "pointer"
  | .bytes => "bytes"
  | .string => "str"
  | .function => "function"
  | .type => "type"
  | .object => "opaque"

/-- The members beside the kind. -/
def fields : Kind → List Text
  | .int => ["bits", "value"]
  | .float32 | .float64 | .bool | .string => ["value"]
  | .pointer => ["address"]
  | .bytes => ["type_name", "bytes"]
  | .function | .type => ["name"]
  | .object => ["type_name"]

end Kind

/-- A choice that is given by name, or also by position in a document that was taken in whole. -/
def choice? {α : Type} (names : List (Text × α)) (whole : Bool) : Json → Option α
  | .string s => s.text.bind fun name => (names.find? (·.1 == name)).map (·.2)
  | .number n =>
    if whole then n.toWord?.bind fun w => names[w.toNat]?.map (·.2) else none
  | _ => none

/-- The value of a kind with the given members. -/
def ofSlots? : Kind → List (Option Json) → Option Value
  | .float32, [some (.number n)] => n.scalar?.map fun x => .float32 x.toFloat32
  | .float64, [some (.number n)] => n.scalar?.map fun x => .float64 x.toFloat64
  | .bool, [some (.bool b)] => some (.bool b)
  | .pointer, [some (.number n)] => n.toWord?.map .pointer
  | .bytes, [some (.string s), some (.array items)] => do
    return .bytes (← s.text) (← items.mapM (Json.byte? 0))
  | .string, [some (.string s)] => s.text.map .string
  | .function, [some (.string s)] => s.text.map .function
  | .type, [some (.string s)] => s.text.map .type
  | .object, [some (.string s)] => s.text.map .object
  | _, _ => none

/-- The kinds by name. -/
def kindsByName : List (Text × Kind) :=
  Kind.all.map fun k => (k.name, k)

/-- Read a value; `whole` says that the document around it was taken in whole. -/
def decode? (whole : Bool) : Json.Decoder Value
  | room, .object members => do
    if !Json.isRepresentable room (.object members) then failure
    let named ← Json.named? members
    let kind ← choice? kindsByName whole (← (← Json.member? named "kind"))
    ofSlots? kind (← kind.fields.mapM (Json.member? named))
  | room, .array (tag :: items) => do
    if !Json.isRepresentable room (.array (tag :: items)) then failure
    let kind ← choice? kindsByName whole tag
    if items.length = kind.fields.length then ofSlots? kind (items.map some) else none
  | _, _ => none

/-- The members of a value beside its kind. -/
def jsonFields : Value → List Json
  | .int bits value => [.ofNat bits, .ofInt value]
  | .float32 pattern => [.ofFloat32 pattern]
  | .float64 pattern => [.ofFloat64 pattern]
  | .bool value => [.bool value]
  | .pointer address => [.ofNat address.toNat]
  | .bytes typeName content => [.ofText typeName, .array (content.map fun b => .ofNat b.toNat)]
  | .string content => [.ofText content]
  | .function name => [.ofText name]
  | .type name => [.ofText name]
  | .object typeName => [.ofText typeName]

/-- The kind of a value. -/
def kind : Value → Kind
  | .int .. => .int
  | .float32 _ => .float32
  | .float64 _ => .float64
  | .bool _ => .bool
  | .pointer _ => .pointer
  | .bytes .. => .bytes
  | .string _ => .string
  | .function _ => .function
  | .type _ => .type
  | .object _ => .object

/-- The document of a value. -/
def toJson (v : Value) : Json :=
  .record (("kind", .ofText v.kind.name) :: v.kind.fields.zip v.jsonFields)

end Value

end Freestanding
