import Freestanding.Text.Number

/-!
# Values of the host

A value found in a cell of the host, or read out of its memory.  Floating-point values are kept as
their bit patterns.

## Main definitions

* `Value` — the type.
* `Value.typeName` — the name of its type in messages.
* `Value.isStorable` — it can live in a cell of its own.
-/

namespace Freestanding

/-- A value of the host. -/
inductive Value
  /-- An integer of a fixed width in bits. -/
  | int (bits : Nat) (value : Int)
  /-- A 32-bit floating-point number. -/
  | float32 (pattern : UInt32)
  /-- A 64-bit floating-point number. -/
  | float64 (pattern : UInt64)
  /-- A truth value. -/
  | bool (value : Bool)
  /-- An address. -/
  | pointer (address : UInt64)
  /-- The bytes of a value with a fixed layout. -/
  | bytes (typeName : Text) (content : List UInt8)
  /-- A string. -/
  | string (content : Text)
  /-- A function. -/
  | function (name : Text)
  /-- A type. -/
  | type (name : Text)
  /-- Any other object. -/
  | object (typeName : Text)
  deriving DecidableEq, Repr

namespace Value

/-- A 64-bit integer. -/
def int64 (n : Int) : Value :=
  .int 64 n

/-- The name of a value's type. -/
def typeName : Value → Text
  | .int bits _ => "Int" ++ Text.decimal bits
  | .float32 _ => "Float32"
  | .float64 _ => "Float64"
  | .bool _ => "Bool"
  | .pointer _ => "Ptr"
  | .bytes typeName _ => typeName
  | .string _ => "String"
  | .function name => "typeof(" ++ name ++ ")"
  | .type _ => "DataType"
  | .object typeName => typeName

/-- A value that can become a static cell of its own: neither a function, nor a type, nor a string. -/
def isStorable : Value → Bool
  | .function _ | .type _ | .string _ => false
  | _ => true

end Value

end Freestanding
