import Freestanding.Name
import Freestanding.Text.Utf8
import Freestanding.Value
import Freestanding.Warning

/-!
# Static constants

The static form of a value: an IR type, a constant initialiser and an alignment, from which the lines
that define and declare a symbol are made.  Floating-point initialisers are the bits of the value as a
64-bit number.  Byte strings are written between quotes, with an escape for every byte that is not
printable ASCII or has a meaning of its own there.

## Main definitions

* `Constant` — type, initialiser, alignment.
* `Constant.definition`, `Constant.declaration` — the lines for a symbol.
* `Value.constant?` — the constant of a value.
* `Value.encode` — the same, with the warning and the error that may come with it.
* `Constant.escape` — the escapes of a byte string.
* `Value.widen` — a 32-bit floating-point number as a 64-bit one.
-/

namespace Freestanding

/-- A value in static form. -/
structure Constant where
  /-- The IR type. -/
  type : Text
  /-- The initialiser. -/
  initial : Text
  /-- The alignment in bytes. -/
  align : Nat
  deriving DecidableEq, Repr

namespace Constant

/-- The line that defines a symbol of this name with the constant as its value. -/
def definition (c : Constant) (name : Text) : Text :=
  Name.symbol name ++ " = global " ++ c.type ++ " " ++ c.initial ++ ", align " ++
    Text.decimal c.align

/-- The line that declares a symbol of this name, which is defined elsewhere. -/
def declaration (c : Constant) (name : Text) : Text :=
  Name.symbol name ++ " = external global " ++ c.type ++ ", align " ++ Text.decimal c.align

/-- A byte that stands for itself in a string constant. -/
def isPlainByte (b : UInt8) : Bool :=
  0x20 ≤ b && b < 0x7F && b != 0x22 && b != 0x5C

/-- A byte in a string constant: itself, or a backslash and two hexadecimal digits. -/
def escapeByte (b : UInt8) : Text :=
  if isPlainByte b then [Char.ofNat b.toNat] else '\\' :: Text.hexUpper 2 b.toNat

/-- A byte string in a string constant. -/
def escape (bytes : List UInt8) : Text :=
  bytes.flatMap escapeByte

/-- The constant array of the given bytes. -/
def ofBytes (bytes : List UInt8) : Constant where
  type := "[" ++ Text.decimal bytes.length ++ " x i8]"
  initial := if bytes.isEmpty then "zeroinitializer" else "c\"" ++ escape bytes ++ "\""
  align := 8

end Constant

namespace Value

/-- The bit pattern of a 64-bit floating-point number with the value of a 32-bit one. -/
def widen (pattern : UInt32) : UInt64 :=
  let p := pattern.toNat
  let sign := p >>> 31 <<< 63
  let exponent := p >>> 23 % 256
  let fraction := p % 1 <<< 23
  let magnitude :=
    if exponent = 255 then
      -- infinities keep an empty fraction, and every other pattern is a quiet NaN
      2047 <<< 52 + (if fraction = 0 then 0 else fraction <<< 29 ||| 1 <<< 51)
    else if exponent = 0 then
      -- numbers without a leading bit have one in the wider format
      if fraction = 0 then 0
      else
        let lead := fraction.log2
        (lead + 874) <<< 52 + (fraction - 1 <<< lead) <<< (52 - lead)
    else (exponent + 896) <<< 52 + fraction <<< 29
  (sign + magnitude).toUInt64

/-- The static form of a value. -/
def constant? : Value → Option Constant
  | .int bits value =>
    if bits = 0 ∨ 128 < bits then none
    else some ⟨"i" ++ Text.decimal bits, Text.decimalInt value, min (max (bits / 8) 1) 16⟩
  | .bool value => some ⟨"i8", if value then "1" else "0", 1⟩
  | .float32 pattern => some ⟨"float", "0x" ++ Text.hexUpper 16 (widen pattern).toNat, 4⟩
  | .float64 pattern => some ⟨"double", "0x" ++ Text.hexUpper 16 pattern.toNat, 8⟩
  | .pointer address =>
    let initial : Text :=
      if address = 0 then "null" else "inttoptr (i64 " ++ Text.decimal address.toNat ++ " to ptr)"
    some ⟨"ptr", initial, 8⟩
  | .bytes _ content => some (.ofBytes content)
  | .string content => some (.ofBytes content.encode)
  | .function _ | .type _ | .object _ => none

/-- The warnings about the static form of a value. -/
def encodeWarnings (identifier : Text) : Value → List Warning
  | .pointer address => if address = 0 then [] else [.rawPointer identifier address]
  | _ => []

/-- The static form of a value that is known under an identifier. -/
def encode (identifier : Text) (v : Value) : Attempt Constant :=
  match v.constant? with
  | some c => ExceptT.mk ⟨.ok c, v.encodeWarnings identifier⟩
  | none => throw (.unsupportedValue identifier v.typeName)

end Value

end Freestanding
