import Freestanding.Text.Utf8
import Std.Data.ExtTreeMap

/-!
# Images of the host's memory

An image holds words of eight bytes at some addresses.  Bytes are little-endian parts of the aligned
words, and a word at any other address is put together from its bytes.  What the image does not hold
cannot be read, and no address beyond the last byte of memory exists.

## Main definitions

* `HeapImage` — the words by address.
* `HeapImage.byte?`, `HeapImage.readBytes?`, `HeapImage.readWord?` — reading.
* `HeapImage.writeWord`, `HeapImage.writeBytes` — writing.
* `HeapImage.defineDatatype` and its companions — recording the objects of the host.
-/

namespace Freestanding

/-- Words of the host's memory. -/
structure HeapImage where
  /-- The recorded words; those at multiples of eight can be read. -/
  words : Std.ExtTreeMap UInt64 UInt64 := ∅

namespace Address

/-- The address `n` bytes further on, unless memory ends before. -/
def offset? (a : UInt64) (n : Nat) : Option UInt64 :=
  if a.toNat + n < UInt64.size then some (a + n.toUInt64) else none

/-- The address `n` bytes before, unless memory starts after it. -/
def back? (a : UInt64) (n : Nat) : Option UInt64 :=
  if n ≤ a.toNat then some (a - n.toUInt64) else none

/-- The multiple of eight at or before an address. -/
def aligned (a : UInt64) : UInt64 :=
  a / 8 * 8

end Address

namespace HeapImage

/-! ### Reading -/

/-- The byte of a word at a position, counted from the low end. -/
def byteOf (word position : UInt64) : UInt8 :=
  (word >>> (8 * position)).toUInt8

/-- The byte at an address. -/
def byte? (h : HeapImage) (a : UInt64) : Option UInt8 :=
  h.words[Address.aligned a]?.map fun w => byteOf w (a % 8)

/-- Read `n` bytes, `i` bytes after an address, behind those in `read` (in reverse). -/
def readBytesFrom? (h : HeapImage) (a : UInt64) :
    (n i : Nat) → (read : List UInt8) → Option (List UInt8)
  | 0, _, read => some read.reverse
  | n + 1, i, read =>
    match (Address.offset? a i).bind h.byte? with
    | some b => readBytesFrom? h a n (i + 1) (b :: read)
    | none => none

/-- The `n` bytes from an address on. -/
def readBytes? (h : HeapImage) (a : UInt64) (n : Nat) : Option (List UInt8) :=
  h.readBytesFrom? a n 0 []

/-- The word with the given bytes, the lowest first. -/
def wordOfBytes (bytes : List UInt8) : UInt64 :=
  bytes.foldr (fun b w => w <<< 8 ||| b.toUInt64) 0

/-- The word at an address. -/
def readWord? (h : HeapImage) (a : UInt64) : Option UInt64 :=
  if a % 8 = 0 then h.words[a]? else (h.readBytes? a 8).map wordOfBytes

/-! ### Writing -/

/-- Write a word at a multiple of eight. -/
def writeWord (h : HeapImage) (a w : UInt64) : HeapImage :=
  ⟨h.words.insert (Address.aligned a) w⟩

/-- A word with one byte replaced. -/
def setByte (word position : UInt64) (b : UInt8) : UInt64 :=
  (word &&& ~~~((0xFF : UInt64) <<< (8 * position))) ||| (b.toUInt64 <<< (8 * position))

/-- Write a byte; a word that was not recorded is zero elsewhere. -/
def writeByte (h : HeapImage) (a : UInt64) (b : UInt8) : HeapImage :=
  let base := Address.aligned a
  ⟨h.words.insert base (setByte (h.words.getD base 0) (a % 8) b)⟩

/-- Write bytes from an address on. -/
def writeBytes (h : HeapImage) (a : UInt64) : List UInt8 → HeapImage
  | [] => h
  | b :: bytes => (h.writeByte a b).writeBytes (a + 1) bytes

/-! ### The host's objects -/

/-- The low bits of a header word that are no part of the tag. -/
def tagMask : UInt64 := ~~~0xF

/-- The tag of strings. -/
def stringTag : UInt64 := 320

/-- The greatest tag that is no address of a type descriptor. -/
def smallTagLimit : UInt64 := 1024

/-- Where a type descriptor refers to its parameters. -/
def parametersOffset : Nat := 16

/-- Where a type descriptor refers to its layout. -/
def layoutOffset : Nat := 40

/-- Where a type descriptor has its flags. -/
def flagsOffset : Nat := 48

/-- Where a list of parameters has the element type of a container: after its length and the first
parameter. -/
def elementTypeOffset : Nat := 16

/-- Record a type descriptor with a size and flags; its layout stands 256 bytes further on. -/
def defineDatatype (h : HeapImage) (a size flags : UInt64) : HeapImage :=
  let layout := a + 0x100
  ((h.writeWord (a + layoutOffset.toUInt64) layout).writeWord (a + flagsOffset.toUInt64) flags).writeWord
    layout size

/-- Record a container type with an element type; its parameters stand 128 bytes further on. -/
def defineContainerType (h : HeapImage) (a elementType : UInt64) : HeapImage :=
  let parameters := a + 0x80
  ((h.writeWord (a + parametersOffset.toUInt64) parameters).writeWord parameters 3).writeWord
    (parameters + elementTypeOffset.toUInt64) elementType

/-- Record a string: its tag stands before it, and its length and its bytes in it. -/
def defineString (h : HeapImage) (a : UInt64) (content : Text) : HeapImage :=
  let bytes := content.encode
  ((h.writeWord (a - 8) stringTag).writeWord a bytes.length.toUInt64).writeBytes (a + 8) bytes

/-- Record a value of a type with a fixed layout: its tag stands before it. -/
def defineBoxed (h : HeapImage) (a datatype : UInt64) (content : List UInt8) : HeapImage :=
  (h.writeWord (a - 8) datatype).writeBytes a content

end HeapImage

end Freestanding
