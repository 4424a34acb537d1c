import Freestanding.Heap.Image
import Freestanding.Value

/-!
# Objects in the host's memory

An object has its type tag in the word before it.  A type descriptor leads to the size of its values,
and the descriptor of a container type to the layout of its elements.  From a tag and a size a value
can be rebuilt.  The words that are followed on the way may be anything, so every step may fail.

## Main definitions

* `Layout` — how a container holds its elements.
* `HeapImage.tag?`, `HeapImage.datatypeSize?`, `HeapImage.layout?` — following the words.
* `HeapImage.reconstruct?` — the value at an address.
-/

namespace Freestanding

/-- How a container holds its elements. -/
structure Layout where
  /-- The elements are objects of their own, held by reference. -/
  boxed : Bool
  /-- The size of an element that is held in place. -/
  elementSize : UInt64
  deriving DecidableEq, Repr

namespace Layout

/-- Elements of a fixed size, held in place. -/
def inPlace (elementSize : UInt64) : Layout :=
  ⟨false, elementSize⟩

/-- Elements held by reference. -/
def byReference : Layout :=
  ⟨true, 0⟩

end Layout

namespace HeapImage

/-- The tag of the object at an address. -/
def tag? (h : HeapImage) (a : UInt64) : Option UInt64 := do
  let w ← h.readWord? (← Address.back? a 8)
  return w &&& tagMask

/-- The size of the values of a type, given the address of its descriptor. -/
def datatypeSize? (h : HeapImage) (datatype : UInt64) : Option UInt64 := do
  let layout ← h.readWord? (← Address.offset? datatype layoutOffset)
  if layout = 0 then none
  else return (← h.readWord? layout) &&& 0xFFFFFFFF

/-- The element layout of a container type, given the address of its descriptor. -/
def layout? (h : HeapImage) (container : UInt64) : Option Layout := do
  let parameters ← h.readWord? (← Address.offset? container parametersOffset)
  let elementType ← h.readWord? (← Address.offset? parameters elementTypeOffset)
  let flags ← h.readWord? (← Address.offset? elementType flagsOffset)
  -- the two lowest flags mark abstract and mutable types
  if flags &&& 3 ≠ 0 then return .byReference
  else return .inPlace (← h.datatypeSize? elementType)

/-- The greatest number of bytes of a value that is rebuilt. -/
def maxObjectSize : Nat := 1048576

/-- The value at an address: a string, or the bytes of a value of some type of fixed size. -/
def reconstruct? (h : HeapImage) (a : UInt64) : Option Value := do
  let tag ← h.tag? a
  if tag = stringTag then
    let length ← h.readWord? a
    if maxObjectSize < length.toNat then none
    else
      let bytes ← h.readBytes? (← Address.offset? a 8) length.toNat
      return .string (Text.decodeLossy bytes)
  else if smallTagLimit < tag then
    let size ← h.datatypeSize? tag
    if size = 0 ∨ maxObjectSize < size.toNat then none
    else
      let bytes ← h.readBytes? a size.toNat
      return .bytes ("type@0x" ++ Text.hex tag.toNat) bytes
  else none

end HeapImage

end Freestanding
