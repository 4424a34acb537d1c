import Freestanding.Text.Basic

/-!
# UTF-8

Offsets into a text and the contents of files and heap objects are counted in UTF-8 bytes.  The
decoder is a machine that reads one byte at a time.  Where the bytes are no UTF-8 it reports one
failure per maximal prefix of a character that cannot be completed: `decode?` then refuses the bytes,
and `decodeLossy` puts a replacement character in their place.

## Main definitions

* `Text.byteLength`, `Text.encode` — size and bytes of a text.
* `Utf8.step` — one step of the decoding machine.
* `Text.decode?`, `Text.decodeLossy` — the two readings of a byte string.
-/

namespace Freestanding

/-- The number of bytes of a text. -/
def Text.byteLength : Text → Nat
  | [] => 0
  | c :: t => c.utf8Size + Text.byteLength t

@[simp] theorem Text.byteLength_nil : Text.byteLength [] = 0 := rfl

@[simp] theorem Text.byteLength_cons (c : Char) (t : Text) :
    Text.byteLength (c :: t) = c.utf8Size + Text.byteLength t := rfl

@[simp] theorem Text.byteLength_append (s t : Text) :
    Text.byteLength (s ++ t) = Text.byteLength s + Text.byteLength t := by
  induction s with
  | nil => simp
  | cons c s ih => simp [ih, Nat.add_assoc]

/-- The bytes of a text. -/
def Text.encode (t : Text) : List UInt8 :=
  t.flatMap String.utf8EncodeChar

namespace Utf8

/-- A character of which at least one byte has been read and at least one is missing. -/
structure Unfinished where
  /-- The number of bytes after the next one. -/
  later : Nat
  /-- The least value of the next byte. -/
  low : Nat
  /-- The greatest value of the next byte. -/
  high : Nat
  /-- The bits of the code point read so far. -/
  code : Nat

/-- What the first byte of a character says. -/
inductive Lead
  /-- The byte is a whole character. -/
  | whole (c : Char)
  /-- More bytes follow. -/
  | start (u : Unfinished)
  /-- No character starts with this byte. -/
  | invalid

/-- Classify a byte between two characters. -/
def lead (b : Nat) : Lead :=
  if b < 0x80 then .whole (Char.ofNat b)
  else if 0xC2 ≤ b ∧ b ≤ 0xDF then .start ⟨0, 0x80, 0xBF, b - 0xC0⟩
  else if b = 0xE0 then .start ⟨1, 0xA0, 0xBF, 0⟩
  else if b = 0xED then .start ⟨1, 0x80, 0x9F, 0xD⟩
  else if 0xE1 ≤ b ∧ b ≤ 0xEF then .start ⟨1, 0x80, 0xBF, b - 0xE0⟩
  else if b = 0xF0 then .start ⟨2, 0x90, 0xBF, 0⟩
  else if 0xF1 ≤ b ∧ b ≤ 0xF3 then .start ⟨2, 0x80, 0xBF, b - 0xF0⟩
  else if b = 0xF4 then .start ⟨2, 0x80, 0x8F, 4⟩
  else .invalid

/-- The machine between two bytes: the characters and failures read so far, last one first, and the
character it is in the middle of. -/
structure State where
  /-- What has been read, in reverse; a failure is `none`. -/
  done : List (Option Char) := []
  /-- The character under way. -/
  pending : Option Unfinished := none

/-- Read a byte between two characters. -/
def State.begin (done : List (Option Char)) (b : Nat) : State :=
  match lead b with
  | .whole c => { done := some c :: done }
  | .start u => { done := done, pending := some u }
  | .invalid => { done := none :: done }

/-- Read one byte. -/
def step (s : State) (byte : UInt8) : State :=
  let b := byte.toNat
  match s.pending with
  | none => .begin s.done b
  | some u =>
    if u.low ≤ b ∧ b ≤ u.high then
      let code := u.code * 64 + (b - 0x80)
      match u.later with
      | 0 => { done := some (Char.ofNat code) :: s.done }
      | n + 1 => { done := s.done, pending := some ⟨n, 0x80, 0xBF, code⟩ }
    else .begin (none :: s.done) b

/-- The end of the bytes: a character under way is a failure. -/
def State.finish (s : State) : List (Option Char) :=
  match s.pending with
  | none => s.done.reverse
  | some _ => (none :: s.done).reverse

/-- The characters of a byte string, with `none` for each maximal prefix of a character that is not
completed. -/
def read (bytes : List UInt8) : List (Option Char) :=
  (bytes.foldl step {}).finish

end Utf8

/-- The text with these bytes, if there is one. -/
def Text.decode? (bytes : List UInt8) : Option Text :=
  (Utf8.read bytes).mapM id

/-- The text with these bytes, where U+FFFD stands for every piece that is no UTF-8. -/
def Text.decodeLossy (bytes : List UInt8) : Text :=
  (Utf8.read bytes).map (·.getD '�')

end Freestanding
