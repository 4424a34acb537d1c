import Freestanding.Proofs.Heap.Recording
import Mathlib.Algebra.Order.Ring.Int

/-!
# Reading never wraps around

The words of an image may be anything, and reading follows them: it adds offsets to them, takes them for
lengths and for addresses of further words.  Addresses have 64 bits, so a sum may pass the end of memory, and
a difference its start.  This module reads the same image by integers, which have no end.  Places below zero
and from `2 ^ 64` on exist there like all others, but nothing can be read from them.

Both ways of reading agree, with one exception.  A string whose length is the very last word of memory has
its content behind the end.  If it is empty, no byte of it has to be read, so by integers it can be rebuilt.
By addresses it cannot: there is no address for its content.

## Main definitions

* `HeapImage.Endless.word?` and its companions — reading an image by integers.
* `HeapImage.EndsEmpty` — the last word of memory is the length of an empty string.
* `HeapImage.Extent`, `HeapImage.extent?` — where the bytes of an object stand, and what they make.

## Main results

* `HeapImage.Endless.readWord?_of_outside` — nothing is read outside of memory.
* `HeapImage.map_readBytes?`, `HeapImage.map_readWord?` — bytes and words agree.
* `HeapImage.reconstruct?_eq_copy` — an object is rebuilt from the bytes of its extent.
* `HeapImage.reads_endless` — **addresses of 64 bits give what integers give.**
* `HeapImage.lastString_ne_endless` — the exception.
-/

namespace Freestanding.HeapImage

open Address

/-! ### Reading by integers -/

namespace Endless

/-- A word as an integer. -/
def ofWord (w : UInt64) : Int :=
  w.toNat

/-- A byte as an integer. -/
def ofByte (b : UInt8) : Int :=
  b.toNat

section

variable (h : HeapImage)

/-- The word that is recorded at a place; outside of memory there is none. -/
def word? (x : Int) : Option Int :=
  if 0 ≤ x ∧ x < 2 ^ 64 then h.words[x.toNat.toUInt64]?.map ofWord else none

/-- The byte at a place, which is a digit of the word around it. -/
def byte? (x : Int) : Option Int :=
  (word? h (x - x % 8)).map fun w => w / 256 ^ (x % 8).toNat % 256

/-- The `n` bytes from a place on. -/
def readBytes? (x : Int) : (n : Nat) → Option (List Int)
  | 0 => some []
  | n + 1 => do return (← byte? h x) :: (← readBytes? (x + 1) n)

/-- The integer with the given digits to base 256, the lowest first. -/
def ofDigits (digits : List Int) : Int :=
  digits.foldr (fun b w => b + 256 * w) 0

/-- The word at a place. -/
def readWord? (x : Int) : Option Int :=
  if x % 8 = 0 then word? h x else (readBytes? h x 8).map ofDigits

/-- The tag of the object at a place. -/
def tag? (x : Int) : Option Int := do
  return (← readWord? h (x - 8)) / 16 * 16

/-- The size of the values of a type. -/
def datatypeSize? (datatype : Int) : Option Int := do
  let layout ← readWord? h (datatype + 40)
  if layout = 0 then none
  else return (← readWord? h layout) % 2 ^ 32

/-- The element layout of a container type: whether its elements are held by reference, and their size in
place. -/
def layout? (container : Int) : Option (Bool × Int) := do
  let parameters ← readWord? h (container + 16)
  let elementType ← readWord? h (parameters + 16)
  let flags ← readWord? h (elementType + 48)
  if flags % 4 ≠ 0 then return (true, 0)
  else return (false, ← datatypeSize? h elementType)

/-- The value at a place. -/
def reconstruct? (x : Int) : Option Value := do
  let tag ← tag? h x
  if tag = 320 then
    let length ← readWord? h x
    if 2 ^ 20 < length then none
    else
      let bytes ← readBytes? h (x + 8) length.toNat
      return .string (Text.decodeLossy (bytes.map fun b => b.toNat.toUInt8))
  else if 1024 < tag then
    let size ← datatypeSize? h tag
    if size = 0 ∨ 2 ^ 20 < size then none
    else
      let bytes ← readBytes? h x size.toNat
      return .bytes ("type@0x" ++ Text.hex tag.toNat) (bytes.map fun b => b.toNat.toUInt8)
  else none

/-! ### Outside of memory -/

variable {h} {x : Int} (hx : x < 0 ∨ 2 ^ 64 ≤ x)
include hx

theorem word?_of_outside : word? h x = none :=
  if_neg (by omega)

theorem byte?_of_outside : byte? h x = none := by
  -- memory ends between two words
  have hword : x - x % 8 < 0 ∨ 2 ^ 64 ≤ x - x % 8 := by omega
  rw [byte?, word?_of_outside hword, Option.map_none]

theorem readBytes?_of_outside {n : Nat} (hn : n ≠ 0) : readBytes? h x n = none := by
  obtain ⟨n, rfl⟩ := Nat.exists_eq_succ_of_ne_zero hn
  rw [readBytes?, byte?_of_outside hx]
  rfl

/-- Nothing is read outside of memory. -/
theorem readWord?_of_outside : readWord? h x = none := by
  rw [readWord?]
  split
  · exact word?_of_outside hx
  · rw [readBytes?_of_outside hx (by decide), Option.map_none]

omit hx

/-- A range that can be read does not pass the end of memory, if it is not empty. -/
theorem le_of_readBytes? {n : Nat} {bytes : List Int} (hread : readBytes? h x n = some bytes) :
    n = 0 ∨ x + n ≤ 2 ^ 64 := by
  induction n generalizing x bytes with
  | zero => exact .inl rfl
  | succ n ih =>
    rw [readBytes?] at hread
    obtain ⟨b, hb, hread⟩ := Option.bind_eq_some_iff.mp hread
    obtain ⟨rest, hrest, -⟩ := Option.bind_eq_some_iff.mp hread
    have hx : x < 2 ^ 64 := by
      by_contra hx
      rw [byte?_of_outside (.inr (not_lt.mp hx))] at hb
      cases hb
    have hle := ih hrest
    refine .inr ?_
    push_cast
    omega

end

end Endless

open Endless (ofWord ofByte ofDigits)

/-! ### Words and bytes as integers -/

private theorem ofWord_nonneg (w : UInt64) : 0 ≤ ofWord w :=
  Int.natCast_nonneg _

private theorem ofWord_lt (w : UInt64) : ofWord w < 2 ^ 64 := by
  have := w.toNat_lt
  rw [ofWord]
  omega

theorem ofWord_add {a : UInt64} {n : Nat} (hlt : a.toNat + n < UInt64.size) :
    ofWord (a + n.toUInt64) = ofWord a + n := by
  rw [ofWord, ofWord, toNat_add hlt, Nat.cast_add]

theorem outside_of_size_le {x : Nat} (hx : UInt64.size ≤ x) : (x : Int) < 0 ∨ 2 ^ 64 ≤ (x : Int) := by
  simp only [UInt64.size] at hx
  omega

theorem toNat_byteOf (w : UInt64) {p : UInt64} (hp : p.toNat < 8) :
    (byteOf w p).toNat = w.toNat / 256 ^ p.toNat % 256 := by
  have hshift : (8 * p).toNat % 64 = 8 * p.toNat := by
    rw [UInt64.toNat_mul]
    simp only [UInt64.toNat_ofNat]
    omega
  rw [byteOf, UInt64.toNat_toUInt8, UInt64.toNat_shiftRight, hshift, Nat.shiftRight_eq_div_pow, Nat.pow_mul]

private theorem ofByte_byteOf (w : UInt64) {p : UInt64} (hp : p.toNat < 8) :
    ofByte (byteOf w p) = ofWord w / 256 ^ p.toNat % 256 := by
  rw [ofByte, ofWord, toNat_byteOf w hp]
  push_cast
  rfl

private theorem toNat_shiftLeft_or {w : UInt64} (hw : w.toNat < 256 ^ 7) (b : UInt8) :
    (w <<< 8 ||| b.toUInt64).toNat = b.toNat + 256 * w.toNat := by
  have hb : b.toNat < 2 ^ 8 := b.toNat_lt
  have hshift : (w <<< 8).toNat = w.toNat <<< 8 := by
    rw [UInt64.toNat_shiftLeft]
    change w.toNat <<< 8 % 2 ^ 64 = _
    rw [Nat.shiftLeft_eq]
    omega
  rw [UInt64.toNat_or, hshift, UInt8.toNat_toUInt64, ← Nat.shiftLeft_add_eq_or_of_lt hb, Nat.shiftLeft_eq]
  omega

theorem toNat_wordOfBytes_cons_of_lt {bytes : List UInt8} (hlt : (wordOfBytes bytes).toNat < 256 ^ bytes.length)
    (hlen : bytes.length < 8) (b : UInt8) :
    (wordOfBytes (b :: bytes)).toNat = b.toNat + 256 * (wordOfBytes bytes).toNat := by
  have hseven : (wordOfBytes bytes).toNat < 256 ^ 7 :=
    Nat.lt_of_lt_of_le hlt (Nat.pow_le_pow_right (by decide) (by omega))
  exact toNat_shiftLeft_or hseven b

/-- Up to eight bytes make a word that has no other digits. -/
theorem toNat_wordOfBytes_lt {bytes : List UInt8} (hlen : bytes.length ≤ 8) :
    (wordOfBytes bytes).toNat < 256 ^ bytes.length := by
  induction bytes with
  | nil => decide
  | cons b bytes ih =>
    rw [List.length_cons] at hlen
    have hb : b.toNat < 256 := b.toNat_lt
    have hlt := ih (by omega)
    rw [toNat_wordOfBytes_cons_of_lt hlt (by omega), List.length_cons, Nat.pow_succ]
    omega

/-- Up to eight bytes make a word without a carry. -/
theorem toNat_wordOfBytes_cons {b : UInt8} {bytes : List UInt8} (hlen : bytes.length < 8) :
    (wordOfBytes (b :: bytes)).toNat = b.toNat + 256 * (wordOfBytes bytes).toNat :=
  toNat_wordOfBytes_cons_of_lt (toNat_wordOfBytes_lt (by omega)) hlen b

private theorem ofWord_wordOfBytes {bytes : List UInt8} (hlen : bytes.length ≤ 8) :
    ofWord (wordOfBytes bytes) = ofDigits (bytes.map ofByte) := by
  induction bytes with
  | nil => rfl
  | cons b bytes ih =>
    rw [List.length_cons] at hlen
    have hdigits := ih (by omega)
    rw [ofWord, toNat_wordOfBytes_cons (by omega), List.map_cons]
    change _ = ofByte b + 256 * ofDigits (bytes.map ofByte)
    rw [← hdigits, ofByte, ofWord]
    push_cast
    rfl

private theorem ofWord_and_tagMask (w : UInt64) : ofWord (w &&& tagMask) = ofWord w / 16 * 16 := by
  have hlt := w.toNat_lt
  have hlow : (w &&& tagMask).toNat % 2 ^ 4 = 0 := by
    rw [UInt64.toNat_and, Nat.and_mod_two_pow]
    exact Nat.and_zero _
  have hhigh : (w &&& tagMask).toNat >>> 4 = w.toNat >>> 4 := by
    have hmask : tagMask.toNat >>> 4 = 2 ^ 60 - 1 := by decide
    rw [UInt64.toNat_and, Nat.shiftRight_and_distrib, hmask, Nat.and_two_pow_sub_one_eq_mod,
      Nat.shiftRight_eq_div_pow]
    omega
  rw [Nat.shiftRight_eq_div_pow, Nat.shiftRight_eq_div_pow] at hhigh
  rw [ofWord, ofWord]
  omega

private theorem ofWord_and_low (w : UInt64) : ofWord (w &&& 0xFFFFFFFF) = ofWord w % 2 ^ 32 := by
  rw [and_low_word, ofWord, ofWord, UInt64.toNat_mod]
  push_cast
  rfl

theorem and_three_eq_zero_iff (w : UInt64) : w &&& 3 = 0 ↔ ofWord w % 4 = 0 := by
  have hmod : (w &&& 3).toNat = w.toNat % 4 := by
    rw [UInt64.toNat_and]
    exact Nat.and_two_pow_sub_one_eq_mod w.toNat 2
  rw [← UInt64.toNat_inj, hmod, ofWord]
  change w.toNat % 4 = 0 ↔ _
  omega

theorem ofWord_eq_iff (w w' : UInt64) : ofWord w = ofWord w' ↔ w = w' := by
  rw [ofWord, ofWord, Int.natCast_inj, UInt64.toNat_inj]

/-! ### Bytes and words agree -/

section

variable (h : HeapImage)

theorem map_words (a : UInt64) : h.words[a]?.map ofWord = Endless.word? h (ofWord a) := by
  rw [Endless.word?, if_pos ⟨ofWord_nonneg a, ofWord_lt a⟩, ofWord, Int.toNat_natCast, Nat.toUInt64,
    UInt64.ofNat_toNat]

private theorem map_byteAt? (x : Nat) : (h.byteAt? x).map ofByte = Endless.byte? h x := by
  by_cases hx : x < UInt64.size
  · have hplace : x.toUInt64.toNat = x := UInt64.toNat_ofNat_of_lt' hx
    have hword : (x : Int) - x % 8 = ofWord (aligned x.toUInt64) := by
      rw [ofWord, toNat_aligned, hplace]
      omega
    have hdigit : (x % 8 : Int).toNat = (x.toUInt64 % 8).toNat := by
      rw [toNat_mod_eight, hplace]
      omega
    rw [byteAt?, if_pos hx, HeapImage.byte?, Endless.byte?, hword, hdigit, ← map_words, Option.map_map,
      Option.map_map]
    refine congrArg (Option.map · _) (funext fun w => ofByte_byteOf w ?_)
    rw [toNat_mod_eight]
    omega
  · have hbeyond : UInt64.size ≤ x := Nat.not_lt.mp hx
    rw [byteAt?_of_size_le h hbeyond, Endless.byte?_of_outside (outside_of_size_le hbeyond), Option.map_none]

private theorem map_mapM_byteAt? (x n : Nat) :
    ((List.range' x n).mapM h.byteAt?).map (List.map ofByte) = Endless.readBytes? h x n := by
  induction n generalizing x with
  | zero => rfl
  | succ n ih =>
    rw [List.range'_succ, List.mapM_cons, Endless.readBytes?, ← map_byteAt?]
    have hnext : ((x + 1 : Nat) : Int) = x + 1 := Int.natCast_succ x
    rw [← hnext, ← ih]
    cases h.byteAt? x with
    | none => rfl
    | some b =>
      cases (List.range' (x + 1) n).mapM h.byteAt? with
      | none => rfl
      | some bytes => rfl

/-- The same bytes are read. -/
theorem map_readBytes? (a : UInt64) (n : Nat) :
    (h.readBytes? a n).map (List.map ofByte) = Endless.readBytes? h (ofWord a) n := by
  rw [readBytes?_eq_mapM]
  exact map_mapM_byteAt? h a.toNat n

/-- The same words are read. -/
theorem map_readWord? (a : UInt64) : (h.readWord? a).map ofWord = Endless.readWord? h (ofWord a) := by
  have haligned : a % 8 = 0 ↔ ofWord a % 8 = 0 := by
    rw [← UInt64.toNat_inj, toNat_mod_eight, ofWord]
    change a.toNat % 8 = 0 ↔ _
    omega
  by_cases ha : a % 8 = 0
  · rw [HeapImage.readWord?, if_pos ha, Endless.readWord?, if_pos (haligned.mp ha), map_words]
  · rw [HeapImage.readWord?, if_neg ha, Endless.readWord?, if_neg fun hzero => ha (haligned.mpr hzero),
      ← map_readBytes?]
    cases hbytes : h.readBytes? a 8 with
    | none => rfl
    | some bytes =>
      exact congrArg some (ofWord_wordOfBytes (Nat.le_of_eq (length_of_readBytes? hbytes)))

/-! ### Walks agree -/

theorem map_bind_eq {α β γ δ : Type} {x : Option α} {y : Option β} {f : α → β} {g : γ → δ}
    {k : α → Option γ} {k' : β → Option δ} (hx : x.map f = y)
    (hk : ∀ v, x = some v → (k v).map g = k' (f v)) : (x >>= k).map g = y >>= k' := by
  subst hx
  cases x with
  | none => rfl
  | some v => exact hk v rfl

theorem map_ite_eq {α β : Type} {c c' : Prop} [Decidable c] [Decidable c'] {x y : Option α} {x' y' : Option β}
    {g : α → β} (hc : c ↔ c') (hx : c → x.map g = x') (hy : ¬ c → y.map g = y') :
    (if c then x else y).map g = if c' then x' else y' := by
  by_cases h : c
  · rw [if_pos h, if_pos (hc.mp h), hx h]
  · rw [if_neg h, if_neg (not_congr hc |>.mp h), hy h]

/-- A word some bytes further on.  The sum may pass the end of memory, but then nothing is read. -/
theorem map_bind_offset? (a : UInt64) (n : Nat) :
    (offset? a n >>= h.readWord?).map ofWord = Endless.readWord? h (ofWord a + n) := by
  by_cases hlt : a.toNat + n < UInt64.size
  · rw [offset?_eq hlt, ← ofWord_add hlt, ← map_readWord?]
    rfl
  · have hout := outside_of_size_le (Nat.not_lt.mp hlt)
    rw [Nat.cast_add] at hout
    rw [offset?, if_neg hlt, ofWord, Endless.readWord?_of_outside hout]
    rfl

/-- A word some bytes before.  The difference may pass the start of memory, but then nothing is read. -/
theorem map_bind_back? (a : UInt64) :
    (back? a 8 >>= h.readWord?).map ofWord = Endless.readWord? h (ofWord a - 8) := by
  by_cases hle : 8 ≤ a.toNat
  · have hdifference : ofWord (a - 8) = ofWord a - 8 := by
      rw [ofWord, ofWord, Recording.toNat_sub_eight hle]
      omega
    rw [back?_eq hle, ← hdifference, ← map_readWord?]
    rfl
  · rw [back?, if_neg hle, Endless.readWord?_of_outside]
    · rfl
    · refine .inl ?_
      rw [ofWord]
      omega

theorem map_tag? (a : UInt64) : (h.tag? a).map ofWord = Endless.tag? h (ofWord a) := by
  rw [HeapImage.tag?, ← bind_assoc]
  refine map_bind_eq (map_bind_back? h a) fun w _ => ?_
  exact congrArg some (ofWord_and_tagMask w)

theorem map_datatypeSize? (d : UInt64) :
    (h.datatypeSize? d).map ofWord = Endless.datatypeSize? h (ofWord d) := by
  rw [HeapImage.datatypeSize?, ← bind_assoc]
  refine map_bind_eq (map_bind_offset? h d 40) fun layout _ => ?_
  refine map_ite_eq (ofWord_eq_iff layout 0).symm (fun _ => rfl) fun _ => ?_
  refine map_bind_eq (map_readWord? h layout) fun w _ => ?_
  exact congrArg some (ofWord_and_low w)

private theorem map_layout? (c : UInt64) :
    (h.layout? c).map (fun l => (l.boxed, ofWord l.elementSize)) = Endless.layout? h (ofWord c) := by
  rw [HeapImage.layout?, ← bind_assoc]
  refine map_bind_eq (map_bind_offset? h c 16) fun parameters _ => ?_
  rw [← bind_assoc]
  refine map_bind_eq (map_bind_offset? h parameters 16) fun elementType _ => ?_
  rw [← bind_assoc]
  refine map_bind_eq (map_bind_offset? h elementType 48) fun flags _ => ?_
  refine map_ite_eq (not_congr (and_three_eq_zero_iff flags)) (fun _ => rfl) fun _ => ?_
  exact map_bind_eq (map_datatypeSize? h elementType) fun _ _ => rfl

/-! ### Objects -/

/-- The last word of memory is the length of an empty string. -/
def EndsEmpty (a : UInt64) : Prop :=
  a.toNat + 8 = UInt64.size ∧ h.tag? a = some stringTag ∧ h.readWord? a = some 0

private theorem map_toUInt8_map_ofByte (bytes : List UInt8) :
    (bytes.map ofByte).map (fun b => b.toNat.toUInt8) = bytes := by
  rw [List.map_map]
  refine (List.map_congr_left fun b _ => ?_).trans (List.map_id bytes)
  simp [ofByte]

/-- A word that can be read does not pass the end of memory. -/
theorem le_size_of_readWord? {a w : UInt64} (hread : h.readWord? a = some w) : a.toNat + 8 ≤ UInt64.size := by
  have hlt := a.toNat_lt
  change a.toNat + 8 ≤ 2 ^ 64
  by_cases ha : a.toNat % 8 = 0
  · omega
  · have hmod : a % 8 ≠ 0 := fun hzero => ha (by rw [← toNat_mod_eight, hzero]; rfl)
    rw [HeapImage.readWord?, if_neg hmod] at hread
    obtain ⟨bytes, hbytes, -⟩ := Option.map_eq_some_iff.mp hread
    have hendless := map_readBytes? h a 8
    rw [hbytes, Option.map_some] at hendless
    have hle := Endless.le_of_readBytes? hendless.symm
    rw [ofWord] at hle
    omega

/-- The bytes some way further on.  The sum may pass the end of memory, and then nothing is read, provided
that there is something to be read. -/
theorem map_bind_offset?_readBytes? {a : UInt64} {n : Nat} (hn : n = 0 → a.toNat + 8 < UInt64.size) :
    (offset? a 8 >>= fun start => h.readBytes? start n).map (List.map ofByte) =
      Endless.readBytes? h (ofWord a + 8) n := by
  by_cases hlt : a.toNat + 8 < UInt64.size
  · have hsum : ofWord (a + 8) = ofWord a + 8 := ofWord_add hlt
    rw [offset?_eq hlt, ← hsum, ← map_readBytes?]
    rfl
  · have hout := outside_of_size_le (Nat.not_lt.mp hlt)
    rw [Nat.cast_add, Nat.cast_ofNat] at hout
    rw [offset?, if_neg hlt, ofWord, Endless.readBytes?_of_outside hout fun hzero => hlt (hn hzero)]
    rfl

/-- The same objects are rebuilt, unless the last word of memory is the length of an empty string. -/
theorem reconstruct?_eq_endless {a : UInt64} (hend : ¬ h.EndsEmpty a) :
    h.reconstruct? a = Endless.reconstruct? h (ofWord a) := by
  have hmax : ∀ n : UInt64, maxObjectSize < n.toNat ↔ 2 ^ 20 < ofWord n := by
    intro n
    rw [maxObjectSize, ofWord]
    omega
  suffices hmap : (h.reconstruct? a).map id = Endless.reconstruct? h (ofWord a) by
    rwa [Option.map_id, id] at hmap
  rw [HeapImage.reconstruct?]
  refine map_bind_eq (map_tag? h a) fun tag htag => ?_
  refine map_ite_eq (ofWord_eq_iff tag stringTag).symm (fun hstring => ?_) fun _ => ?_
  · refine map_bind_eq (map_readWord? h a) fun length hlength => ?_
    refine map_ite_eq (hmax length) (fun _ => rfl) fun _ => ?_
    have hspace : length.toNat = 0 → a.toNat + 8 < UInt64.size := by
      intro hzero
      refine Nat.lt_of_le_of_ne (h.le_size_of_readWord? hlength) fun he => hend ⟨he, hstring ▸ htag, ?_⟩
      exact hlength.trans (congrArg some (UInt64.toNat_inj.mp hzero))
    rw [← bind_assoc]
    refine map_bind_eq (map_bind_offset?_readBytes? h hspace) fun bytes _ => ?_
    rw [map_toUInt8_map_ofByte]
    rfl
  · have hlimit : smallTagLimit < tag ↔ 1024 < ofWord tag := by
      rw [UInt64.lt_iff_toNat_lt, ofWord]
      change 1024 < tag.toNat ↔ _
      omega
    refine map_ite_eq hlimit (fun _ => ?_) fun _ => rfl
    refine map_bind_eq (map_datatypeSize? h tag) fun size _ => ?_
    refine map_ite_eq (or_congr (ofWord_eq_iff size 0).symm (hmax size)) (fun _ => rfl) fun _ => ?_
    refine map_bind_eq (map_readBytes? h a size.toNat) fun bytes _ => ?_
    rw [map_toUInt8_map_ofByte]
    rfl

/-- The empty string at the end of memory can be rebuilt by integers only. -/
theorem reconstruct?_of_endsEmpty {a : UInt64} (hend : h.EndsEmpty a) :
    h.reconstruct? a = none ∧ Endless.reconstruct? h (ofWord a) = some (.string []) := by
  obtain ⟨ha, htag, hlength⟩ := hend
  constructor
  · have hoffset : offset? a 8 = none := if_neg (Nat.not_lt.mpr (Nat.le_of_eq ha.symm))
    rw [HeapImage.reconstruct?, htag]
    change (h.readWord? a >>= _) = none
    rw [hlength]
    change (offset? a 8 >>= _) = none
    rw [hoffset]
    rfl
  · rw [Endless.reconstruct?, ← map_tag?, htag, ← map_readWord?, hlength]
    rfl

/-! ### Copies -/

/-- The bytes of an object. -/
structure Extent where
  /-- The address of the first one. -/
  start : UInt64
  /-- Their number. -/
  length : Nat
  /-- The value that they make. -/
  value : List UInt8 → Value

/-- Where the bytes of an object stand, and what they make.  None of them is read for that. -/
def extent? (a : UInt64) : Option Extent := do
  let tag ← h.tag? a
  if tag = stringTag then
    let length ← h.readWord? a
    if maxObjectSize < length.toNat then none
    else return ⟨← offset? a 8, length.toNat, fun bytes => .string (Text.decodeLossy bytes)⟩
  else if smallTagLimit < tag then
    let size ← h.datatypeSize? tag
    if size = 0 ∨ maxObjectSize < size.toNat then none
    else return ⟨a, size.toNat, .bytes ("type@0x" ++ Text.hex tag.toNat)⟩
  else none

/-- Copy the bytes of an object. -/
def copy? (e : Extent) : Option Value :=
  (h.readBytes? e.start e.length).map e.value

/-- An object is rebuilt from the bytes of its extent. -/
theorem reconstruct?_eq_copy (a : UInt64) : h.reconstruct? a = h.extent? a >>= h.copy? := by
  rw [HeapImage.reconstruct?, extent?, bind_assoc]
  refine bind_congr fun tag => ?_
  split
  · rw [bind_assoc]
    refine bind_congr fun length => ?_
    split
    · rfl
    · rw [bind_assoc]
      refine bind_congr fun start => ?_
      rw [pure_bind, copy?, Option.map_eq_bind]
      rfl
  · split
    · rw [bind_assoc]
      refine bind_congr fun size => ?_
      split
      · rfl
      · rw [pure_bind, copy?, Option.map_eq_bind]
        rfl
    · rfl

theorem length_le_of_extent? {a : UInt64} {e : Extent} (he : h.extent? a = some e) :
    e.length ≤ maxObjectSize := by
  obtain ⟨tag, -, he⟩ := Option.bind_eq_some_iff.mp he
  split at he
  · obtain ⟨length, -, he⟩ := Option.bind_eq_some_iff.mp he
    split at he
    · cases he
    · next hmax =>
      obtain ⟨start, -, he⟩ := Option.bind_eq_some_iff.mp he
      rw [← Option.some.inj he]
      exact Nat.not_lt.mp hmax
  · split at he
    · obtain ⟨size, -, he⟩ := Option.bind_eq_some_iff.mp he
      split at he
      · cases he
      · next hmax =>
        rw [← Option.some.inj he]
        exact Nat.not_lt.mp fun hlt => hmax (.inr hlt)
    · cases he

end

/-- **Addresses of 64 bits give what integers give.**  Whatever an image holds, bytes, tags, sizes and
layouts are the same whether they are read by addresses or by integers, where nothing can be read below zero
and from `2 ^ 64` on.  So are objects, except for an empty string whose length is the last word of memory:
by addresses it is not there, because its content has none, and by integers it is.  An object is rebuilt
from one copy of no more than a mebibyte. -/
theorem reads_endless (h : HeapImage) (a : UInt64) :
    (∀ n, (h.readBytes? a n).map (List.map ofByte) = Endless.readBytes? h (ofWord a) n) ∧
    (h.tag? a).map ofWord = Endless.tag? h (ofWord a) ∧
    (h.datatypeSize? a).map ofWord = Endless.datatypeSize? h (ofWord a) ∧
    (h.layout? a).map (fun l => (l.boxed, ofWord l.elementSize)) = Endless.layout? h (ofWord a) ∧
    (¬ h.EndsEmpty a → h.reconstruct? a = Endless.reconstruct? h (ofWord a)) ∧
    (h.EndsEmpty a → h.reconstruct? a = none ∧ Endless.reconstruct? h (ofWord a) = some (.string [])) ∧
    h.reconstruct? a = (h.extent? a >>= h.copy?) ∧
    ∀ e, h.extent? a = some e → e.length ≤ 2 ^ 20 :=
  ⟨map_readBytes? h a, map_tag? h a, map_datatypeSize? h a, map_layout? h a, reconstruct?_eq_endless h,
    reconstruct?_of_endsEmpty h, reconstruct?_eq_copy h a, fun _ he => length_le_of_extent? h he⟩

/-- A string whose length is the last word of memory. -/
def lastString (length : UInt64) : HeapImage :=
  (({} : HeapImage).writeWord 0xFFFFFFFFFFFFFFF0 stringTag).writeWord 0xFFFFFFFFFFFFFFF8 length

theorem endsEmpty_lastString : (lastString 0).EndsEmpty 0xFFFFFFFFFFFFFFF8 :=
  ⟨by decide, by decide +kernel, by decide +kernel⟩

/-- If it is empty, it is read by integers only. -/
theorem lastString_ne_endless : (lastString 0).reconstruct? 0xFFFFFFFFFFFFFFF8 ≠
    Endless.reconstruct? (lastString 0) (ofWord 0xFFFFFFFFFFFFFFF8) := by
  obtain ⟨hnone, hsome⟩ := reconstruct?_of_endsEmpty _ endsEmpty_lastString
  rw [hnone, hsome]
  exact (Option.some_ne_none _).symm

/-- With four bytes it is not read either way, for the bytes would stand behind the end of memory. -/
theorem reads_endless_lastString : ¬ (lastString 4).EndsEmpty 0xFFFFFFFFFFFFFFF8 ∧
    (lastString 4).reconstruct? 0xFFFFFFFFFFFFFFF8 = none ∧
    Endless.reconstruct? (lastString 4) (ofWord 0xFFFFFFFFFFFFFFF8) = none ∧
    (lastString 0).reconstruct? 0xFFFFFFFFFFFFFFF8 = none := by
  have hlength : (lastString 4).readWord? 0xFFFFFFFFFFFFFFF8 = some 4 := by decide +kernel
  have hnone : (lastString 4).reconstruct? 0xFFFFFFFFFFFFFFF8 = none := by decide +kernel
  have hend : ¬ (lastString 4).EndsEmpty 0xFFFFFFFFFFFFFFF8 := by
    rintro ⟨-, -, hzero⟩
    rw [hlength] at hzero
    exact absurd (Option.some.inj hzero) (by decide)
  obtain ⟨-, -, -, -, hsame, -⟩ := reads_endless (lastString 4) 0xFFFFFFFFFFFFFFF8
  obtain ⟨-, -, -, -, -, hempty, -⟩ := reads_endless (lastString 0) 0xFFFFFFFFFFFFFFF8
  exact ⟨hend, hnone, (hsame hend).symm.trans hnone, (hempty endsEmpty_lastString).1⟩

end Freestanding.HeapImage
