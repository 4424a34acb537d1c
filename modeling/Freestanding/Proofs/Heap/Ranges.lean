import Freestanding.Proofs.Heap.Endless

/-!
# Words and ranges

An image is read by words and by ranges of bytes.  A word at a multiple of eight is looked up and its bytes
are cut out of it; anywhere else it is the word that is put together from bytes.  Either way a word can be
read exactly where its eight bytes can, and these are its digits to base 256, the lowest first.  A range
that is read in two parts gives the same bytes as in one.

## Main definitions

* `HeapImage.littleEndian` — the lowest bytes of a number, lowest first.

## Main results

* `HeapImage.littleEndian_wordOfBytes`, `HeapImage.wordOfBytes_littleEndian` — words and their bytes.
* `HeapImage.readBytes?_eight` — **eight bytes are the bytes of the word.**
* `HeapImage.readBytes?_add` — a range in two parts.
* `HeapImage.reads_agree` — **reading by words and reading by bytes agree.**
-/

namespace Freestanding.HeapImage

open Address

/-! ### Words and their bytes -/

/-- The `count` lowest digits of a number to base 256, the lowest first. -/
def littleEndian : (count n : Nat) → List UInt8
  | 0, _ => []
  | count + 1, n => n.toUInt8 :: littleEndian count (n / 256)

@[simp] theorem littleEndian_zero (n : Nat) : littleEndian 0 n = [] := rfl

@[simp] theorem littleEndian_succ (count n : Nat) :
    littleEndian (count + 1) n = n.toUInt8 :: littleEndian count (n / 256) := rfl

private theorem toUInt8_add_mul (b : UInt8) (n : Nat) : (b.toNat + 256 * n).toUInt8 = b := by
  have hb : b.toNat < 256 := b.toNat_lt
  apply UInt8.toNat_inj.mp
  rw [Nat.toUInt8, UInt8.toNat_ofNat']
  omega

/-- Bytes are the digits of the word that is put together from them. -/
theorem littleEndian_wordOfBytes {bytes : List UInt8} (hlen : bytes.length ≤ 8) :
    littleEndian bytes.length (wordOfBytes bytes).toNat = bytes := by
  induction bytes with
  | nil => rfl
  | cons b bytes ih =>
    rw [List.length_cons] at hlen
    have hb : b.toNat < 256 := b.toNat_lt
    have hrest : (b.toNat + 256 * (wordOfBytes bytes).toNat) / 256 = (wordOfBytes bytes).toNat := by omega
    rw [List.length_cons, toNat_wordOfBytes_cons (by omega), littleEndian_succ, toUInt8_add_mul, hrest,
      ih (by omega)]

@[simp] theorem length_littleEndian (count n : Nat) : (littleEndian count n).length = count := by
  induction count generalizing n with
  | zero => rw [littleEndian_zero, List.length_nil]
  | succ count ih => rw [littleEndian_succ, List.length_cons, ih]

private theorem toNat_wordOfBytes_littleEndian {count n : Nat} (hcount : count ≤ 8) (hn : n < 256 ^ count) :
    (wordOfBytes (littleEndian count n)).toNat = n := by
  induction count generalizing n with
  | zero =>
    obtain rfl : n = 0 := by simpa using hn
    rfl
  | succ count ih =>
    have hrest := ih (n := n / 256) (by omega) (by rw [Nat.pow_succ] at hn; omega)
    rw [littleEndian_succ, toNat_wordOfBytes_cons (by rw [length_littleEndian]; omega), hrest, Nat.toUInt8,
      UInt8.toNat_ofNat']
    omega

/-- A word is put together from its bytes. -/
theorem wordOfBytes_littleEndian (w : UInt64) : wordOfBytes (littleEndian 8 w.toNat) = w := by
  apply UInt64.toNat_inj.mp
  exact toNat_wordOfBytes_littleEndian (Nat.le_refl 8) w.toNat_lt

/-! ### Eight bytes -/

variable (h : HeapImage)

/-- The bytes of a recorded word stand at the eight places from its address on. -/
theorem byteAt?_of_aligned {a : UInt64} (ha : a.toNat % 8 = 0) {i : Nat} (hi : i < 8) :
    h.byteAt? (a.toNat + i) = h.words[a]?.map fun w => (w.toNat / 256 ^ i).toUInt8 := by
  have hlt := a.toNat_lt
  have hfits : a.toNat + i < UInt64.size := by
    simp only [UInt64.size]
    omega
  have hsum : (a + i.toUInt64).toNat = a.toNat + i := toNat_add hfits
  have hword : aligned (a + i.toUInt64) = a := by
    apply UInt64.toNat_inj.mp
    rw [toNat_aligned, hsum]
    omega
  have hplace : ((a + i.toUInt64) % 8).toNat = i := by
    rw [toNat_mod_eight, hsum]
    omega
  rw [← hsum, byteAt?_toNat, byte?, hword]
  refine congrArg (Option.map · _) (funext fun w => ?_)
  apply UInt8.toNat_inj.mp
  rw [toNat_byteOf w (by omega), hplace, Nat.toUInt8, UInt8.toNat_ofNat']

/-- Part of the bytes of a word, from the `i`-th on. -/
theorem mapM_byteAt?_of_aligned {a w : UInt64} (ha : a.toNat % 8 = 0) (hw : h.words[a]? = some w)
    {i count : Nat} (hi : i + count ≤ 8) :
    (List.range' (a.toNat + i) count).mapM h.byteAt? = some (littleEndian count (w.toNat / 256 ^ i)) := by
  induction count generalizing i with
  | zero => rfl
  | succ count ih =>
    have hnext := ih (i := i + 1) (by omega)
    rw [← Nat.add_assoc, Nat.pow_succ, ← Nat.div_div_eq_div_mul] at hnext
    rw [List.range'_succ, List.mapM_cons, byteAt?_of_aligned h ha (by omega), hw, hnext]
    rfl

/-- **The eight bytes from an address on are the bytes of the word there.** -/
theorem readBytes?_eight (a : UInt64) :
    h.readBytes? a 8 = (h.readWord? a).map fun w => littleEndian 8 w.toNat := by
  by_cases ha : a.toNat % 8 = 0
  · have hmod : a % 8 = 0 := by
      apply UInt64.toNat_inj.mp
      rw [toNat_mod_eight, ha]
      rfl
    rw [readBytes?_eq_mapM, readWord?, if_pos hmod]
    cases hw : h.words[a]? with
    | none =>
      have hfirst := byteAt?_of_aligned h ha (show 0 < 8 by decide)
      rw [hw, Nat.add_zero] at hfirst
      rw [List.range'_succ, List.mapM_cons, hfirst]
      rfl
    | some w =>
      have hbytes := mapM_byteAt?_of_aligned h ha hw (show 0 + 8 ≤ 8 by decide)
      rw [Nat.add_zero, Nat.pow_zero, Nat.div_one] at hbytes
      exact hbytes
  · have hmod : ¬ a % 8 = 0 := by
      intro hzero
      rw [← toNat_mod_eight, hzero] at ha
      exact ha rfl
    rw [readWord?, if_neg hmod, Option.map_map]
    cases hbytes : h.readBytes? a 8 with
    | none => rfl
    | some bytes =>
      have hlen : bytes.length = 8 := length_of_readBytes? hbytes
      have hback := littleEndian_wordOfBytes (Nat.le_of_eq hlen)
      rw [hlen] at hback
      exact congrArg some hback.symm

/-! ### Ranges -/

/-- A range that is read in two parts, if the second part starts in memory. -/
theorem readBytes?_add {a : UInt64} {m : Nat} (hm : a.toNat + m < UInt64.size) (n : Nat) :
    h.readBytes? a (m + n) = do
      let front ← h.readBytes? a m
      let back ← h.readBytes? (a + m.toUInt64) n
      return front ++ back := by
  rw [readBytes?_eq_mapM, readBytes?_eq_mapM, readBytes?_eq_mapM, toNat_add hm, ← List.mapM_append,
    List.range'_append_1]

/-- **Reading by words and reading by bytes agree.**  A word can be read exactly where eight bytes can, at
any address, and they are its bytes.  A range can be read exactly if its two parts can, wherever it is
divided, and it has the bytes of the one and then those of the other. -/
theorem reads_agree (h : HeapImage) (a : UInt64) :
    (∀ w, h.readWord? a = some w ↔ h.readBytes? a 8 = some (littleEndian 8 w.toNat)) ∧
    ∀ m n : Nat, a.toNat + m < UInt64.size → ∀ bytes, h.readBytes? a (m + n) = some bytes ↔
      ∃ front back, h.readBytes? a m = some front ∧ h.readBytes? (a + m.toUInt64) n = some back ∧
        bytes = front ++ back := by
  constructor
  · intro w
    rw [readBytes?_eight, Option.map_eq_some_iff]
    constructor
    · intro hw
      exact ⟨w, hw, rfl⟩
    · rintro ⟨w', hw', hbytes⟩
      -- a word is known by its bytes
      rw [← wordOfBytes_littleEndian w, ← hbytes, wordOfBytes_littleEndian]
      exact hw'
  · intro m n hm bytes
    rw [readBytes?_add h hm]
    constructor
    · intro hread
      obtain ⟨front, hfront, hread⟩ := Option.bind_eq_some_iff.mp hread
      obtain ⟨back, hback, hread⟩ := Option.bind_eq_some_iff.mp hread
      exact ⟨front, back, hfront, hback, (Option.some.inj hread).symm⟩
    · rintro ⟨front, back, hfront, hback, rfl⟩
      rw [hfront, hback]
      rfl

/-- The last two words of memory. -/
def lastTwo : HeapImage :=
  (({} : HeapImage).writeWord 0xFFFFFFFFFFFFFFF0 0x8877665544332211).writeWord 0xFFFFFFFFFFFFFFF8 0xFFEEDDCCBBAA0099

/-- The word across the two has three bytes of the first and five of the second, and the word at the last
address but two cannot be read. -/
theorem reads_agree_lastTwo :
    let a : UInt64 := 0xFFFFFFFFFFFFFFF5
    a.toNat + 3 < UInt64.size ∧ lastTwo.readWord? a = some 0xCCBBAA0099887766 ∧
    lastTwo.readBytes? a 8 = some [0x66, 0x77, 0x88, 0x99, 0x00, 0xAA, 0xBB, 0xCC] ∧
    lastTwo.readWord? (a + 8) = none := by
  intro a
  have hfits : a.toNat + 3 < UInt64.size := by decide
  have hbytes : lastTwo.readBytes? a 8 = some [0x66, 0x77, 0x88, 0x99, 0x00, 0xAA, 0xBB, 0xCC] :=
    ((reads_agree lastTwo a).2 3 5 hfits _).mpr
      ⟨[0x66, 0x77, 0x88], [0x99, 0x00, 0xAA, 0xBB, 0xCC], by decide +kernel, by decide +kernel, rfl⟩
  refine ⟨hfits, ((reads_agree lastTwo a).1 _).mpr (hbytes.trans (by decide)), hbytes, ?_⟩
  -- the range ends behind the end of memory
  refine Option.eq_none_iff_forall_ne_some.mpr fun w hw => ?_
  have hnone : lastTwo.readBytes? (a + 8) 8 = none := by decide +kernel
  have hsome := ((reads_agree lastTwo (a + 8)).1 w).mp hw
  rw [hnone] at hsome
  cases hsome

end Freestanding.HeapImage
