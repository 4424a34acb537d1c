import Freestanding.Proofs.Heap.Bytes

/-!
# Written bytes

Bytes may be written from any address on.  They then stand there, and every other byte of the image is
as it was.  Only whole words can be recorded, though, so the word around the first byte and the one around
the last may come into being with the write: their other bytes are zero.

## Main definitions

* `HeapImage.Within`, `HeapImage.Meets` — a place lies in a range, and its word has a place in the range.
* `HeapImage.Overwritten` — what each place holds before and after some bytes are written.

## Main results

* `HeapImage.byteAt?_writeBytes_of_getElem?` — the places in the range.
* `HeapImage.byteAt?_writeBytes_of_meets`, `HeapImage.byteAt?_writeBytes_of_not_meets` — the others.
* `HeapImage.overwritten_writeBytes` — **written bytes can be read, and nothing else changes.**
-/

namespace Freestanding.HeapImage

open Address

/-! ### Ranges -/

/-- A place is one of the `length` places from `start` on. -/
def Within (start length x : Nat) : Prop :=
  start ≤ x ∧ x < start + length

/-- The word around a place has a place in the range. -/
def Meets (start length x : Nat) : Prop :=
  ∃ y, Within start length y ∧ y / 8 = x / 8

/-- What the places of memory hold before and after bytes are written from a place on. -/
structure Overwritten (before after : Nat → Option UInt8) (start : Nat) (bytes : List UInt8) : Prop where
  /-- The bytes stand where they were written. -/
  written : ∀ i b, bytes[i]? = some b → after (start + i) = some b
  /-- Any other byte is as before. -/
  kept : ∀ x b, ¬ Within start bytes.length x → before x = some b → after x = some b
  /-- Where there was none, there is a zero if the word around that place has been written to. -/
  filled : ∀ x, ¬ Within start bytes.length x → before x = none → Meets start bytes.length x →
    after x = some 0
  /-- In every other word there is still none. -/
  missing : ∀ x, ¬ Within start bytes.length x → before x = none → ¬ Meets start bytes.length x →
    after x = none

/-! ### Places after a write -/

section

variable (h : HeapImage) {a : UInt64} {bytes : List UInt8} (hfits : a.toNat + bytes.length ≤ UInt64.size)
include hfits

theorem byteAt?_writeBytes_of_getElem? {i : Nat} {b : UInt8} (hb : bytes[i]? = some b) :
    (h.writeBytes a bytes).byteAt? (a.toNat + i) = some b := by
  have hi : i < bytes.length := (List.getElem?_eq_some_iff.mp hb).1
  have hplace : (a + i.toUInt64).toNat = a.toNat + i := toNat_add (by omega)
  rw [← hplace, byteAt?_toNat, writeBytes_eq_writeAll]
  refine byte?_writeAll h (nodup_writesAt hfits) ((mem_writesAt hfits).mpr ⟨by omega, ?_⟩)
  rwa [hplace, Nat.add_sub_cancel_left]

/-- The words that are written to are those with a place in the range. -/
theorem exists_aligned_iff_meets (x : UInt64) :
    (∃ w ∈ writesAt a bytes, aligned w.1 = aligned x) ↔ Meets a.toNat bytes.length x.toNat := by
  have hword : ∀ y : UInt64, aligned y = aligned x ↔ y.toNat / 8 = x.toNat / 8 := by
    intro y
    rw [← UInt64.toNat_inj, toNat_aligned, toNat_aligned]
    omega
  constructor
  · rintro ⟨w, hw, he⟩
    exact ⟨w.1.toNat, (mem_map_fst_writesAt hfits).mp (List.mem_map_of_mem hw), (hword w.1).mp he⟩
  · rintro ⟨y, hy, he⟩
    have hplace : y.toUInt64.toNat = y := UInt64.toNat_ofNat_of_lt' (Nat.lt_of_lt_of_le hy.2 hfits)
    obtain ⟨w, hw, hw'⟩ := List.mem_map.mp
      ((mem_map_fst_writesAt hfits (x := y.toUInt64)).mpr (by rwa [hplace]))
    exact ⟨w, hw, (hword w.1).mpr (by rw [hw', hplace, he])⟩

/-- No word beyond the end of memory is written to. -/
theorem Meets.lt_size {x : Nat} (hx : Meets a.toNat bytes.length x) : x < UInt64.size := by
  obtain ⟨y, ⟨-, hlt⟩, he⟩ := hx
  simp only [UInt64.size] at hfits ⊢
  omega

theorem byteAt?_writeBytes_of_meets {x : Nat} (hx : ¬ Within a.toNat bytes.length x)
    (hmeets : Meets a.toNat bytes.length x) :
    (h.writeBytes a bytes).byteAt? x = some ((h.byteAt? x).getD 0) := by
  have hplace : x.toUInt64.toNat = x := UInt64.toNat_ofNat_of_lt' (hmeets.lt_size hfits)
  rw [← hplace] at hx hmeets ⊢
  rw [byteAt?_toNat, byteAt?_toNat, writeBytes_eq_writeAll,
    byte?_writeAll_of_notMem h fun hmem => hx ((mem_map_fst_writesAt hfits).mp hmem),
    if_pos ((exists_aligned_iff_meets hfits _).mpr hmeets)]

theorem byteAt?_writeBytes_of_not_meets {x : Nat} (hmeets : ¬ Meets a.toNat bytes.length x) :
    (h.writeBytes a bytes).byteAt? x = h.byteAt? x := by
  by_cases hlt : x < UInt64.size
  · have hplace : x.toUInt64.toNat = x := UInt64.toNat_ofNat_of_lt' hlt
    rw [← hplace] at hmeets ⊢
    -- a place in the range is in a word that meets it
    have hnone : x.toUInt64 ∉ (writesAt a bytes).map Prod.fst :=
      fun hmem => hmeets ⟨_, (mem_map_fst_writesAt hfits).mp hmem, rfl⟩
    rw [byteAt?_toNat, byteAt?_toNat, writeBytes_eq_writeAll, byte?_writeAll_of_notMem h hnone,
      if_neg fun hword => hmeets ((exists_aligned_iff_meets hfits _).mp hword)]
  · rw [byteAt?_of_size_le _ (Nat.not_lt.mp hlt), byteAt?_of_size_le _ (Nat.not_lt.mp hlt)]

end

/-- **Written bytes can be read, and nothing else changes.**  Reading any range of any image goes by its
places.  After bytes are written to a range that does not pass the end of memory, each place in the range
holds the byte written there, and each other place the byte that it held before.  A place that held none
holds a zero if its word has a place in the range, and still none otherwise.  In particular the bytes
themselves are read from where they were written. -/
theorem overwritten_writeBytes (h : HeapImage) {a : UInt64} {bytes : List UInt8}
    (hfits : a.toNat + bytes.length ≤ UInt64.size) :
    (∀ (image : HeapImage) (r : UInt64) (n : Nat),
      image.readBytes? r n = (List.range' r.toNat n).mapM image.byteAt?) ∧
    Overwritten h.byteAt? (h.writeBytes a bytes).byteAt? a.toNat bytes ∧
    (h.writeBytes a bytes).readBytes? a bytes.length = some bytes := by
  refine ⟨readBytes?_eq_mapM, ⟨?_, ?_, ?_, ?_⟩, ?_⟩
  · intro i b hb
    exact byteAt?_writeBytes_of_getElem? h hfits hb
  · intro x b hx hb
    by_cases hmeets : Meets a.toNat bytes.length x
    · rw [byteAt?_writeBytes_of_meets h hfits hx hmeets, hb, Option.getD_some]
    · rw [byteAt?_writeBytes_of_not_meets h hfits hmeets, hb]
  · intro x hx hnone hmeets
    rw [byteAt?_writeBytes_of_meets h hfits hx hmeets, hnone, Option.getD_none]
  · intro x hx hnone hmeets
    rw [byteAt?_writeBytes_of_not_meets h hfits hmeets, hnone]
  · rw [writeBytes_eq_writeAll]
    exact readBytes?_of_byte? hfits fun x b hb => byte?_writeAll h (nodup_writesAt hfits) hb

/-- An image of the last word but one. -/
def lastButOne : HeapImage :=
  ({} : HeapImage).writeWord 0xFFFFFFFFFFFFFFF0 0x8877665544332211

/-- Six bytes that start in that word and end in the last one, which is not recorded. -/
theorem overwritten_writeBytes_lastButOne :
    let a : UInt64 := 0xFFFFFFFFFFFFFFF5
    let bytes : List UInt8 := [0x61, 0x62, 0x63, 0x64, 0x65, 0x66]
    let after := lastButOne.writeBytes a bytes
    a.toNat + bytes.length ≤ UInt64.size ∧ after.readBytes? a 6 = some bytes ∧
    after.readBytes? (a - 1) 8 = some [0x55, 0x61, 0x62, 0x63, 0x64, 0x65, 0x66, 0] ∧
    after.readBytes? (a + 10) 2 = none := by
  intro a bytes after
  have hfits : a.toNat + bytes.length ≤ UInt64.size := by decide
  obtain ⟨hread, hlaw, hback⟩ := overwritten_writeBytes lastButOne hfits
  have hbefore : after.byteAt? 0xFFFFFFFFFFFFFFF4 = some 0x55 :=
    hlaw.kept _ _ (by simp [Within, a]) (by decide +kernel)
  have hbehind : after.byteAt? 0xFFFFFFFFFFFFFFFB = some 0 :=
    hlaw.filled _ (by simp [Within, a, bytes]) (by decide +kernel)
      ⟨0xFFFFFFFFFFFFFFFA, by simp [Within, a, bytes], by decide⟩
  have hbeyond : after.byteAt? 0x10000000000000000 = none := byteAt?_of_size_le _ (by decide)
  have hlast : after.byteAt? 0xFFFFFFFFFFFFFFFF = some 0 :=
    hlaw.filled _ (by simp [Within, a, bytes]) (by decide +kernel)
      ⟨0xFFFFFFFFFFFFFFFA, by simp [Within, a, bytes], by decide⟩
  refine ⟨hfits, hback, ?_, ?_⟩
  · have hwritten : (List.range' 0xFFFFFFFFFFFFFFF5 6).mapM after.byteAt? = some bytes :=
      (hread after a 6).symm.trans hback
    have hrange : List.range' (a - 1).toNat 8 =
        0xFFFFFFFFFFFFFFF4 :: (List.range' 0xFFFFFFFFFFFFFFF5 6 ++ [0xFFFFFFFFFFFFFFFB]) := by decide
    rw [hread, hrange, List.mapM_cons, List.mapM_append, hwritten, hbefore]
    simp [hbehind, bytes]
  · rw [hread]
    change [0xFFFFFFFFFFFFFFFF, 0x10000000000000000].mapM after.byteAt? = none
    simp [hlast, hbeyond]

end Freestanding.HeapImage
