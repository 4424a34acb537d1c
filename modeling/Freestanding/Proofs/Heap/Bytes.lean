import Freestanding.Heap.Object
import Freestanding.Proofs.OrderedMap
import Mathlib.Data.List.Nodup
import Mathlib.Tactic.Common

/-!
# Memory images, byte by byte

An image holds words, but objects are written in words and in bytes, and the last word of an object may
hold older bytes.  This module looks at an image through its bytes.  Writing a word is writing its eight
bytes, lowest first, so whatever is recorded comes down to a list of bytes with their addresses.  A list
with different addresses may be written in any order: the image afterwards depends only on what is in
the list.

A word comes into being when its first byte is written, and is zero elsewhere.  That, too, does not
depend on the order.

## Main definitions

* `HeapImage.writesAt` — bytes with the addresses that they go to.
* `HeapImage.wordBytes` — the bytes of a word, lowest first.
* `HeapImage.writeAll` — the image after a list of writes.
* `HeapImage.byteAt?` — the byte at a place, where places are counted without an end.

## Main results

* `HeapImage.ext_byte?` — an image is known by its bytes.
* `HeapImage.writeBytes_eq_writeAll`, `HeapImage.writeWord_eq_writeAll` — writing, as lists of bytes.
* `HeapImage.byte?_writeAll` — **what a list of writes leaves at an address.**
* `HeapImage.writeAll_perm` — **writes at different addresses may be made in any order.**
* `HeapImage.readWord?_of_byte?`, `HeapImage.readBytes?_of_byte?` — reading, from the bytes.
* `HeapImage.readBytes?_eq_mapM` — **reading a range is reading its places, one by one.**
-/

namespace Freestanding

namespace Address

theorem toNat_aligned (a : UInt64) : (aligned a).toNat = a.toNat / 8 * 8 := by
  have hlt := a.toNat_lt
  have height : (8 : UInt64).toNat = 8 := rfl
  rw [aligned, UInt64.toNat_mul, UInt64.toNat_div, height]
  omega

theorem toNat_mod_eight (a : UInt64) : (a % 8).toNat = a.toNat % 8 := by
  simp [UInt64.toNat_mod]

theorem aligned_eq_self {a : UInt64} (h : a.toNat % 8 = 0) : aligned a = a := by
  apply UInt64.toNat_inj.mp
  rw [toNat_aligned]
  omega

theorem toNat_aligned_mod (a : UInt64) : (aligned a).toNat % 8 = 0 := by
  rw [toNat_aligned]
  omega

/-- Two addresses of one word with the same place in it are equal. -/
theorem eq_of_aligned {a b : UInt64} (h : aligned a = aligned b) (hmod : a % 8 = b % 8) : a = b := by
  have ha := toNat_aligned a
  have hb := toNat_aligned b
  have hm := toNat_mod_eight a
  rw [hmod, toNat_mod_eight] at hm
  rw [h] at ha
  apply UInt64.toNat_inj.mp
  omega

theorem toNat_add {a : UInt64} {n : Nat} (h : a.toNat + n < UInt64.size) :
    (a + n.toUInt64).toNat = a.toNat + n := by
  simp only [UInt64.size] at h
  simp only [UInt64.toNat_add, Nat.toUInt64, UInt64.toNat_ofNat']
  omega

theorem offset?_eq {a : UInt64} {n : Nat} (h : a.toNat + n < UInt64.size) :
    offset? a n = some (a + n.toUInt64) :=
  if_pos h

end Address

namespace HeapImage

open Address

/-! ### Bytes of a word -/

theorem getLsbD_byteOf (w : UInt64) {p : UInt64} (hp : p.toNat < 8) {i : Nat} (hi : i < 8) :
    (byteOf w p).toBitVec.getLsbD i = w.toBitVec.getLsbD (8 * p.toNat + i) := by
  have hshift : (8 * p).toNat % 64 = 8 * p.toNat := by
    rw [UInt64.toNat_mul]
    simp only [UInt64.toNat_ofNat]
    omega
  simp only [byteOf, UInt64.toBitVec_toUInt8, UInt64.toBitVec_shiftRight, BitVec.getLsbD_setWidth, hi,
    decide_true, Bool.true_and]
  rw [BitVec.ushiftRight_eq', BitVec.getLsbD_ushiftRight, BitVec.toNat_umod]
  exact congrArg (fun n => w.toBitVec.getLsbD (n + i)) hshift

/-- Replacing a byte changes the eight bits of its place. -/
theorem getLsbD_setByte (w : UInt64) {p : UInt64} (hp : p.toNat < 8) (b : UInt8) {j : Nat} (hj : j < 64) :
    (setByte w p b).toBitVec.getLsbD j =
      if j / 8 = p.toNat then b.toBitVec.getLsbD (j % 8) else w.toBitVec.getLsbD j := by
  have hshift : ((8 * p).toBitVec % 64).toNat = 8 * p.toNat := by
    rw [BitVec.toNat_umod]
    change (8 * p).toNat % 64 = _
    rw [UInt64.toNat_mul]
    simp only [UInt64.toNat_ofNat]
    omega
  have hones : ∀ i, (255 : BitVec 64).getLsbD i = decide (i < 8) := by
    intro i
    have h255 : (255 : BitVec 64) = (BitVec.allOnes 8).setWidth 64 := by decide
    rw [h255, BitVec.getLsbD_setWidth, BitVec.getLsbD_allOnes]
    by_cases hi : i < 8
    · simp [hi, show i < 64 by omega]
    · simp [hi]
  simp only [setByte, UInt64.toBitVec_or, UInt64.toBitVec_and, UInt64.toBitVec_not,
    UInt64.toBitVec_shiftLeft, UInt8.toBitVec_toUInt64, BitVec.getLsbD_or, BitVec.getLsbD_and,
    BitVec.getLsbD_not, BitVec.shiftLeft_eq', BitVec.getLsbD_shiftLeft, hshift, hj, decide_true,
    Bool.true_and, BitVec.getLsbD_setWidth]
  change (w.toBitVec.getLsbD j && !(!decide (j < 8 * p.toNat) && (255 : BitVec 64).getLsbD (j - 8 * p.toNat))
    || _) = _
  rw [hones]
  by_cases hlow : j < 8 * p.toNat
  · rw [if_neg (by omega)]
    simp [hlow]
  · by_cases hhigh : j - 8 * p.toNat < 8
    · rw [if_pos (by omega), show j % 8 = j - 8 * p.toNat by omega]
      simp [hlow, hhigh, show j - 8 * p.toNat < 64 by omega]
    · rw [if_neg (by omega), BitVec.getLsbD_of_ge b.toBitVec (j - 8 * p.toNat) (by omega)]
      simp [hhigh]

/-- A word is known by its bytes. -/
theorem eq_of_byteOf {w w' : UInt64} (h : ∀ p : UInt64, p.toNat < 8 → byteOf w p = byteOf w' p) :
    w = w' := by
  apply UInt64.eq_of_toBitVec_eq
  apply BitVec.eq_of_getLsbD_eq
  intro j hj
  -- bit `j` is bit `j % 8` of byte `j / 8`
  have hp : (j / 8).toUInt64.toNat = j / 8 := by
    simp only [Nat.toUInt64, UInt64.toNat_ofNat']
    omega
  have hbyte := h (j / 8).toUInt64 (by omega)
  have hleft := getLsbD_byteOf w (p := (j / 8).toUInt64) (by omega) (i := j % 8) (by omega)
  have hright := getLsbD_byteOf w' (p := (j / 8).toUInt64) (by omega) (i := j % 8) (by omega)
  rw [hp, show 8 * (j / 8) + j % 8 = j by omega] at hleft hright
  rw [← hleft, ← hright, hbyte]

private theorem byteOf_setByte (w : UInt64) {p q : UInt64} (hp : p.toNat < 8) (hq : q.toNat < 8) (b : UInt8) :
    byteOf (setByte w p b) q = if q = p then b else byteOf w q := by
  apply UInt8.eq_of_toBitVec_eq
  apply BitVec.eq_of_getLsbD_eq
  intro i hi
  rw [getLsbD_byteOf _ hq hi, getLsbD_setByte _ hp _ (by omega)]
  by_cases h : q = p
  · rw [if_pos (by rw [h]; omega), if_pos h, show (8 * q.toNat + i) % 8 = i by omega]
  · have hne : q.toNat ≠ p.toNat := fun he => h (UInt64.toNat_inj.mp he)
    rw [if_neg (by omega), if_neg h, getLsbD_byteOf _ hq hi]

@[simp] theorem byteOf_zero (p : UInt64) : byteOf 0 p = 0 := by
  apply UInt8.eq_of_toBitVec_eq
  simp [byteOf]

/-! ### Bytes of an image -/

/-- An image is known by its bytes, and by the words that are at no multiple of eight. -/
theorem ext_byte? {h h' : HeapImage} (hstray : ∀ k : UInt64, k.toNat % 8 ≠ 0 → h.words[k]? = h'.words[k]?)
    (hbyte : ∀ a, h.byte? a = h'.byte? a) : h = h' := by
  suffices hwords : h.words = h'.words by
    cases h
    cases h'
    exact congrArg HeapImage.mk hwords
  apply Std.ExtTreeMap.ext_getElem?
  intro k
  by_cases hk : k.toNat % 8 = 0
  · have hword : ∀ p : UInt64, p.toNat < 8 →
        h.words[k]?.map (byteOf · p) = h'.words[k]?.map (byteOf · p) := by
      intro p hp
      have hlt := k.toNat_lt
      have hsum : (k + p).toNat = k.toNat + p.toNat := by
        rw [UInt64.toNat_add]
        omega
      have haligned : aligned (k + p) = k := by
        apply UInt64.toNat_inj.mp
        rw [toNat_aligned, hsum]
        omega
      have hplace : (k + p) % 8 = p := by
        apply UInt64.toNat_inj.mp
        rw [toNat_mod_eight, hsum]
        omega
      have := hbyte (k + p)
      rwa [byte?, byte?, haligned, hplace] at this
    cases hw : h.words[k]? with
    | none =>
      have := hword 0 (by decide)
      rw [hw, Option.map_none, eq_comm, Option.map_eq_none_iff] at this
      exact this.symm
    | some w =>
      cases hw' : h'.words[k]? with
      | none =>
        have := hword 0 (by decide)
        rw [hw, hw'] at this
        cases this
      | some w' =>
        refine congrArg some (eq_of_byteOf fun p hp => ?_)
        have := hword p hp
        rw [hw, hw'] at this
        exact Option.some.inj this
  · exact hstray k hk

theorem getElem?_writeByte (h : HeapImage) (a : UInt64) (b : UInt8) (k : UInt64) :
    (h.writeByte a b).words[k]? = if aligned a = k
      then some (setByte (h.words[aligned a]?.getD 0) (a % 8) b) else h.words[k]? := by
  rw [writeByte, Std.ExtTreeMap.getElem?_insert, Std.ExtTreeMap.getD_eq_getD_getElem?]
  simp only [Std.LawfulEqCmp.compare_eq_iff_eq]

/-- Writing a byte changes that byte.  The other bytes of its word are zero if they did not exist. -/
theorem byte?_writeByte (h : HeapImage) (a : UInt64) (b : UInt8) (x : UInt64) :
    (h.writeByte a b).byte? x = if x = a then some b
      else if aligned x = aligned a then some ((h.byte? x).getD 0) else h.byte? x := by
  have hplace : ∀ y : UInt64, (y % 8).toNat < 8 := by
    intro y
    rw [toNat_mod_eight]
    omega
  rw [byte?, getElem?_writeByte]
  by_cases hword : aligned a = aligned x
  · rw [if_pos hword, Option.map_some, byteOf_setByte _ (hplace a) (hplace x)]
    by_cases hx : x = a
    · rw [if_pos (by rw [hx]), if_pos hx]
    · rw [if_neg fun hmod => hx (eq_of_aligned hword.symm hmod), if_neg hx, if_pos hword.symm, byte?, hword]
      cases h.words[aligned x]? with
      | none => simp [byteOf_zero]
      | some w => simp
  · rw [if_neg hword, if_neg fun hx => hword (by rw [hx]), if_neg fun he => hword he.symm, byte?]

theorem byte?_writeWord (h : HeapImage) {a : UInt64} (ha : a.toNat % 8 = 0) (w x : UInt64) :
    (h.writeWord a w).byte? x = if aligned x = a then some (byteOf w (x % 8)) else h.byte? x := by
  rw [byte?, writeWord, Std.ExtTreeMap.getElem?_insert, aligned_eq_self ha]
  simp only [Std.LawfulEqCmp.compare_eq_iff_eq]
  by_cases hx : aligned x = a
  · rw [if_pos hx.symm, if_pos hx, Option.map_some]
  · rw [if_neg fun he => hx he.symm, if_neg hx, byte?]

/-! ### Lists of writes -/

/-- Bytes with the addresses that they go to, from an address on. -/
def writesAt (a : UInt64) : List UInt8 → List (UInt64 × UInt8)
  | [] => []
  | b :: bytes => (a, b) :: writesAt (a + 1) bytes

@[simp] theorem writesAt_nil (a : UInt64) : writesAt a [] = [] := rfl

@[simp] theorem writesAt_cons (a : UInt64) (b : UInt8) (bytes : List UInt8) :
    writesAt a (b :: bytes) = (a, b) :: writesAt (a + 1) bytes := rfl

/-- The bytes of a word, lowest first. -/
def wordBytes (w : UInt64) : List UInt8 :=
  [byteOf w 0, byteOf w 1, byteOf w 2, byteOf w 3, byteOf w 4, byteOf w 5, byteOf w 6, byteOf w 7]

/-- The image after a list of writes. -/
def writeAll (h : HeapImage) (writes : List (UInt64 × UInt8)) : HeapImage :=
  writes.foldl (fun h w => h.writeByte w.1 w.2) h

@[simp] theorem writeAll_append (h : HeapImage) (ws ws' : List (UInt64 × UInt8)) :
    h.writeAll (ws ++ ws') = (h.writeAll ws).writeAll ws' :=
  List.foldl_append

theorem writeBytes_eq_writeAll (h : HeapImage) (a : UInt64) (bytes : List UInt8) :
    h.writeBytes a bytes = h.writeAll (writesAt a bytes) := by
  induction bytes generalizing h a with
  | nil => rfl
  | cons b bytes ih => exact ih (h.writeByte a b) (a + 1)

/-- What goes where, as long as memory does not end. -/
theorem mem_writesAt {a : UInt64} {bytes : List UInt8} (h : a.toNat + bytes.length ≤ UInt64.size)
    {x : UInt64} {b : UInt8} :
    (x, b) ∈ writesAt a bytes ↔ a.toNat ≤ x.toNat ∧ bytes[x.toNat - a.toNat]? = some b := by
  induction bytes generalizing a with
  | nil => simp
  | cons b' bytes ih =>
    rw [writesAt_cons, List.mem_cons, Prod.mk.injEq]
    rw [List.length_cons] at h
    by_cases hx : x = a
    · subst hx
      cases bytes with
      | nil => simp [eq_comm]
      | cons b'' bytes =>
        -- the later bytes go to later addresses
        have hnext : (x + 1).toNat = x.toNat + 1 := toNat_add (n := 1) (by rw [List.length_cons] at h; omega)
        rw [ih (by omega), hnext]
        simp only [true_and, Nat.sub_self, List.getElem?_cons_zero, Option.some.injEq, Nat.le_refl]
        constructor
        · rintro (he | ⟨hle, -⟩)
          · exact he.symm
          · omega
        · exact fun he => .inl he.symm
    · have hne : x.toNat ≠ a.toNat := fun he => hx (UInt64.toNat_inj.mp he)
      simp only [hx, false_and, false_or]
      cases bytes with
      | nil =>
        simp only [writesAt_nil, List.not_mem_nil, false_iff, not_and]
        intro hle
        rw [List.getElem?_eq_none (by rw [List.length_singleton]; omega)]
        simp
      | cons b'' bytes =>
        have hnext : (a + 1).toNat = a.toNat + 1 := toNat_add (n := 1) (by rw [List.length_cons] at h; omega)
        rw [ih (by omega), hnext]
        constructor
        · rintro ⟨hle, hb⟩
          refine ⟨by omega, ?_⟩
          rw [show x.toNat - a.toNat = x.toNat - (a.toNat + 1) + 1 by omega, List.getElem?_cons_succ]
          exact hb
        · rintro ⟨hle, hb⟩
          refine ⟨by omega, ?_⟩
          rw [show x.toNat - a.toNat = x.toNat - (a.toNat + 1) + 1 by omega,
            List.getElem?_cons_succ] at hb
          exact hb

theorem mem_map_fst_writesAt {a : UInt64} {bytes : List UInt8} (h : a.toNat + bytes.length ≤ UInt64.size)
    {x : UInt64} : x ∈ (writesAt a bytes).map Prod.fst ↔
      a.toNat ≤ x.toNat ∧ x.toNat < a.toNat + bytes.length := by
  rw [List.mem_map]
  constructor
  · rintro ⟨⟨x, b⟩, hmem, rfl⟩
    obtain ⟨hle, hb⟩ := (mem_writesAt h).mp hmem
    have := (List.getElem?_eq_some_iff.mp hb).1
    exact ⟨hle, by dsimp only; omega⟩
  · rintro ⟨hle, hlt⟩
    have hindex : x.toNat - a.toNat < bytes.length := by omega
    exact ⟨(x, bytes[x.toNat - a.toNat]), (mem_writesAt h).mpr ⟨hle, List.getElem?_eq_getElem hindex⟩, rfl⟩

theorem nodup_writesAt {a : UInt64} {bytes : List UInt8} (h : a.toNat + bytes.length ≤ UInt64.size) :
    ((writesAt a bytes).map Prod.fst).Nodup := by
  induction bytes generalizing a with
  | nil => exact List.nodup_nil
  | cons b bytes ih =>
    rw [List.length_cons] at h
    rw [writesAt_cons, List.map_cons, List.nodup_cons]
    cases bytes with
    | nil => simp
    | cons b' bytes =>
      have hnext : (a + 1).toNat = a.toNat + 1 := toNat_add (n := 1) (by rw [List.length_cons] at h; omega)
      refine ⟨?_, ih (by omega)⟩
      rw [mem_map_fst_writesAt (by omega), hnext]
      dsimp only
      omega

/-- What goes where when a word is written: every byte of it, to its place. -/
theorem mem_writesAt_wordBytes {a : UInt64} (ha : a.toNat % 8 = 0) (w : UInt64) {x : UInt64} {b : UInt8} :
    (x, b) ∈ writesAt a (wordBytes w) ↔ aligned x = a ∧ b = byteOf w (x % 8) := by
  have hlt := a.toNat_lt
  have hx := x.toNat_lt
  have hword : aligned x = a ↔ a.toNat ≤ x.toNat ∧ x.toNat < a.toNat + 8 := by
    rw [← UInt64.toNat_inj, toNat_aligned]
    omega
  have hfits : a.toNat + (wordBytes w).length ≤ UInt64.size := by
    change a.toNat + 8 ≤ 2 ^ 64
    omega
  have hbytes : ∀ p : UInt64, p.toNat < 8 → (wordBytes w)[p.toNat]? = some (byteOf w p) := by
    intro p hp
    have hcases : p = 0 ∨ p = 1 ∨ p = 2 ∨ p = 3 ∨ p = 4 ∨ p = 5 ∨ p = 6 ∨ p = 7 := by
      simp only [← UInt64.toNat_inj, UInt64.toNat_ofNat]
      omega
    rcases hcases with rfl | rfl | rfl | rfl | rfl | rfl | rfl | rfl <;> rfl
  rw [mem_writesAt hfits, hword, and_assoc]
  refine and_congr_right fun hle => ?_
  constructor
  · intro hb
    have hindex : x.toNat - a.toNat < 8 := (List.getElem?_eq_some_iff.mp hb).1
    have hplace : x.toNat - a.toNat = (x % 8).toNat := by
      rw [toNat_mod_eight]
      omega
    rw [hplace, hbytes _ (by omega)] at hb
    exact ⟨by omega, (Option.some.inj hb).symm⟩
  · rintro ⟨hlt', rfl⟩
    have hplace : x.toNat - a.toNat = (x % 8).toNat := by
      rw [toNat_mod_eight]
      omega
    rw [hplace, hbytes _ (by omega)]

/-! ### The image after a list of writes -/

theorem getElem?_writeAll_stray (h : HeapImage) (ws : List (UInt64 × UInt8)) {k : UInt64}
    (hk : k.toNat % 8 ≠ 0) : (h.writeAll ws).words[k]? = h.words[k]? := by
  induction ws generalizing h with
  | nil => rfl
  | cons w ws ih =>
    refine (ih (h.writeByte w.1 w.2)).trans ?_
    rw [getElem?_writeByte, if_neg]
    rintro rfl
    exact hk (toNat_aligned_mod _)

/-- An address that is not written keeps its byte, except that it becomes zero with a new word. -/
theorem byte?_writeAll_of_notMem (h : HeapImage) {ws : List (UInt64 × UInt8)} {x : UInt64}
    (hx : x ∉ ws.map Prod.fst) : (h.writeAll ws).byte? x =
      if ∃ w ∈ ws, aligned w.1 = aligned x then some ((h.byte? x).getD 0) else h.byte? x := by
  induction ws generalizing h with
  | nil => simp [writeAll]
  | cons w ws ih =>
    rw [List.map_cons, List.mem_cons, not_or] at hx
    refine (ih (h.writeByte w.1 w.2) hx.2).trans ?_
    rw [byte?_writeByte, if_neg hx.1]
    simp only [List.mem_cons, exists_eq_or_imp]
    by_cases hword : aligned x = aligned w.1
    · simp [hword]
    · simp only [hword, eq_comm (a := aligned w.1), false_or, if_false]

/-- **What a list of writes leaves at an address**, if no address is written twice. -/
theorem byte?_writeAll (h : HeapImage) {ws : List (UInt64 × UInt8)} (hnodup : (ws.map Prod.fst).Nodup)
    {x : UInt64} {b : UInt8} (hmem : (x, b) ∈ ws) : (h.writeAll ws).byte? x = some b := by
  induction ws generalizing h with
  | nil => cases hmem
  | cons w ws ih =>
    rw [List.map_cons, List.nodup_cons] at hnodup
    rcases List.mem_cons.mp hmem with rfl | hmem
    · -- the later writes go elsewhere
      refine (byte?_writeAll_of_notMem _ hnodup.1).trans ?_
      rw [byte?_writeByte, if_pos rfl]
      simp
    · exact ih _ hnodup.2 hmem

/-- **Writes at different addresses may be made in any order.** -/
theorem writeAll_perm (h : HeapImage) {ws ws' : List (UInt64 × UInt8)} (hnodup : (ws.map Prod.fst).Nodup)
    (hperm : ws.Perm ws') : h.writeAll ws = h.writeAll ws' := by
  have hnodup' : (ws'.map Prod.fst).Nodup := (hperm.map Prod.fst).nodup_iff.mp hnodup
  apply ext_byte?
  · intro k hk
    rw [getElem?_writeAll_stray _ _ hk, getElem?_writeAll_stray _ _ hk]
  · intro x
    by_cases hx : x ∈ ws.map Prod.fst
    · obtain ⟨⟨x, b⟩, hmem, rfl⟩ := List.mem_map.mp hx
      rw [byte?_writeAll h hnodup hmem, byte?_writeAll h hnodup' (hperm.mem_iff.mp hmem)]
    · have hx' : x ∉ ws'.map Prod.fst := fun hmem => hx ((hperm.map Prod.fst).mem_iff.mpr hmem)
      rw [byte?_writeAll_of_notMem h hx, byte?_writeAll_of_notMem h hx']
      simp only [hperm.mem_iff]

/-- Writing a word is writing its bytes. -/
theorem writeWord_eq_writeAll (h : HeapImage) {a : UInt64} (ha : a.toNat % 8 = 0) (w : UInt64) :
    h.writeWord a w = h.writeAll (writesAt a (wordBytes w)) := by
  have hnodup : ((writesAt a (wordBytes w)).map Prod.fst).Nodup := by
    apply nodup_writesAt
    have := a.toNat_lt
    change a.toNat + 8 ≤ 2 ^ 64
    omega
  apply ext_byte?
  · intro k hk
    rw [getElem?_writeAll_stray _ _ hk, writeWord, Std.ExtTreeMap.getElem?_insert, if_neg]
    rw [Std.LawfulEqCmp.compare_eq_iff_eq]
    rintro rfl
    exact hk (toNat_aligned_mod _)
  · intro x
    rw [byte?_writeWord h ha]
    by_cases hx : aligned x = a
    · rw [if_pos hx, byte?_writeAll h hnodup ((mem_writesAt_wordBytes ha w).mpr ⟨hx, rfl⟩)]
    · have hwrites : ∀ y ∈ writesAt a (wordBytes w), aligned y.1 = a :=
        fun y hy => ((mem_writesAt_wordBytes ha w).mp hy).1
      rw [if_neg hx, byte?_writeAll_of_notMem, if_neg]
      · rintro ⟨y, hy, he⟩
        exact hx (he ▸ hwrites y hy)
      · intro hmem
        obtain ⟨y, hy, rfl⟩ := List.mem_map.mp hmem
        exact hx (hwrites y hy)

/-! ### Reading -/

/-- A word whose bytes are all there can be read. -/
theorem readWord?_of_byte? {h : HeapImage} {a w : UInt64} (ha : a.toNat % 8 = 0)
    (hbyte : ∀ x, aligned x = a → h.byte? x = some (byteOf w (x % 8))) : h.readWord? a = some w := by
  have hmod : a % 8 = 0 := by
    apply UInt64.toNat_inj.mp
    rw [toNat_mod_eight, ha]
    rfl
  have himage : h = h.writeWord a w := by
    apply ext_byte?
    · intro k hk
      rw [writeWord, Std.ExtTreeMap.getElem?_insert, if_neg]
      rw [Std.LawfulEqCmp.compare_eq_iff_eq]
      rintro rfl
      exact hk (toNat_aligned_mod _)
    · intro x
      rw [byte?_writeWord h ha]
      by_cases hx : aligned x = a
      · rw [if_pos hx, hbyte x hx]
      · rw [if_neg hx]
  rw [readWord?, if_pos hmod, himage, writeWord, aligned_eq_self ha, Std.ExtTreeMap.getElem?_insert_self]

/-- Bytes that are all there can be read. -/
theorem readBytesFrom?_of_byte? {h : HeapImage} {a : UInt64} {i : Nat} {bytes : List UInt8}
    (hfits : a.toNat + (i + bytes.length) ≤ UInt64.size)
    (hbyte : ∀ (j : Nat) (b : UInt8), bytes[j]? = some b → h.byte? (a + (i + j).toUInt64) = some b)
    (read : List UInt8) : h.readBytesFrom? a bytes.length i read = some (read.reverse ++ bytes) := by
  induction bytes generalizing i read with
  | nil => simp [readBytesFrom?]
  | cons b bytes ih =>
    rw [List.length_cons] at hfits
    have hfirst : (offset? a i).bind h.byte? = some b := by
      rw [offset?_eq (by omega), Option.bind_some]
      exact hbyte 0 b rfl
    rw [List.length_cons, readBytesFrom?, hfirst]
    refine (ih (by omega) (fun j b' hb' => ?_) (b :: read)).trans (by simp)
    have := hbyte (j + 1) b' hb'
    rwa [show i + (j + 1) = i + 1 + j by omega] at this

theorem readBytes?_of_byte? {h : HeapImage} {a : UInt64} {bytes : List UInt8}
    (hfits : a.toNat + bytes.length ≤ UInt64.size)
    (hbyte : ∀ x b, (x, b) ∈ writesAt a bytes → h.byte? x = some b) :
    h.readBytes? a bytes.length = some bytes := by
  refine (readBytesFrom?_of_byte? (by omega) (fun j b hb => ?_) []).trans (by simp)
  have hj : j < bytes.length := (List.getElem?_eq_some_iff.mp hb).1
  have hsum : (a + (0 + j).toUInt64).toNat = a.toNat + j := by
    rw [Nat.zero_add]
    exact toNat_add (by omega)
  refine hbyte _ _ ((mem_writesAt hfits).mpr ⟨by omega, ?_⟩)
  rw [hsum, Nat.add_sub_cancel_left]
  exact hb

/-! ### Places -/

/-- The byte at a place, counted from the start of memory.  There is none beyond its end. -/
def byteAt? (h : HeapImage) (x : Nat) : Option UInt8 :=
  if x < UInt64.size then h.byte? x.toUInt64 else none

theorem byteAt?_toNat (h : HeapImage) (a : UInt64) : h.byteAt? a.toNat = h.byte? a := by
  rw [byteAt?, if_pos a.toNat_lt_size, Nat.toUInt64, UInt64.ofNat_toNat]

theorem byteAt?_of_size_le (h : HeapImage) {x : Nat} (hx : UInt64.size ≤ x) : h.byteAt? x = none :=
  if_neg (Nat.not_lt.mpr hx)

private theorem bind_offset? (h : HeapImage) (a : UInt64) (i : Nat) :
    (offset? a i).bind h.byte? = h.byteAt? (a.toNat + i) := by
  by_cases hlt : a.toNat + i < UInt64.size
  · rw [offset?_eq hlt, Option.bind_some, ← byteAt?_toNat, toNat_add hlt]
  · rw [offset?, if_neg hlt, Option.bind_none, byteAt?_of_size_le h (Nat.not_lt.mp hlt)]

private theorem readBytesFrom?_eq_mapM (h : HeapImage) (a : UInt64) (n i : Nat) (read : List UInt8) :
    h.readBytesFrom? a n i read =
      ((List.range' (a.toNat + i) n).mapM h.byteAt?).map (read.reverse ++ ·) := by
  induction n generalizing i read with
  | zero => simp [readBytesFrom?]
  | succ n ih =>
    rw [readBytesFrom?, bind_offset?, List.range'_succ, List.mapM_cons]
    cases h.byteAt? (a.toNat + i) with
    | none => rfl
    | some b =>
      refine (ih (i + 1) (b :: read)).trans ?_
      rw [← Nat.add_assoc]
      cases (List.range' (a.toNat + i + 1) n).mapM h.byteAt? with
      | none => rfl
      | some bytes => simp

/-- **Reading a range is reading its places, one by one.** -/
theorem readBytes?_eq_mapM (h : HeapImage) (a : UInt64) (n : Nat) :
    h.readBytes? a n = (List.range' a.toNat n).mapM h.byteAt? := by
  rw [readBytes?, readBytesFrom?_eq_mapM]
  simp

theorem length_of_readBytes? {h : HeapImage} {a : UInt64} {n : Nat} {bytes : List UInt8}
    (hread : h.readBytes? a n = some bytes) : bytes.length = n := by
  have hlength : ∀ (places : List Nat) (bytes : List UInt8), places.mapM h.byteAt? = some bytes →
      bytes.length = places.length := by
    intro places
    induction places with
    | nil =>
      rintro bytes ⟨⟩
      rfl
    | cons x places ih =>
      intro bytes hread
      rw [List.mapM_cons] at hread
      obtain ⟨b, -, hread⟩ := Option.bind_eq_some_iff.mp hread
      obtain ⟨rest, hrest, hbytes⟩ := Option.bind_eq_some_iff.mp hread
      rw [← Option.some.inj hbytes, List.length_cons, List.length_cons, ih rest hrest]
  rw [readBytes?_eq_mapM] at hread
  rw [hlength _ _ hread, List.length_range']

end HeapImage

end Freestanding
