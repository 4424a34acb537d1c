import Freestanding.Text.Utf8
import Mathlib.Tactic.Common

/-!
# Text survives its bytes

The decoding machine, started between two characters, reads the bytes of a character and stops between
two characters again, with that character read.  So both readings of a byte string give back the text
from which the bytes were made.

## Main results

* `Utf8.foldl_step_encode` — the machine reads the bytes of one character.
* `Text.decodeLossy_encode` — **decoding gives back the text that was encoded.**
-/

namespace Freestanding

namespace Utf8

/-- The next byte of a character under way, other than the last one. -/
theorem step_of_later {done : List (Option Char)} {n low high code : Nat} {byte : UInt8}
    (hlow : low ≤ byte.toNat) (hhigh : byte.toNat ≤ high) :
    step ⟨done, some ⟨n + 1, low, high, code⟩⟩ byte =
      ⟨done, some ⟨n, 0x80, 0xBF, code * 64 + (byte.toNat - 0x80)⟩⟩ := by
  rw [step]
  simp only [hlow, hhigh, and_self, if_true]

/-- The last byte of a character under way. -/
theorem step_of_last {done : List (Option Char)} {low high code : Nat} {byte : UInt8}
    (hlow : low ≤ byte.toNat) (hhigh : byte.toNat ≤ high) :
    step ⟨done, some ⟨0, low, high, code⟩⟩ byte =
      ⟨some (Char.ofNat (code * 64 + (byte.toNat - 0x80))) :: done, none⟩ := by
  rw [step]
  simp only [hlow, hhigh, and_self, if_true]

theorem toNat_ofNat_byte {n : Nat} (h : n < 256) : (UInt8.ofNat n).toNat = n := by
  rw [UInt8.toNat_ofNat']
  omega

/-- The first of two bytes. -/
theorem step_lead_two {done : List (Option Char)} {n : Nat} (hlow : 2 ≤ n) (hhigh : n < 32) :
    step ⟨done, none⟩ (UInt8.ofNat (n + 0xC0)) = ⟨done, some ⟨0, 0x80, 0xBF, n⟩⟩ := by
  have hb : (UInt8.ofNat (n + 0xC0)).toNat = n + 0xC0 := toNat_ofNat_byte (by omega)
  simp only [step, hb, State.begin, lead]
  rw [if_neg (by omega), if_pos (by omega)]
  simp

/-- The first of three bytes.  The second one starts later after the least lead byte, because shorter
characters are written with two bytes, and ends earlier where the surrogates would be. -/
theorem step_lead_three {done : List (Option Char)} {n : Nat} (h : n < 16) :
    step ⟨done, none⟩ (UInt8.ofNat (n + 0xE0)) =
      ⟨done, some ⟨1, if n = 0 then 0xA0 else 0x80, if n = 13 then 0x9F else 0xBF, n⟩⟩ := by
  have hb : (UInt8.ofNat (n + 0xE0)).toNat = n + 0xE0 := toNat_ofNat_byte (by omega)
  simp only [step, hb, State.begin, lead]
  rw [if_neg (by omega), if_neg (by omega)]
  by_cases hzero : n = 0
  · simp [hzero]
  · by_cases hsurrogate : n = 13
    · simp [hsurrogate]
    · rw [if_neg (by omega), if_neg (by omega), if_pos (by omega)]
      simp [hzero, hsurrogate]

/-- The first of four bytes, with the same care at both ends of the range. -/
theorem step_lead_four {done : List (Option Char)} {n : Nat} (h : n < 5) :
    step ⟨done, none⟩ (UInt8.ofNat (n + 0xF0)) =
      ⟨done, some ⟨2, if n = 0 then 0x90 else 0x80, if n = 4 then 0x8F else 0xBF, n⟩⟩ := by
  have hb : (UInt8.ofNat (n + 0xF0)).toNat = n + 0xF0 := toNat_ofNat_byte (by omega)
  simp only [step, hb, State.begin, lead]
  rw [if_neg (by omega), if_neg (by omega), if_neg (by omega), if_neg (by omega), if_neg (by omega)]
  by_cases hzero : n = 0
  · simp [hzero]
  · by_cases hfour : n = 4
    · simp [hfour]
    · rw [if_neg (by omega), if_pos (by omega)]
      simp [hzero, hfour]

/-- **The machine reads the bytes of a character.** -/
theorem foldl_step_encode (done : List (Option Char)) (c : Char) :
    (String.utf8EncodeChar c).foldl step ⟨done, none⟩ = ⟨some c :: done, none⟩ := by
  have hcode : ∀ {n : Nat}, n = c.val.toNat → Char.ofNat n = c := by
    rintro n rfl
    exact Char.ofNat_toNat c
  have hvalid : c.val.toNat < 0xD800 ∨ 0xDFFF < c.val.toNat ∧ c.val.toNat < 0x110000 := c.valid
  have hbyte : ∀ n, (UInt8.ofNat (n % 64 + 128)).toNat = n % 64 + 128 :=
    fun n => toNat_ofNat_byte (by omega)
  rw [String.utf8EncodeChar]
  split
  · next hone =>
    have hb : (UInt8.ofNat c.val.toNat).toNat = c.val.toNat := toNat_ofNat_byte (by omega)
    simp only [List.foldl_cons, List.foldl_nil, step, hb, State.begin, lead]
    rw [if_pos (by omega), hcode rfl]
  · split
    · next _ htwo =>
      simp only [List.foldl_cons, List.foldl_nil]
      rw [step_lead_two (by omega) (by omega), step_of_last (by rw [hbyte]; omega) (by rw [hbyte]; omega),
        hbyte, hcode (by omega)]
    · split
      · next _ hthree =>
        simp only [List.foldl_cons, List.foldl_nil]
        rw [step_lead_three (by omega), step_of_later (by rw [hbyte]; split <;> omega)
            (by rw [hbyte]; split <;> omega),
          step_of_last (by rw [hbyte]; omega) (by rw [hbyte]; omega), hbyte, hbyte, hcode (by omega)]
      · simp only [List.foldl_cons, List.foldl_nil]
        have hmod : c.val.toNat / 262144 % 8 = c.val.toNat / 262144 := by omega
        rw [hmod, step_lead_four (by omega), step_of_later (by rw [hbyte]; split <;> omega)
            (by rw [hbyte]; split <;> omega),
          step_of_later (by rw [hbyte]; omega) (by rw [hbyte]; omega),
          step_of_last (by rw [hbyte]; omega) (by rw [hbyte]; omega), hbyte, hbyte, hbyte,
          hcode (by omega)]

private theorem foldl_step_encode_text (done : List (Option Char)) (t : Text) :
    t.encode.foldl step ⟨done, none⟩ = ⟨(t.map some).reverse ++ done, none⟩ := by
  induction t generalizing done with
  | nil => rfl
  | cons c t ih =>
    have hcons : Text.encode (c :: t) = String.utf8EncodeChar c ++ Text.encode t := rfl
    rw [hcons, List.foldl_append, foldl_step_encode, ih]
    simp

private theorem read_encode (t : Text) : read t.encode = t.map some := by
  have h := foldl_step_encode_text [] t
  rw [List.append_nil] at h
  rw [read]
  change (t.encode.foldl step ⟨[], none⟩).finish = _
  rw [h]
  simp [State.finish]

end Utf8

/-- **Decoding gives back the text that was encoded.** -/
theorem Text.decodeLossy_encode (t : Text) : Text.decodeLossy t.encode = t := by
  rw [Text.decodeLossy, Utf8.read_encode, List.map_map]
  exact List.map_id t

end Freestanding
