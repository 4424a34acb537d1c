import Freestanding.Text.Number

/-!
# Numerals

A number is written in decimal, and the text that is written is read as the number.  In the other direction
digits may have leading zeros; without them they are the text that would be written.

## Main results

* `Text.decimal_ofDigitChars` — **digits without leading zeros are the numeral of the number that they
  denote.**
* `Text.toNat?_eq_some_iff`, `Text.toWord?_eq_some_iff` — the texts that are read as a number.
* `Text.toNat?_decimal`, `Text.toWord?_decimal` — **a numeral is read as its number.**
-/

namespace Freestanding.Text

/-! ### Digits -/

theorem toNat_of_isDigit {c : Char} (hc : c.isDigit) : 48 ≤ c.toNat ∧ c.toNat ≤ 57 :=
  Char.isDigit_iff_toNat.mp hc

theorem digitChar_of_isDigit {c : Char} (hc : c.isDigit) : Nat.digitChar (c.toNat - 48) = c := by
  obtain ⟨hlow, hhigh⟩ := toNat_of_isDigit hc
  apply Char.toNat_inj.mp
  rw [Nat.toNat_digitChar_of_lt_ten (by omega)]
  omega

/-- Digits behind the numeral of a number other than zero. -/
theorem toDigits_append {n : Nat} (hn : 0 < n) {t : Text} (ht : ∀ c ∈ t, c.isDigit) :
    Nat.toDigits 10 n ++ t = Nat.toDigits 10 (Nat.ofDigitChars 10 t n) := by
  induction t generalizing n with
  | nil => rw [List.append_nil, Nat.ofDigitChars_nil]
  | cons c t ih =>
    have hc : c.isDigit := ht c List.mem_cons_self
    have hdigit : c.toNat - 48 < 10 := by
      have := toNat_of_isDigit hc
      omega
    have hstep : Nat.toDigits 10 n ++ [c] = Nat.toDigits 10 (10 * n + (c.toNat - 48)) := by
      rw [← Nat.toDigits_append_toDigits (by decide) hn hdigit, Nat.toDigits_of_lt_base hdigit,
        digitChar_of_isDigit hc]
    rw [List.append_cons, hstep, ih (by omega) fun d hd => ht d (List.mem_cons_of_mem c hd),
      Nat.ofDigitChars_cons]
    rfl

/-- **Digits are the numeral of the number that they denote**, unless they have a leading zero. -/
theorem decimal_ofDigitChars {t : Text} (hne : t ≠ []) (ht : ∀ c ∈ t, c.isDigit)
    (hzero : t.head? ≠ some '0' ∨ t.length = 1) : decimal (Nat.ofDigitChars 10 t 0) = t := by
  obtain ⟨c, t, rfl⟩ := List.exists_cons_of_ne_nil hne
  have hc : c.isDigit := ht c List.mem_cons_self
  obtain ⟨hlow, hhigh⟩ := toNat_of_isDigit hc
  have hfirst : Nat.toDigits 10 (c.toNat - 48) = [c] := by
    rw [Nat.toDigits_of_lt_base (by omega), digitChar_of_isDigit hc]
  rw [decimal, Nat.ofDigitChars_cons, Nat.mul_zero, Nat.zero_add]
  change Nat.toDigits 10 (Nat.ofDigitChars 10 t (c.toNat - 48)) = _
  rcases hzero with hzero | hlen
  · have hpos : 0 < c.toNat - 48 := by
      have hne : c.toNat ≠ 48 := fun he => hzero (congrArg some (Char.toNat_inj.mp he))
      omega
    rw [← toDigits_append hpos fun d hd => ht d (List.mem_cons_of_mem c hd), hfirst]
    rfl
  · obtain rfl : t = [] := List.length_eq_zero_iff.mp (Nat.succ.inj hlen)
    exact hfirst

/-! ### Reading -/

theorem toNat?_eq_some_iff {t : Text} {n : Nat} :
    toNat? t = some n ↔ t ≠ [] ∧ (∀ c ∈ t, c.isDigit) ∧ Nat.ofDigitChars 10 t 0 = n := by
  rw [toNat?]
  split
  · next h =>
    rw [Option.some.injEq]
    exact ⟨fun hn => ⟨h.1, List.all_eq_true.mp h.2, hn⟩, fun hn => hn.2.2⟩
  · next h =>
    exact iff_of_false (Option.some_ne_none n).symm fun hn => h ⟨hn.1, List.all_eq_true.mpr hn.2.1⟩

theorem toWord?_eq_some_iff {t : Text} {w : UInt64} :
    toWord? t = some w ↔ t ≠ [] ∧ (∀ c ∈ t, c.isDigit) ∧ Nat.ofDigitChars 10 t 0 = w.toNat := by
  rw [← toNat?_eq_some_iff, toWord?, Option.bind_eq_some_iff]
  constructor
  · rintro ⟨n, hn, hw⟩
    split at hw
    · next hlt =>
      rw [hn, ← Option.some.inj hw]
      exact congrArg some (UInt64.toNat_ofNat_of_lt' hlt).symm
    · cases hw
  · intro hn
    refine ⟨w.toNat, hn, ?_⟩
    rw [if_pos w.toNat_lt_size, Nat.toUInt64, UInt64.ofNat_toNat]

theorem isDigit_of_mem_decimal {n : Nat} {c : Char} (hc : c ∈ decimal n) : c.isDigit :=
  Nat.isDigit_of_mem_toDigits (by decide) (by decide) hc

/-- **A numeral is read as its number.** -/
theorem toNat?_decimal (n : Nat) : toNat? (decimal n) = some n :=
  toNat?_eq_some_iff.mpr ⟨Nat.toDigits_ne_nil, fun _ => isDigit_of_mem_decimal, Nat.ofDigitChars_ten_toDigits⟩

theorem toWord?_decimal (w : UInt64) : toWord? (decimal w.toNat) = some w :=
  toWord?_eq_some_iff.mpr
    ⟨Nat.toDigits_ne_nil, fun _ => isDigit_of_mem_decimal, Nat.ofDigitChars_ten_toDigits⟩

end Freestanding.Text
