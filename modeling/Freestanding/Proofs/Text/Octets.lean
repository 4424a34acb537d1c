import Freestanding.Region
import Freestanding.Proofs.Text.Utf8

/-!
# The bytes of a text as characters

An offset counts bytes, and a delimiter is looked for byte by byte.  Seen as characters, the bytes of a text
are a text themselves, in which offsets are indices.  A character below 128 is its own only byte, and no byte
of another character is below 128.  So where such a byte stands, a character stands.

## Main definitions

* `Text.octets` — the bytes of a text, each one taken as a character.

## Main results

* `Text.octets_eq_append_cons` — **an ASCII byte is an ASCII character**, and splits the text.
* `Region.dropBytes?_eq_some_iff` — the offsets at which a text can be cut.
-/

namespace Freestanding

namespace Text

/-- The bytes of a text, each one taken as a character. -/
def octets (t : Text) : Text :=
  t.encode.map fun b => Char.ofNat b.toNat

@[simp] theorem octets_nil : octets [] = [] := rfl

@[simp] theorem octets_append (t u : Text) : octets (t ++ u) = octets t ++ octets u := by
  simp [octets, encode]

theorem octets_cons (c : Char) (t : Text) : octets (c :: t) = octets [c] ++ octets t :=
  octets_append [c] t

@[simp] theorem length_octets (t : Text) : (octets t).length = byteLength t := by
  induction t with
  | nil => rfl
  | cons c t ih =>
    rw [octets_cons, List.length_append, ih, byteLength_cons]
    simp [octets, encode]

/-- An ASCII character is its own byte. -/
theorem octets_singleton {c : Char} (h : c.toNat < 128) : octets [c] = [c] := by
  have hval : c.val.toNat < 128 := h
  have hbyte : (UInt8.ofNat c.val.toNat).toNat = c.toNat := Utf8.toNat_ofNat_byte (by omega)
  rw [octets, encode, List.flatMap_singleton, String.utf8EncodeChar, if_pos (by omega), List.map_singleton, hbyte,
    Char.ofNat_toNat]

/-- The bytes of the other characters are not ASCII. -/
theorem le_toNat_of_mem_octets {c d : Char} (h : 128 ≤ c.toNat) (hd : d ∈ octets [c]) : 128 ≤ d.toNat := by
  have hval : 128 ≤ c.val.toNat := h
  -- every byte of such a character is a marker of 128 at least, plus some bits
  have hbyte : ∀ b ∈ String.utf8EncodeChar c, 128 ≤ b.toNat := by
    intro b hb
    rw [String.utf8EncodeChar, if_neg (by omega)] at hb
    split at hb
    · simp only [List.mem_cons, List.not_mem_nil, or_false] at hb
      obtain rfl | rfl := hb <;> rw [Utf8.toNat_ofNat_byte (by omega)] <;> omega
    · split at hb
      · simp only [List.mem_cons, List.not_mem_nil, or_false] at hb
        obtain rfl | rfl | rfl := hb <;> rw [Utf8.toNat_ofNat_byte (by omega)] <;> omega
      · simp only [List.mem_cons, List.not_mem_nil, or_false] at hb
        obtain rfl | rfl | rfl | rfl := hb <;> rw [Utf8.toNat_ofNat_byte (by omega)] <;> omega
  rw [octets, encode, List.flatMap_singleton] at hd
  obtain ⟨b, hb, rfl⟩ := List.mem_map.mp hd
  have hlt : b.toNat < 256 := b.toNat_lt
  have hvalid : (b.toNat).isValidChar := .inl (by omega)
  rw [Char.ofNat, dif_pos hvalid]
  exact hbyte b hb

theorem exists_append_of_notMem {x : Char} {t u a b : Text} (hx : x ∉ t) (h : t ++ u = a ++ x :: b) :
    ∃ a', a = t ++ a' ∧ u = a' ++ x :: b := by
  induction t generalizing a with
  | nil => exact ⟨a, rfl, h⟩
  | cons c t ih =>
    rw [List.mem_cons, not_or] at hx
    cases a with
    | nil => exact absurd (List.cons.inj h).1.symm hx.1
    | cons d a =>
      obtain ⟨rfl, htail⟩ := List.cons.inj h
      obtain ⟨a', rfl, hu⟩ := ih hx.2 htail
      exact ⟨a', rfl, hu⟩

/-- **An ASCII byte is an ASCII character**, and splits the text. -/
theorem octets_eq_append_cons {x : Char} (hx : x.toNat < 128) {t a b : Text} (h : octets t = a ++ x :: b) :
    ∃ u v, t = u ++ x :: v ∧ octets u = a ∧ octets v = b := by
  induction t generalizing a with
  | nil => cases a <;> cases h
  | cons c t ih =>
    rw [octets_cons] at h
    by_cases hc : x ∈ octets [c]
    · -- the byte is this character, or it belongs to a later one
      have hascii : c.toNat < 128 := by
        by_contra hle
        have hle' := le_toNat_of_mem_octets (by omega) hc
        omega
      rw [octets_singleton hascii] at h
      cases a with
      | nil =>
        obtain ⟨rfl, rfl⟩ := List.cons.inj h
        exact ⟨[], t, rfl, rfl, rfl⟩
      | cons d a =>
        obtain ⟨rfl, ht⟩ := List.cons.inj h
        obtain ⟨u, v, rfl, rfl, rfl⟩ := ih ht
        exact ⟨c :: u, v, rfl, by rw [octets_cons, octets_singleton hascii]; rfl, rfl⟩
    · obtain ⟨a', rfl, ht⟩ := exists_append_of_notMem hc h
      obtain ⟨u, v, rfl, rfl, rfl⟩ := ih ht
      exact ⟨c :: u, v, rfl, octets_cons c u, rfl⟩

end Text

namespace Region

/-- A text is cut between two characters, and never inside one. -/
theorem dropBytes?_eq_some_iff {n : Nat} {t u : Text} :
    dropBytes? n t = some u ↔ ∃ before, t = before ++ u ∧ Text.byteLength before = n := by
  induction t generalizing n with
  | nil =>
    cases n with
    | zero => simp [dropBytes?, eq_comm]
    | succ n => simp [dropBytes?]
  | cons c t ih =>
    have hpos := c.utf8Size_pos
    cases n with
    | zero =>
      rw [dropBytes?, Option.some.injEq]
      constructor
      · rintro rfl
        exact ⟨[], rfl, rfl⟩
      · rintro ⟨before, ht, hsize⟩
        cases before with
        | nil => exact ht
        | cons d before =>
          have hd := d.utf8Size_pos
          rw [Text.byteLength_cons] at hsize
          omega
    | succ n =>
      rw [dropBytes?]
      constructor
      · intro h
        split at h
        · obtain ⟨before, rfl, hsize⟩ := ih.mp h
          exact ⟨c :: before, rfl, by rw [Text.byteLength_cons]; omega⟩
        · cases h
      · rintro ⟨before, ht, hsize⟩
        cases before with
        | nil => simp at hsize
        | cons d before =>
          obtain ⟨rfl, rfl⟩ := List.cons.inj ht
          rw [Text.byteLength_cons] at hsize
          rw [if_pos (by omega)]
          exact ih.mpr ⟨before, rfl, by omega⟩

@[simp] theorem dropBytes?_append (before t : Text) : dropBytes? (Text.byteLength before) (before ++ t) = some t :=
  dropBytes?_eq_some_iff.mpr ⟨before, rfl, rfl⟩

end Region

end Freestanding
