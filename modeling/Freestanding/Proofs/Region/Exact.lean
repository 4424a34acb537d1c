import Freestanding.Proofs.Region.Depth
import Freestanding.Proofs.Text.Octets

/-!
# The region matcher is exact

A region is found by its offset, and an offset counts bytes.  A byte is live if it is read as code when the
reading starts as code at the offset.  The region at an offset ends with the first byte up to which as many
closing delimiters are live as opening ones.  Nothing before the region or after it matters, its text is cut
out between characters, and a region that is opened inside it ends inside it.

The delimiters are ASCII, and so are the quote, the semicolon and the line break.  Hence the bytes of the
other characters change neither the mode nor a count, and the search by characters gives the answer of the
search by bytes.

## Main definitions

* `Region.LiveAt`, `Region.liveUpTo`, `Region.Balanced` — live bytes, and their number up to an offset.
* `Region.Exact` — what the matcher promises for a text and an offset.

## Main results

* `Region.scan_octets` — characters and bytes take the machine to the same state.
* `Region.findOpen?_eq_some_iff` — **the search for a delimiter finds the first live one.**
* `Region.exact_of_isDelimiter` — **the region matcher is exact.**
-/

namespace Freestanding.Region

open Text (octets byteLength)

variable {opening closing : Char}

/-- The characters that can delimit a region. -/
structure IsDelimiter (c : Char) : Prop where
  ascii : c.toNat < 128
  ne_quote : c ≠ '"'
  ne_semicolon : c ≠ ';'

theorem IsDelimiter.isLive {c : Char} (h : IsDelimiter c) : isLive .code c := by
  simp [Region.isLive, h.ne_quote, h.ne_semicolon]

/-! ### Live bytes -/

/-- The byte at offset `p` is `c`, and it is read as code when the reading starts as code at offset `start`. -/
def LiveAt (c : Char) (t : Text) (start p : Nat) : Prop :=
  start ≤ p ∧ t.octets[p]? = some c ∧ modeAfter .code ((t.octets.drop start).take (p - start)) = .code

instance (c : Char) (t : Text) (start : Nat) : DecidablePred (LiveAt c t start) :=
  fun _ => inferInstanceAs (Decidable (_ ∧ _ ∧ _))

/-- The number of live bytes `c` up to offset `p`. -/
def liveUpTo (c : Char) (t : Text) (start p : Nat) : Nat :=
  (List.range (p + 1)).countP (LiveAt c t start)

/-- Up to offset `p`, as many opening delimiters are live as closing ones. -/
def Balanced (opening closing : Char) (t : Text) (start p : Nat) : Prop :=
  start ≤ p ∧ liveUpTo opening t start p = liveUpTo closing t start p

instance (opening closing : Char) (t : Text) (start : Nat) : DecidablePred (Balanced opening closing t start) :=
  fun _ => inferInstanceAs (Decidable (_ ∧ _))

theorem liveAt_add_iff {c : Char} {t : Text} {start n : Nat} : LiveAt c t start (start + n) ↔
    (t.octets.drop start)[n]? = some c ∧ modeAfter .code ((t.octets.drop start).take n) = .code := by
  rw [LiveAt, Nat.add_sub_cancel_left, List.getElem?_drop]
  exact and_iff_right (Nat.le_add_right start n)

/-- Counting offsets is counting along the bytes. -/
theorem countP_range_liveAt (c : Char) (t : Text) (start n : Nat) :
    (List.range (start + n)).countP (LiveAt c t start) = liveCount c .code ((t.octets.drop start).take n) := by
  induction n with
  | zero =>
    rw [Nat.add_zero, List.take_zero, liveCount_nil, List.countP_eq_zero]
    intro p hp hlive
    have hle : start ≤ p := (of_decide_eq_true hlive).1
    rw [List.mem_range] at hp
    omega
  | succ n ih =>
    rw [← Nat.add_assoc, List.range_succ, List.countP_append, ih, List.countP_singleton, List.take_add_one]
    cases hget : (t.octets.drop start)[n]? with
    | none => simp [liveAt_add_iff, hget]
    | some d =>
      rw [Option.toList_some, liveCount_concat]
      simp [liveAt_add_iff, hget, and_comm]

theorem balanced_add_iff {t : Text} {start n : Nat} :
    Balanced opening closing t start (start + n) ↔ Level opening closing (t.octets.drop start) n := by
  rw [Balanced, Level, liveUpTo, liveUpTo, Nat.add_assoc, countP_range_liveAt, countP_range_liveAt]
  exact and_iff_right (Nat.le_add_right start n)

/-- The least of a set of offsets that begins at `start`. -/
theorem isLeast_add_iff {s : Nat → Prop} {start n : Nat} (hs : ∀ p, s p → start ≤ p) :
    IsLeast {p | s p} (start + n) ↔ IsLeast {m | s (start + m)} n := by
  refine and_congr_right fun _ => ⟨fun h m hm => ?_, fun h p hp => ?_⟩
  · have hle : start + n ≤ start + m := h hm
    omega
  · obtain ⟨m, rfl⟩ := Nat.exists_eq_add_of_le (hs p hp)
    have hle : n ≤ m := h hp
    omega

/-! ### Bytes that are no ASCII -/

theorem next_of_le {c : Char} (h : 128 ≤ c.toNat) (mode : Mode) : mode.next c = mode := by
  have hquote : c ≠ '"' := by rintro rfl; exact absurd h (by decide)
  have hsemicolon : c ≠ ';' := by rintro rfl; exact absurd h (by decide)
  have hline : c ≠ '\n' := by rintro rfl; exact absurd h (by decide)
  cases mode <;> simp [Mode.next, hquote, hsemicolon, hline]

theorem ne_of_le {c d : Char} (hc : c.toNat < 128) (hd : 128 ≤ d.toNat) : d ≠ c := by
  rintro rfl
  omega

theorem modeAfter_of_le {t : Text} (h : ∀ c ∈ t, 128 ≤ c.toNat) (mode : Mode) : modeAfter mode t = mode := by
  induction t with
  | nil => rfl
  | cons c t ih =>
    rw [modeAfter_cons, next_of_le (h c List.mem_cons_self)]
    exact ih fun d hd => h d (List.mem_cons_of_mem c hd)

theorem liveCount_of_le {c : Char} (hc : c.toNat < 128) {t : Text} (h : ∀ d ∈ t, 128 ≤ d.toNat) (mode : Mode) :
    liveCount c mode t = 0 := by
  induction t with
  | nil => rfl
  | cons d t ih =>
    have hd := h d List.mem_cons_self
    rw [liveCount_cons, next_of_le hd, if_neg fun h => ne_of_le hc hd h.2, Nat.zero_add]
    exact ih fun e he => h e (List.mem_cons_of_mem d he)

/-- The bytes of a character are that character, or none of them is ASCII, and nor is it. -/
theorem octets_singleton_cases (c : Char) :
    octets [c] = [c] ∨ (∀ d ∈ octets [c], 128 ≤ d.toNat) ∧ ∀ d ∈ [c], 128 ≤ d.toNat := by
  by_cases h : c.toNat < 128
  · exact .inl (Text.octets_singleton h)
  · have hle : 128 ≤ c.toNat := by omega
    exact .inr ⟨fun d hd => Text.le_toNat_of_mem_octets hle hd, fun d hd => List.mem_singleton.mp hd ▸ hle⟩

theorem modeAfter_octets (mode : Mode) (t : Text) : modeAfter mode (octets t) = modeAfter mode t := by
  induction t generalizing mode with
  | nil => rfl
  | cons c t ih =>
    have hc : modeAfter mode (octets [c]) = modeAfter mode [c] := by
      rcases octets_singleton_cases c with h | ⟨hbytes, hchar⟩
      · rw [h]
      · rw [modeAfter_of_le hbytes, modeAfter_of_le hchar]
    rw [Text.octets_cons, modeAfter_append, ih, hc]
    rfl

private theorem liveCount_octets {c : Char} (hc : c.toNat < 128) (mode : Mode) (t : Text) :
    liveCount c mode (octets t) = liveCount c mode t := by
  induction t generalizing mode with
  | nil => rfl
  | cons d t ih =>
    have hd : liveCount c mode (octets [d]) = liveCount c mode [d] := by
      rcases octets_singleton_cases d with h | ⟨hbytes, hchar⟩
      · rw [h]
      · rw [liveCount_of_le hc hbytes, liveCount_of_le hc hchar]
    rw [Text.octets_cons, liveCount_append, ih, hd, modeAfter_octets]
    exact (liveCount_append c mode [d] t).symm

/-- **Characters and bytes take the machine to the same state.** -/
theorem scan_octets (ho : opening.toNat < 128) (hc : closing.toNat < 128) (s : Mode × Nat) (t : Text) :
    scan opening closing s (octets t) = scan opening closing s t := by
  have hinert : ∀ {u : Text}, (∀ d ∈ u, 128 ≤ d.toNat) → Inert opening closing u := by
    refine fun h => inert_of_forall fun d hd => ?_
    have hle := h d hd
    simp [isInert, ne_of_le ho hle, ne_of_le hc hle, ne_of_le (c := '"') (by decide) hle,
      ne_of_le (c := ';') (by decide) hle, ne_of_le (c := '\n') (by decide) hle]
  induction t generalizing s with
  | nil => rfl
  | cons c t ih =>
    have hchar : scan opening closing s (octets [c]) = scan opening closing s [c] := by
      rcases octets_singleton_cases c with h | ⟨hbytes, hchar⟩
      · rw [h]
      · rw [hinert hbytes, hinert hchar]
    rw [Text.octets_cons, scan_append, hchar]
    simp only [ih]
    exact (scan_append s [c] t).symm

/-! ### Partners by offset -/

/-- At an offset, two partners enclose the text `inner`. -/
def Encloses (opening closing : Char) (t : Text) (offset : Nat) (inner : Text) : Prop :=
  ∃ before after, t = before ++ opening :: (inner ++ closing :: after) ∧ byteLength before = offset ∧
    scan opening closing (.code, 1) inner = some (.code, 1)

/-- The region at an offset in which two delimiters enclose a text. -/
def around (opening closing : Char) (offset : Nat) (inner : Text) : Region where
  openAt := offset
  closeAt := offset + (byteLength inner + 1)
  inner := inner
  outer := opening :: (inner ++ [closing])

theorem byteLength_cons_ascii {c : Char} (h : c.toNat < 128) (t : Text) :
    byteLength (c :: t) = byteLength t + 1 := by
  rw [← Text.length_octets, Text.octets_cons, Text.octets_singleton h, List.length_append, Text.length_octets,
    List.length_singleton, Nat.add_comm]

section

variable (ho : IsDelimiter opening) (hc : IsDelimiter closing) (hne : opening ≠ closing)
include ho hc hne

theorem match?_eq_some_iff {t : Text} {offset : Nat} {r : Region} : match? opening closing t offset = some r ↔
      ∃ inner, Encloses opening closing t offset inner ∧ r = around opening closing offset inner := by
  simp only [match?, Option.bind_eq_bind, Option.bind_eq_some_iff, dropBytes?_eq_some_iff, Option.some.injEq,
    closeIndex?_eq_some_iff hne ho.isLive hc.isLive]
  -- what the matcher takes from the text behind the offset
  have hregion : ∀ inner after, (Region.mk offset
        (offset + byteLength ((opening :: (inner ++ closing :: after)).take (inner.length + 1)))
        (((opening :: (inner ++ closing :: after)).take (inner.length + 1)).drop 1)
        ((opening :: (inner ++ closing :: after)).take (inner.length + 1 + 1))) =
      around opening closing offset inner := by
    intro inner after
    rw [List.take_succ_cons, List.take_left', List.take_succ_cons, List.take_length_add_append,
      byteLength_cons_ascii ho.ascii]
    · rfl
    · rfl
  constructor
  · rintro ⟨u, ⟨before, rfl, hsize⟩, i, ⟨inner, after, rfl, rfl, hscan⟩, rfl⟩
    exact ⟨inner, ⟨before, after, rfl, hsize, hscan⟩, hregion inner after⟩
  · rintro ⟨inner, ⟨before, after, rfl, hsize, hscan⟩, rfl⟩
    exact ⟨_, ⟨before, rfl, hsize⟩, _, ⟨inner, after, rfl, rfl, hscan⟩, hregion inner after⟩

/-- The search by characters and the search by bytes find the same partners. -/
theorem closeIndex?_octets_iff {t : Text} {offset n : Nat} :
    closeIndex? opening closing (t.octets.drop offset) = some n ↔
      ∃ inner, Encloses opening closing t offset inner ∧ n = byteLength inner + 1 := by
  rw [closeIndex?_eq_some_iff hne ho.isLive hc.isLive]
  constructor
  · rintro ⟨bytes, rest, hdrop, rfl, hscan⟩
    have hsplit : t.octets = t.octets.take offset ++ opening :: (bytes ++ closing :: rest) := by
      rw [← hdrop, List.take_append_drop]
    obtain ⟨before, behind, rfl, hbefore, hbehind⟩ := Text.octets_eq_append_cons ho.ascii hsplit
    obtain ⟨inner, after, rfl, rfl, -⟩ := Text.octets_eq_append_cons hc.ascii hbehind
    have hlt : offset < (octets (before ++ opening :: (inner ++ closing :: after))).length := by
      by_contra hle
      rw [List.drop_eq_nil_of_le (by omega)] at hdrop
      cases hdrop
    have hsize : byteLength before = offset := by
      rw [← Text.length_octets, hbefore, List.length_take_of_le hlt.le]
    rw [scan_octets ho.ascii hc.ascii] at hscan
    exact ⟨inner, ⟨before, after, rfl, hsize, hscan⟩, by rw [Text.length_octets]⟩
  · rintro ⟨inner, ⟨before, after, rfl, rfl, hscan⟩, rfl⟩
    refine ⟨octets inner, octets after, ?_, by rw [Text.length_octets], ?_⟩
    · rw [Text.octets_append, ← Text.length_octets, List.drop_left, Text.octets_cons,
        Text.octets_singleton ho.ascii, Text.octets_append, Text.octets_cons closing,
        Text.octets_singleton hc.ascii]
      rfl
    · rw [scan_octets ho.ascii hc.ascii, hscan]

/-- **The region at an offset ends at the first balanced offset.** -/
theorem exists_match?_iff {t : Text} {offset p : Nat} :
    (∃ r, match? opening closing t offset = some r ∧ r.closeAt = p) ↔
      t.octets[offset]? = some opening ∧ IsLeast {p | Balanced opening closing t offset p} p := by
  have hclose : ∀ n, closeIndex? opening closing (t.octets.drop offset) = some n ↔
      t.octets[offset]? = some opening ∧ IsLeast {p | Balanced opening closing t offset p} (offset + n) := by
    intro n
    rw [closeIndex?_eq_some_iff_isLeast hne ho.isLive hc.isLive, List.head?_drop, isLeast_add_iff fun p hp => hp.1]
    simp only [balanced_add_iff]
  constructor
  · rintro ⟨r, hr, rfl⟩
    obtain ⟨inner, hinner, rfl⟩ := (match?_eq_some_iff ho hc hne).mp hr
    exact (hclose _).mp ((closeIndex?_octets_iff ho hc hne).mpr ⟨inner, hinner, rfl⟩)
  · rintro ⟨hbyte, hleast⟩
    obtain ⟨n, rfl⟩ := Nat.exists_eq_add_of_le hleast.1.1
    obtain ⟨inner, hinner, rfl⟩ := (closeIndex?_octets_iff ho hc hne).mp ((hclose n).mpr ⟨hbyte, hleast⟩)
    exact ⟨_, (match?_eq_some_iff ho hc hne).mpr ⟨inner, hinner, rfl⟩, rfl⟩

/-- A delimiter that is live inside a region has a partner there. -/
theorem exists_match?_inside {t : Text} {offset q : Nat} {r : Region}
    (hr : match? opening closing t offset = some r) (hlt : offset < q) (hq : q < r.closeAt)
    (hlive : LiveAt opening t offset q) :
    ∃ r', match? opening closing t q = some r' ∧ r'.openAt = q ∧ r'.closeAt < r.closeAt := by
  obtain ⟨inner, hinner, rfl⟩ := (match?_eq_some_iff ho hc hne).mp hr
  obtain ⟨n, rfl⟩ := Nat.exists_eq_add_of_le hlt.le
  obtain ⟨hget, hcode⟩ := liveAt_add_iff.mp hlive
  have hclose := (closeIndex?_octets_iff ho hc hne).mpr ⟨inner, hinner, rfl⟩
  simp only [around] at hq ⊢
  obtain ⟨j, hj, hlt'⟩ := exists_closeIndex?_drop hne ho.isLive hc.isLive hclose (by omega) (by omega) hget hcode
  rw [List.drop_drop] at hj
  obtain ⟨inner', hinner', rfl⟩ := (closeIndex?_octets_iff ho hc hne).mp hj
  refine ⟨_, (match?_eq_some_iff ho hc hne).mpr ⟨inner', hinner', rfl⟩, rfl, ?_⟩
  simp only [around]
  omega

end

/-! ### What stands around a region -/

/-- The region at another offset. -/
def moveTo (offset : Nat) (r : Region) : Region :=
  { r with openAt := offset, closeAt := offset + (r.closeAt - r.openAt) }

private theorem moveTo_moveTo (m n : Nat) (r : Region) : (r.moveTo m).moveTo n = r.moveTo n := by
  simp [moveTo]

/-- The matcher looks at the text behind the offset only. -/
theorem match?_eq (t : Text) (offset : Nat) : match? opening closing t offset =
    (dropBytes? offset t).bind fun u => (match? opening closing u 0).map (moveTo offset) := by
  rw [match?, Option.bind_eq_bind]
  refine congrArg _ (funext fun u => ?_)
  rw [match?, dropBytes?]
  simp only [Option.bind_eq_bind, Option.bind_some]
  cases closeIndex? opening closing u with
  | none => rfl
  | some i => simp [moveTo]

private theorem dropBytes?_add (before t : Text) (n : Nat) :
    dropBytes? (byteLength before + n) (before ++ t) = dropBytes? n t := by
  induction before with
  | nil => simp
  | cons c before ih =>
    have hpos := c.utf8Size_pos
    obtain ⟨m, hm⟩ : ∃ m, byteLength (c :: before) + n = m + 1 :=
      ⟨byteLength (c :: before) + n - 1, by rw [Text.byteLength_cons]; omega⟩
    rw [hm, List.cons_append, dropBytes?, ← hm, Text.byteLength_cons, if_pos (by omega),
      show c.utf8Size + byteLength before + n - c.utf8Size = byteLength before + n by omega, ih]

/-- The text before an offset may be exchanged for another. -/
theorem match?_append_left (before before' u : Text) (n : Nat) :
    match? opening closing (before' ++ u) (byteLength before' + n) =
      (match? opening closing (before ++ u) (byteLength before + n)).map (moveTo (byteLength before' + n)) := by
  rw [match?_eq, match?_eq (before ++ u), dropBytes?_add, dropBytes?_add]
  cases dropBytes? n u with
  | none => rfl
  | some v =>
    simp only [Option.bind_some, Option.map_map]
    congr 1
    funext r
    exact (moveTo_moveTo _ _ r).symm

/-- The text up to the end of a region decides on it. -/
theorem encloses_of_byteLength (ho : opening.toNat < 128) (hc : closing.toNat < 128) {u after : Text} {offset : Nat}
    {inner : Text} (h : Encloses opening closing (u ++ after) offset inner)
    (hsize : byteLength u = (around opening closing offset inner).stop) (after' : Text) :
    Encloses opening closing (u ++ after') offset inner := by
  obtain ⟨before, rest, ht, rfl, hscan⟩ := h
  have hcut : dropBytes? (byteLength u) (u ++ after) = some rest := by
    refine dropBytes?_eq_some_iff.mpr ⟨before ++ opening :: (inner ++ [closing]), by simp [ht], ?_⟩
    rw [hsize, Text.byteLength_append, byteLength_cons_ascii ho, Text.byteLength_append, byteLength_cons_ascii hc]
    rfl
  obtain rfl : after = rest := Option.some.inj ((dropBytes?_append u after).symm.trans hcut)
  have hu : u ++ after = (before ++ opening :: (inner ++ [closing])) ++ after := by simp [ht]
  rw [List.append_cancel_right hu]
  exact ⟨before, after', by simp, rfl, hscan⟩

/-! ### The first live delimiter -/

theorem findLive?_eq_some_iff (ho : isLive .code opening) {mode : Mode} {offset p : Nat} {t : Text} :
    findLive? opening mode offset t = some p ↔ ∃ u v, t = u ++ opening :: v ∧ p = offset + byteLength u ∧
      modeAfter mode u = .code ∧ liveCount opening mode u = 0 := by
  induction t generalizing mode offset with
  | nil => simp [findLive?]
  | cons c t ih =>
    have hlive : (isLive mode c && c == opening) = true ↔ mode = .code ∧ c = opening := by
      constructor
      · intro h
        simp only [isLive, Bool.and_eq_true, beq_iff_eq] at h
        exact ⟨h.1.1.1, h.2⟩
      · rintro ⟨rfl, rfl⟩
        simp [ho]
    rw [findLive?]
    by_cases h : mode = .code ∧ c = opening
    · rw [if_pos (hlive.mpr h), Option.some.injEq]
      constructor
      · rintro rfl
        exact ⟨[], t, by rw [h.2]; rfl, rfl, h.1, rfl⟩
      · rintro ⟨u, v, ht, rfl, -, hcount⟩
        cases u with
        | nil => rfl
        | cons d u =>
          -- a first live delimiter is not passed over
          obtain ⟨rfl, -⟩ := List.cons.inj ht
          rw [liveCount_cons, if_pos h] at hcount
          omega
    · rw [if_neg (mt hlive.mp h), ih]
      constructor
      · rintro ⟨u, v, rfl, rfl, hmode, hcount⟩
        refine ⟨c :: u, v, rfl, by rw [Text.byteLength_cons]; omega, hmode, ?_⟩
        rw [liveCount_cons, if_neg h, hcount]
      · rintro ⟨u, v, ht, rfl, hmode, hcount⟩
        cases u with
        | nil => exact absurd ⟨hmode, (List.cons.inj ht).1⟩ h
        | cons d u =>
          obtain ⟨rfl, rfl⟩ := List.cons.inj ht
          rw [liveCount_cons, if_neg h, Nat.zero_add] at hcount
          exact ⟨u, v, rfl, by rw [Text.byteLength_cons]; omega, hmode, hcount⟩

theorem seek_of_le {before offset : Nat} (h : offset ≤ before) (t : Text) : seek before offset t = (before, t) := by
  cases t with
  | nil => rfl
  | cons c t => rw [seek, if_pos h]

/-- From an offset on there are the last bytes of a character that is cut there, if one is, and the bytes of the
text that is searched. -/
theorem exists_octets_seek {before offset : Nat} (h : before ≤ offset) (t : Text) :
    ∃ cut, (∀ c ∈ cut, 128 ≤ c.toNat) ∧
      t.octets.drop (offset - before) = cut ++ octets (seek before offset t).2 ∧
      ((seek before offset t).2 = [] ∨ offset + cut.length = (seek before offset t).1) := by
  induction t generalizing before with
  | nil => exact ⟨[], by simp, by simp [seek], .inl rfl⟩
  | cons c t ih =>
    have hsize : (octets [c]).length = c.utf8Size := by simp [Text.length_octets]
    rw [seek, Text.octets_cons]
    by_cases hstop : offset ≤ before
    · rw [if_pos hstop, Nat.sub_eq_zero_of_le hstop]
      exact ⟨[], by simp, Text.octets_cons c t ▸ rfl, .inr (Nat.le_antisymm hstop h)⟩
    rw [if_neg hstop]
    by_cases hnext : before + c.utf8Size ≤ offset
    · obtain ⟨cut, hcut, hdrop, hlength⟩ := ih hnext
      refine ⟨cut, hcut, ?_, hlength⟩
      rw [show offset - before = (octets [c]).length + (offset - (before + c.utf8Size)) by omega,
        List.drop_length_add_append, hdrop]
    · -- the offset lies inside this character
      rw [seek_of_le (by omega)]
      refine ⟨(octets [c]).drop (offset - before), ?_, List.drop_append_of_le_length (by omega), .inr ?_⟩
      · intro d hd
        rcases octets_singleton_cases c with hascii | ⟨hbytes, -⟩
        · rw [hascii, List.length_singleton] at hsize
          omega
        · exact hbytes d (List.mem_of_mem_drop hd)
      · rw [List.length_drop]
        omega

theorem isLeast_liveAt_iff {c : Char} {t : Text} {start n : Nat} : IsLeast {p | LiveAt c t start p} (start + n) ↔
    LiveAt c t start (start + n) ∧ liveCount c .code ((t.octets.drop start).take n) = 0 := by
  refine and_congr_right fun _ => ?_
  rw [← countP_range_liveAt, List.countP_eq_zero]
  constructor
  · intro h p hp hlive
    have hat : LiveAt c t start p := of_decide_eq_true hlive
    have hle : start + n ≤ p := h hat
    rw [List.mem_range] at hp
    omega
  · intro h p hp
    have hlive : LiveAt c t start p := hp
    by_contra hlt
    exact h p (List.mem_range.mpr (by omega)) (decide_eq_true hlive)

/-- **The search for a delimiter finds the first live one.** -/
theorem findOpen?_eq_some_iff (ho : IsDelimiter opening) {t : Text} {start p : Nat} :
    findOpen? opening t start = some p ↔ IsLeast {p | LiveAt opening t start p} p := by
  obtain ⟨cut, hcut, hdrop, hlength⟩ := exists_octets_seek (Nat.zero_le start) t
  rw [Nat.sub_zero] at hdrop
  rw [findOpen?, findLive?_eq_some_iff ho.isLive]
  -- in front of a text of the search there are the bytes that are cut off
  have htake : ∀ u v : Text, (seek 0 start t).2 = u ++ opening :: v →
      t.octets.drop start = (cut ++ octets u) ++ opening :: octets v := by
    intro u v hu
    rw [hdrop, hu, Text.octets_append, Text.octets_cons, Text.octets_singleton ho.ascii, List.append_assoc]
    rfl
  have hmode : ∀ u : Text, modeAfter .code (cut ++ octets u) = modeAfter .code u := by
    intro u
    rw [modeAfter_append, modeAfter_of_le hcut, modeAfter_octets]
  have hcount : ∀ u : Text, liveCount opening .code (cut ++ octets u) = liveCount opening .code u := by
    intro u
    rw [liveCount_append, modeAfter_of_le hcut, liveCount_octets ho.ascii, liveCount_of_le ho.ascii hcut,
      Nat.zero_add]
  have hlength' : ∀ u v : Text,
      (seek 0 start t).2 = u ++ opening :: v → start + cut.length = (seek 0 start t).1 :=
    fun u v hu => hlength.resolve_left fun hnil => absurd (hu.symm.trans hnil) (by simp)
  constructor
  · rintro ⟨u, v, hu, rfl, hcode, hnone⟩
    have hp : (seek 0 start t).1 + byteLength u = start + (cut ++ octets u).length := by
      rw [List.length_append, Text.length_octets, ← hlength' u v hu]
      omega
    rw [hp, isLeast_liveAt_iff, liveAt_add_iff, htake u v hu, List.take_left, hmode, hcount]
    exact ⟨⟨by simp, hcode⟩, hnone⟩
  · intro h
    obtain ⟨n, rfl⟩ := Nat.exists_eq_add_of_le h.1.1
    obtain ⟨hlive, hnone⟩ := isLeast_liveAt_iff.mp h
    obtain ⟨hget, hcode⟩ := liveAt_add_iff.mp hlive
    obtain ⟨hlt, hget⟩ := List.getElem?_eq_some_iff.mp hget
    have hsplit : cut ++ octets (seek 0 start t).2 =
        (t.octets.drop start).take n ++ opening :: (t.octets.drop start).drop (n + 1) := by
      rw [← hdrop, ← hget, List.getElem_cons_drop, List.take_append_drop]
    have hnotMem : opening ∉ cut := fun hmem => ne_of_le ho.ascii (hcut opening hmem) rfl
    obtain ⟨bytes, hbytes, hrest⟩ := Text.exists_append_of_notMem hnotMem hsplit
    obtain ⟨u, v, hu, rfl, -⟩ := Text.octets_eq_append_cons ho.ascii hrest
    have hn : n = cut.length + byteLength u := by
      rw [← List.length_take_of_le hlt.le, hbytes, List.length_append, Text.length_octets]
    rw [hbytes, hmode] at hcode
    rw [hbytes, hcount] at hnone
    exact ⟨u, v, hu, by rw [← hlength' u v hu]; omega, hcode, hnone⟩

/-! ### The promises of the matcher -/

/-- What the matcher promises for a text and an offset. -/
structure Exact (opening closing : Char) (t : Text) (offset : Nat) : Prop where
  /-- There is a region if the offset is that of an opening delimiter and some offset is balanced. -/
  isSome_iff : (match? opening closing t offset).isSome ↔
    t.octets[offset]? = some opening ∧ ∃ p, Balanced opening closing t offset p
  /-- The region ends at the first balanced offset. -/
  least : ∀ r, match? opening closing t offset = some r →
    r.openAt = offset ∧ IsLeast {p | Balanced opening closing t offset p} r.closeAt
  /-- Wherever the search gets, it knows how many more delimiters have been opened than closed, and a closing one
  finds one that is open. -/
  depth : ∀ (before u v : Text) (mode : Mode) (d : Nat), t = before ++ (u ++ v) → byteLength before = offset →
    (u ++ v).head? = some opening → scan opening closing (.code, 0) u = some (mode, d) →
    closeIndex? opening closing (u ++ v) = closeIndexFrom? opening closing mode d u.length v ∧
      d + liveCount closing .code u = liveCount opening .code u ∧ (v.head? = some closing → 0 < d)
  /-- The region is a piece of the text, and so is what it encloses. -/
  slices : ∀ r, match? opening closing t offset = some r → ∃ before after, t = before ++ r.outer ++ after ∧
    r.outer = opening :: (r.inner ++ [closing]) ∧ byteLength before = r.openAt ∧
    byteLength (before ++ opening :: r.inner) = r.closeAt ∧ byteLength (before ++ r.outer) = r.stop
  /-- Other text before the offset moves the region. -/
  before : ∀ (before before' u : Text) (n : Nat), t = before ++ u → offset = byteLength before + n →
    match? opening closing (before' ++ u) (byteLength before' + n) =
      (match? opening closing t offset).map (moveTo (byteLength before' + n))
  /-- Other text after the region leaves it as it is. -/
  after : ∀ (r : Region) (u after after' : Text), match? opening closing t offset = some r → t = u ++ after →
    byteLength u = r.stop → match? opening closing (u ++ after') offset = some r
  /-- A region that is opened inside another one ends inside it. -/
  nested : ∀ r q, match? opening closing t offset = some r → offset < q → q < r.closeAt →
    LiveAt opening t offset q →
      ∃ r', match? opening closing t q = some r' ∧ r'.openAt = q ∧ r'.closeAt < r.closeAt
  /-- The search for a delimiter finds the first live one. -/
  found : ∀ p, findOpen? opening t offset = some p ↔ IsLeast {p | LiveAt opening t offset p} p

/-- **The region matcher is exact.** -/
theorem exact_of_isDelimiter (ho : IsDelimiter opening) (hc : IsDelimiter closing) (hne : opening ≠ closing)
    (t : Text) (offset : Nat) : Exact opening closing t offset where
  isSome_iff := by
    rw [Option.isSome_iff_exists]
    constructor
    · rintro ⟨r, hr⟩
      obtain ⟨hbyte, hleast⟩ := (exists_match?_iff ho hc hne).mp ⟨r, hr, rfl⟩
      exact ⟨hbyte, r.closeAt, hleast.1⟩
    · rintro ⟨hbyte, hp⟩
      obtain ⟨r, hr, -⟩ := (exists_match?_iff ho hc hne).mpr ⟨hbyte, Nat.isLeast_find hp⟩
      exact ⟨r, hr⟩
  least := by
    intro r hr
    obtain ⟨inner, -, rfl⟩ := (match?_eq_some_iff ho hc hne).mp hr
    exact ⟨rfl, ((exists_match?_iff ho hc hne).mp ⟨_, hr, rfl⟩).2⟩
  depth := by
    intro before u v mode d _ _ hhead hscan
    exact depth_of_scan hne ho.isLive hc.isLive hhead hscan
  slices := by
    intro r hr
    obtain ⟨inner, ⟨before, after, rfl, rfl, -⟩, rfl⟩ := (match?_eq_some_iff ho hc hne).mp hr
    refine ⟨before, after, by simp [around], rfl, rfl, ?_, ?_⟩
    · rw [Text.byteLength_append, byteLength_cons_ascii ho.ascii]
      rfl
    · simp only [around, stop, Text.byteLength_append, byteLength_cons_ascii ho.ascii,
        byteLength_cons_ascii hc.ascii, Text.byteLength_nil]
      omega
  before := by
    rintro before before' u n rfl rfl
    exact match?_append_left before before' u n
  after := by
    rintro r u after after' hr rfl hsize
    obtain ⟨inner, hinner, rfl⟩ := (match?_eq_some_iff ho hc hne).mp hr
    have hinner' := encloses_of_byteLength ho.ascii hc.ascii hinner hsize after'
    exact (match?_eq_some_iff ho hc hne).mpr ⟨inner, hinner', rfl⟩
  nested := fun _ _ => exists_match?_inside ho hc hne
  found := fun _ => findOpen?_eq_some_iff ho

/-- The search starts inside a character, and the region holds a delimiter in quotes, one in a comment, another
region and a character of two bytes. -/
theorem exact_of_isDelimiter_nested :
    findOpen? '(' "é(a\")\"(;)\n)ü)z".toList 1 = some 2 ∧
      match? '(' ')' "é(a\")\"(;)\n)ü)z".toList 2 = some (around '(' ')' 2 "a\")\"(;)\n)ü".toList) ∧
      Exact '(' ')' "é(a\")\"(;)\n)ü)z".toList 2 :=
  ⟨by decide +kernel, by decide +kernel,
    exact_of_isDelimiter ⟨by decide, by decide, by decide⟩ ⟨by decide, by decide, by decide⟩ (by decide) _ _⟩

end Freestanding.Region
