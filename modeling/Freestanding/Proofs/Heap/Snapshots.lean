import Freestanding.Heap.Json
import Freestanding.Proofs.Json.Records
import Freestanding.Proofs.OrderedMap
import Freestanding.Proofs.Text.Numerals

/-!
# Memory images as texts

An image is written with its words under their addresses and read back as the same image, however many
words it has and whatever they are.  The names of the words are numerals, and a numeral is taken for an
address only if it is the one that would be written for it: no sign, no leading zero, no escape.  A text may
have more than one word for an address, in any order; then the last one counts.

## Main definitions

* `HeapImage.Lists` — the members of an object are words with their addresses.
* `HeapImage.Denotes` — a text stands for an image.

## Main results

* `HeapImage.addressOfName?_eq_some_iff` — **a name is an address only if it is its numeral.**
* `HeapImage.decodeText?_eq_some_iff_denotes` — the texts that are read, and what is read from them.
* `HeapImage.survives_json` — **an image survives being written.**
-/

namespace Freestanding

namespace HeapImage

/-! ### Addresses as names -/

theorem ofText_decimal (n : Nat) : Json.Literal.ofText (Text.decimal n) = ⟨some (Text.decimal n), true⟩ := by
  have hplain : (Text.decimal n).all (!Json.needsEscape ·) = true := by
    refine List.all_eq_true.mpr fun c hc => ?_
    have hdigit := (Json.digits_decimal n).2 c hc
    have hlow := (Text.toNat_of_isDigit hdigit).1
    have hquote : c ≠ '"' := by
      rintro rfl
      cases hdigit
    have hslash : c ≠ '\\' := by
      rintro rfl
      cases hdigit
    simp [Json.needsEscape, hquote, hslash]
    omega
  rw [Json.Literal.ofText, hplain]

/-- **A name is an address only if it is the numeral of the address**, written without escapes. -/
theorem addressOfName?_eq_some_iff {name : Json.Literal} {a : UInt64} :
    addressOfName? name = some a ↔ name = .ofText (Text.decimal a.toNat) := by
  rw [ofText_decimal]
  constructor
  · intro h
    obtain ⟨t, ht, h⟩ := Option.bind_eq_some_iff.mp h
    split at h
    · next hplain =>
      obtain ⟨hne, hdigits, hvalue⟩ := Text.toWord?_eq_some_iff.mp h
      have hdecimal := Text.decimal_ofDigitChars hne hdigits hplain.2
      rw [hvalue] at hdecimal
      cases name
      rw [hdecimal]
      exact congr (congrArg Json.Literal.mk ht) hplain.1
    · cases h
  · rintro rfl
    have hlead : (Text.decimal a.toNat).head? ≠ some '0' ∨ (Text.decimal a.toNat).length = 1 := by
      by_cases ha : a.toNat = 0
      · exact .inr (by rw [ha]; rfl)
      · exact .inl (Json.head_decimal ha)
    change (if true = true ∧ _ then Text.toWord? (Text.decimal a.toNat) else none) = _
    rw [if_pos ⟨rfl, hlead⟩, Text.toWord?_decimal]

/-! ### What a text lists -/

/-- The members of an object are words: the name of each is the numeral of an address, and its value is
the number of the word there. -/
def Lists (members : List (Json.Literal × Json)) (ws : List (UInt64 × UInt64)) : Prop :=
  List.Forall₂ (fun m w => m.1 = .ofText (Text.decimal w.1.toNat) ∧ Json.word? 0 m.2 = some w.2) members ws

theorem wordsOf?_eq_some_iff {members : List (Json.Literal × Json)} {ws : List (UInt64 × UInt64)} :
    wordsOf? members = some ws ↔ Lists members ws := by
  have hitem : ∀ (m : Json.Literal × Json) (w : UInt64 × UInt64),
      (addressOfName? m.1 >>= fun a => Json.word? 0 m.2 >>= fun v => some (a, v)) = some w ↔
        m.1 = .ofText (Text.decimal w.1.toNat) ∧ Json.word? 0 m.2 = some w.2 := by
    intro m w
    rw [← addressOfName?_eq_some_iff]
    constructor
    · intro h
      obtain ⟨a, ha, h⟩ := Option.bind_eq_some_iff.mp h
      obtain ⟨v, hv, h⟩ := Option.bind_eq_some_iff.mp h
      rw [← Option.some.inj h]
      exact ⟨ha, hv⟩
    · rintro ⟨ha, hv⟩
      rw [ha, hv]
      rfl
  rw [wordsOf?, Json.mapM_eq_some_iff, Lists]
  simp only [← hitem]
  rfl

/-- The text stands for the image: it is a document whose words, listed in any order and possibly more than
once, are the words of the image, and of those at one address the last. -/
def Denotes (t : Text) (h : HeapImage) : Prop :=
  ∃ j members ws, Json.parse? t = some j ∧ Json.slots? ["words"] j = some [some (.object members)] ∧
    Lists members ws ∧ ∀ a w, h.words[a]? = some w ↔
      ∃ before after, ws = before ++ (a, w) :: after ∧ ∀ x ∈ after, x.1 ≠ a

/-- What is found after words have been entered one after the other: the last one at each address. -/
theorem getElem?_foldl_insert_eq_some_iff {ws : List (UInt64 × UInt64)} {a w : UInt64} :
    (ws.foldl (fun words x => words.insert x.1 x.2) (∅ : Std.ExtTreeMap UInt64 UInt64))[a]? = some w ↔
      ∃ before after, ws = before ++ (a, w) :: after ∧ ∀ x ∈ after, x.1 ≠ a := by
  rw [Std.ExtTreeMap.getElem?_foldl_insert Prod.fst Prod.snd, Std.ExtTreeMap.getElem?_empty, Option.or_none,
    Option.map_eq_some_iff]
  constructor
  · rintro ⟨⟨b, v⟩, hfind, rfl⟩
    obtain ⟨hb, after, before, hws, hafter⟩ := List.find?_eq_some_iff_append.mp hfind
    obtain rfl : b = a := of_decide_eq_true hb
    refine ⟨before.reverse, after.reverse, ?_, fun x hx => ?_⟩
    · rw [← List.reverse_reverse ws, hws]
      simp
    · simpa using hafter x (List.mem_reverse.mp hx)
  · rintro ⟨before, after, rfl, hafter⟩
    refine ⟨(a, w), List.find?_eq_some_iff_append.mpr ⟨by simp, after.reverse, before.reverse, by simp, ?_⟩, rfl⟩
    intro x hx
    simpa using hafter x (List.mem_reverse.mp hx)

theorem decode?_eq_some_iff {room : Nat} {j : Json} {h : HeapImage} : decode? (room + 2) j = some h ↔
    ∃ members ws, Json.slots? ["words"] j = some [some (.object members)] ∧ wordsOf? members = some ws ∧
      h = ⟨ws.foldl (fun words x => words.insert x.1 x.2) ∅⟩ := by
  rw [decode?, Option.bind_eq_bind]
  constructor
  · intro hread
    obtain ⟨slots, hslots, hread⟩ := Option.bind_eq_some_iff.mp hread
    split at hread
    · next members _ _ =>
      obtain ⟨ws, hws, hread⟩ := Option.bind_eq_some_iff.mp hread
      exact ⟨members, ws, hslots, hws, (Option.some.inj hread).symm⟩
    · cases hread
  · rintro ⟨members, ws, hslots, hws, rfl⟩
    rw [hslots, Option.bind_some]
    dsimp only
    rw [hws]
    rfl

/-- The texts that are read, and what is read from them. -/
theorem decodeText?_eq_some_iff_denotes {t : Text} {h : HeapImage} :
    Json.decodeText? decode? t = some h ↔ Denotes t h := by
  rw [Json.decodeText?, Option.bind_eq_some_iff]
  constructor
  · rintro ⟨j, hj, hread⟩
    obtain ⟨members, ws, hslots, hws, rfl⟩ := decode?_eq_some_iff.mp hread
    exact ⟨j, members, ws, hj, hslots, wordsOf?_eq_some_iff.mp hws, fun a w => getElem?_foldl_insert_eq_some_iff⟩
  · rintro ⟨j, members, ws, hj, hslots, hlists, hwords⟩
    refine ⟨j, hj, decode?_eq_some_iff.mpr ⟨members, ws, hslots, wordsOf?_eq_some_iff.mpr hlists, ?_⟩⟩
    -- an image is known by its words
    suffices hmap : h.words = ws.foldl (fun words x => words.insert x.1 x.2) ∅ by
      cases h
      exact congrArg HeapImage.mk hmap
    refine Std.ExtTreeMap.ext_getElem? fun a => Option.ext fun w => ?_
    rw [hwords, getElem?_foldl_insert_eq_some_iff]

/-! ### Writing and reading -/

theorem canonical_toJson (h : HeapImage) : h.toJson.Canonical := by
  refine Json.canonical_record ?_
  simp only [List.forall_mem_singleton]
  refine Json.canonical_record fun m hm => ?_
  obtain ⟨x, -, rfl⟩ := List.mem_map.mp hm
  exact Json.canonical_ofNat _

/-- The words that are written are listed. -/
theorem lists_toList (ws : List (UInt64 × UInt64)) :
    Lists (ws.map fun w => (.ofText (Text.decimal w.1.toNat), .ofNat w.2.toNat)) ws := by
  rw [Lists, List.forall₂_map_left_iff]
  exact List.forall₂_same.mpr fun w _ => ⟨rfl, Json.toWord?_toNat w.2⟩

private theorem decodeText?_toJson (h : HeapImage) : Json.decodeText? decode? h.toJson.render = some h := by
  rw [Json.decodeText?, Json.parse?_render (canonical_toJson h), Option.bind_some]
  refine decode?_eq_some_iff.mpr ⟨_, h.words.toList, Json.slots?_record (by simp), ?_, ?_⟩
  · rw [List.map_map]
    exact wordsOf?_eq_some_iff.mpr (lists_toList _)
  · rw [Std.ExtTreeMap.foldl_insert_toList]

/-- **An image survives being written.**  What is read from its text is the image.  Whatever other text an
image was read from, the text that is written for it stands for the same image.  And a text can be read
exactly if it is a document of words under the numerals of their addresses; of the words at one address the
last counts. -/
theorem survives_json :
    (∀ h : HeapImage, Json.decodeText? decode? h.toJson.render = some h) ∧
    (∀ (t : Text) (h : HeapImage), Json.decodeText? decode? t = some h →
      Json.decodeText? decode? h.toJson.render = some h) ∧
    ∀ (t : Text) (h : HeapImage), Json.decodeText? decode? t = some h ↔ Denotes t h :=
  ⟨decodeText?_toJson, fun _ h _ => decodeText?_toJson h, fun _ _ => decodeText?_eq_some_iff_denotes⟩

/-- A text with an unknown member, with the addresses in no order and with two words at address eight. -/
def untidyText : Text :=
  "\x7b\"note\" : null, \"words\": \x7b\"18446744073709551608\":0, \"8\":1, \"0\":18446744073709551615 ,\"8\":2\x7d\x7d"

/-- The image that is read from it has the last of the two, and it is written in order. -/
theorem survives_json_untidyText : ∃ h : HeapImage, Json.decodeText? decode? untidyText = some h ∧
    h.toJson.render = "\x7b\"words\":\x7b\"0\":18446744073709551615,\"8\":2,\"18446744073709551608\":0\x7d\x7d" ∧
    Json.decodeText? decode? h.toJson.render = some h := by
  have hrun : (Json.decodeText? decode? untidyText).map (·.toJson.render) =
      some "\x7b\"words\":\x7b\"0\":18446744073709551615,\"8\":2,\"18446744073709551608\":0\x7d\x7d" := by
    decide +kernel
  obtain ⟨h, hread, htext⟩ := Option.map_eq_some_iff.mp hrun
  exact ⟨h, hread, htext, survives_json.2.1 untidyText h hread⟩

end HeapImage

end Freestanding
