import Freestanding.Json.Parser
import Freestanding.Json.Printer
import Freestanding.Proofs.Binding.Residue

/-!
# Reading back what was written

A document that is written can be read again, and nothing is lost: the reader finds the same numbers digit
by digit, the same strings character by character, and the same items and members in the same order.  This
holds of documents that could have been read in the first place: their numbers have digits where digits
belong, and their strings know whether one of their characters needs an escape.

Reading goes from left to right.  What follows a number must not continue it; inside a document it never
does, since a comma or a bracket follows.

## Main definitions

* `Json.Canonical` — a document that is read as it is written.
* `Json.Ends` — what may follow a document.

## Main results

* `Json.readLiteral?_render`, `Json.readNumeral?_render` — strings and numbers.
* `Json.readValue?_render` — a document, and what follows it.
* `Json.parse?_render` — **a document that is written can be read again.**
-/

namespace Freestanding.Json

/-! ### Strings -/

private theorem hex4_eq {n : Nat} (hn : n < 32) :
    hex4 n = ['0', '0', Nat.digitChar (n / 16), Nat.digitChar (n % 16)] := by
  have hall : ∀ n < 32, hex4 n = ['0', '0', Nat.digitChar (n / 16), Nat.digitChar (n % 16)] := by decide
  exact hall n hn

private theorem hexDigit?_digitChar {d : Nat} (hd : d < 16) : hexDigit? (Nat.digitChar d) = some d := by
  have hall : ∀ d < 16, hexDigit? (Nat.digitChar d) = some d := by decide
  exact hall d hd

private theorem readCode?_hex4 {c : Char} (hc : c.toNat < 32) (rest : Text) :
    readCode? (hex4 c.toNat ++ rest) = some (.char c, rest) := by
  have hcode : (0 * 16 + 0) * 256 + (c.toNat / 16 * 16 + c.toNat % 16) = c.toNat := by omega
  have hzero : hexDigit? '0' = some 0 := rfl
  rw [hex4_eq hc]
  simp only [List.cons_append, List.nil_append, readCode?, hzero,
    hexDigit?_digitChar (d := c.toNat / 16) (by omega), hexDigit?_digitChar (d := c.toNat % 16) (by omega),
    Option.bind_eq_bind, Option.bind_some, hcode]
  rw [if_neg (by omega), Char.ofNat_toNat]
  rfl

/-- A character is written as itself or as an escape, and an escape is read as one character. -/
theorem renderChar_cases (c : Char) :
    (needsEscape c = false ∧ renderChar c = [c]) ∨
      needsEscape c = true ∧ ∃ code, renderChar c = '\\' :: code ∧
        ∀ rest, readEscape? (code ++ rest) = some (.char c, rest) := by
  rw [renderChar]
  -- seven characters have an escape of their own, and the control characters that are left have a code
  split
  · next h => exact .inr ⟨by rw [h]; rfl, _, rfl, fun rest => by rw [h]; rfl⟩
  split
  · next h => exact .inr ⟨by rw [h]; rfl, _, rfl, fun rest => by rw [h]; rfl⟩
  split
  · next h => exact .inr ⟨by rw [h]; rfl, _, rfl, fun rest => by rw [h]; rfl⟩
  split
  · next h => exact .inr ⟨by rw [h]; rfl, _, rfl, fun rest => by rw [h]; rfl⟩
  split
  · next h => exact .inr ⟨by rw [h]; rfl, _, rfl, fun rest => by rw [h]; rfl⟩
  split
  · next h => exact .inr ⟨by rw [h]; rfl, _, rfl, fun rest => by rw [h]; rfl⟩
  split
  · next h => exact .inr ⟨by rw [h]; rfl, _, rfl, fun rest => by rw [h]; rfl⟩
  split
  · next h =>
    refine .inr ⟨by simp [needsEscape, h], 'u' :: hex4 c.toNat, rfl, fun rest => ?_⟩
    exact readCode?_hex4 h rest
  · next hquote hslash _ _ _ _ _ h => exact .inl ⟨by simp [needsEscape, hquote, hslash, h], rfl⟩

private theorem readPieces?_renderChar (n : Nat) (c : Char) (rest : Text) :
    readPieces? (n + 1) (renderChar c ++ rest) =
      (readPieces? n rest).map fun r => (.char c :: r.1, !needsEscape c && r.2.1, r.2.2) := by
  rcases renderChar_cases c with ⟨hplain, hrender⟩ | ⟨hescape, code, hrender, hread⟩
  · have hc : c ≠ '"' ∧ c ≠ '\\' ∧ ¬ c.toNat < 0x20 := by
      simpa [needsEscape, and_comm, and_left_comm] using hplain
    rw [hrender, List.singleton_append, readPieces?, if_neg hc.1, if_neg hc.2.1, if_neg hc.2.2, hplain]
    cases readPieces? n rest <;> rfl
  · rw [hrender, List.cons_append, readPieces?, if_neg (by decide), if_pos rfl, hread, hescape]
    show (readPieces? n rest).bind _ = _
    cases readPieces? n rest <;> rfl

private theorem readPieces?_render {n : Nat} (t rest : Text) (hn : t.length < n) :
    readPieces? n (t.flatMap renderChar ++ '"' :: rest) =
      some (t.map .char, t.all (!needsEscape ·), rest) := by
  induction t generalizing n with
  | nil =>
    obtain ⟨m, rfl⟩ := Nat.exists_eq_add_one.mpr (Nat.zero_lt_of_lt hn)
    rfl
  | cons c t ih =>
    obtain ⟨m, rfl⟩ := Nat.exists_eq_add_one.mpr (Nat.zero_lt_of_lt hn)
    rw [List.flatMap_cons, List.append_assoc, readPieces?_renderChar, ih (by simpa using hn)]
    rfl

private theorem joinPieces_map_char (t : Text) : joinPieces (t.map .char) = some t := by
  induction t with
  | nil => rfl
  | cons c t ih => rw [List.map_cons, joinPieces, ih]; rfl

theorem length_le_length_renderChar (t : Text) : t.length ≤ (t.flatMap renderChar).length := by
  induction t with
  | nil => exact Nat.le_refl 0
  | cons c t ih =>
    have hpos : 0 < (renderChar c).length := by
      rcases renderChar_cases c with ⟨-, h⟩ | ⟨-, code, h, -⟩ <;> simp [h]
    rw [List.flatMap_cons, List.length_append, List.length_cons]
    omega

/-- **A string that is written can be read again.** -/
theorem readLiteral?_render (t rest : Text) :
    readLiteral? (t.flatMap renderChar ++ '"' :: rest) = some (.ofText t, rest) := by
  have hlength := length_le_length_renderChar t
  rw [readLiteral?, readPieces?_render t rest (by rw [List.length_append]; omega)]
  simp only [Option.bind_eq_bind, Option.bind_some, joinPieces_map_char]
  rfl

/-! ### Numbers -/

/-- One or more digits. -/
def Digits (t : Text) : Prop :=
  t ≠ [] ∧ ∀ c ∈ t, c.isDigit

/-- A number that is read as it is written. -/
structure Numeral.Canonical (n : Numeral) : Prop where
  /-- It is a zero or starts with another digit. -/
  whole : n.whole = ['0'] ∨ Digits n.whole ∧ n.whole.head? ≠ some '0'
  /-- There are digits after a point. -/
  fraction : ∀ digits, n.fraction = some digits → Digits digits
  /-- There are digits in an exponent. -/
  exponent : ∀ negative digits, n.exponent = some (negative, digits) → Digits digits

/-- What may follow a document: nothing that could continue a number. -/
def Ends (rest : Text) : Prop :=
  ∀ c, rest.head? = some c → c.isDigit = false ∧ c ≠ '.' ∧ c ≠ 'e' ∧ c ≠ 'E'

@[simp] theorem ends_nil : Ends [] := by
  intro c hc
  cases hc

theorem ends_cons {c : Char} (hc : c ∈ [',', ']', '\x7d']) (rest : Text) : Ends (c :: rest) := by
  intro d hd
  obtain rfl : c = d := Option.some.inj hd
  simp only [List.mem_cons, List.not_mem_nil, or_false] at hc
  rcases hc with rfl | rfl | rfl <;> decide

theorem run?_digits {digits rest : Text} (hd : Digits digits)
    (hrest : ∀ c, rest.head? = some c → c.isDigit = false) :
    Text.run? Char.isDigit (digits ++ rest) = some (digits, rest) :=
  Text.run?_append hd.1 hd.2 hrest

theorem head_digits {digits : Text} (hd : Digits digits) (rest : Text) :
    ∃ c t, digits ++ rest = c :: t ∧ c.isDigit := by
  obtain ⟨c, t, rfl⟩ := List.exists_cons_of_ne_nil hd.1
  exact ⟨c, t ++ rest, rfl, hd.2 c List.mem_cons_self⟩

/-- The digits after a point, with the point. -/
def Numeral.fractionText (n : Numeral) : Text :=
  match n.fraction with
  | some digits => '.' :: digits
  | none => []

/-- The exponent with its mark and its sign. -/
def Numeral.exponentText (n : Numeral) : Text :=
  match n.exponent with
  | some (true, digits) => 'e' :: '-' :: digits
  | some (false, digits) => 'e' :: '+' :: digits
  | none => []

theorem Numeral.Canonical.digits_whole {n : Numeral} (hn : n.Canonical) : Digits n.whole := by
  rcases hn.whole with h | h
  · rw [h]
    exact ⟨List.cons_ne_nil _ _, by simp⟩
  · exact h.1

theorem readWhole?_append {n : Numeral} (hn : n.Canonical) {rest : Text}
    (hrest : ∀ c, rest.head? = some c → c.isDigit = false) :
    readWhole? (n.whole ++ rest) = some (n.whole, rest) := by
  rcases hn.whole with h | ⟨hd, hzero⟩
  · rw [h]
    rfl
  · rw [readWhole?.eq_def]
    split
    · next u heq =>
      obtain ⟨c, t, hw⟩ := List.exists_cons_of_ne_nil hd.1
      rw [hw, List.cons_append, List.cons.injEq] at heq
      exact absurd (by rw [hw, heq.1]; rfl) hzero
    · exact run?_digits hd hrest

theorem readFraction?_append {n : Numeral} (hn : n.Canonical) {rest : Text}
    (hrest : ∀ c, rest.head? = some c → c.isDigit = false ∧ c ≠ '.') :
    readFraction? (n.fractionText ++ rest) = some (n.fraction, rest) := by
  rw [Numeral.fractionText]
  cases h : n.fraction with
  | some digits =>
    show (Text.run? Char.isDigit (digits ++ rest)).map _ = _
    rw [run?_digits (hn.fraction digits h) fun c hc => (hrest c hc).1]
    rfl
  | none =>
    show readFraction? rest = _
    rw [readFraction?.eq_def]
    split
    · exact absurd rfl (hrest '.' rfl).2
    · rfl

theorem readExponent?_append {n : Numeral} (hn : n.Canonical) {rest : Text} (hrest : Ends rest) :
    readExponent? (n.exponentText ++ rest) = some (n.exponent, rest) := by
  rw [Numeral.exponentText]
  cases h : n.exponent with
  | some e =>
    obtain ⟨negative, digits⟩ := e
    have hrun := run?_digits (hn.exponent negative digits h) fun c hc => (hrest c hc).1
    cases negative <;>
    · show (Text.run? Char.isDigit (digits ++ rest)).map _ = _
      rw [hrun]
      rfl
  | none =>
    cases rest with
    | nil => rfl
    | cons c rest =>
      have hc := hrest c rfl
      show (if c = 'e' ∨ c = 'E' then _ else _) = _
      rw [if_neg (by simp [hc.2.2.1, hc.2.2.2])]

private theorem head_exponentText {n : Numeral} {rest : Text} (hrest : Ends rest) {c : Char}
    (hc : (n.exponentText ++ rest).head? = some c) : c.isDigit = false ∧ c ≠ '.' := by
  rw [Numeral.exponentText] at hc
  split at hc
  · obtain rfl : 'e' = c := Option.some.inj hc
    decide
  · obtain rfl : 'e' = c := Option.some.inj hc
    decide
  · exact ⟨(hrest c hc).1, (hrest c hc).2.1⟩

private theorem head_fractionText {n : Numeral} {rest : Text}
    (hrest : ∀ c, rest.head? = some c → c.isDigit = false) {c : Char}
    (hc : (n.fractionText ++ rest).head? = some c) : c.isDigit = false := by
  rw [Numeral.fractionText] at hc
  split at hc
  · obtain rfl : '.' = c := Option.some.inj hc
    decide
  · exact hrest c hc

theorem Numeral.render_eq (n : Numeral) :
    n.render =
      (if n.negative then "-" else "" : Text) ++ (n.whole ++ (n.fractionText ++ n.exponentText)) := by
  simp only [Numeral.render, List.append_assoc]
  rfl

/-- The number at the start of a text, after its sign. -/
def readUnsigned? (negative : Bool) (t : Text) : Option (Numeral × Text) := do
  let (whole, t) ← readWhole? t
  let (fraction, t) ← readFraction? t
  let (exponent, t) ← readExponent? t
  return (⟨negative, whole, fraction, exponent⟩, t)

private theorem readNumeral?_of_isDigit {c : Char} (hc : c.isDigit) (t : Text) :
    readNumeral? (c :: t) = readUnsigned? false (c :: t) := by
  have hminus : c ≠ '-' := by
    intro h
    rw [h] at hc
    cases hc
  simp [readNumeral?, hminus, readUnsigned?]

theorem readUnsigned?_append {n : Numeral} (hn : n.Canonical) {rest : Text} (hrest : Ends rest) :
    readUnsigned? n.negative (n.whole ++ (n.fractionText ++ (n.exponentText ++ rest))) =
      some (n, rest) := by
  have hexponent := readExponent?_append hn hrest
  have hfraction := readFraction?_append hn fun c => head_exponentText (n := n) hrest
  have hwhole := readWhole?_append hn fun c =>
    head_fractionText (n := n) fun c hc => (head_exponentText (n := n) hrest hc).1
  simp only [readUnsigned?, hwhole, hfraction, hexponent, Option.bind_eq_bind, Option.bind_some]
  rfl

/-- **A number that is written can be read again**, unless what follows continues it. -/
theorem readNumeral?_render {n : Numeral} (hn : n.Canonical) {rest : Text} (hrest : Ends rest) :
    readNumeral? (n.render ++ rest) = some (n, rest) := by
  have hread := readUnsigned?_append hn hrest
  obtain ⟨c, t, hhead, hdigit⟩ := head_digits hn.digits_whole (n.fractionText ++ (n.exponentText ++ rest))
  simp only [Numeral.render_eq, List.append_assoc]
  cases hsign : n.negative with
  | true =>
    rw [hsign] at hread
    exact hread
  | false =>
    rw [hsign, hhead] at hread
    show readNumeral? (n.whole ++ _) = _
    rw [hhead, readNumeral?_of_isDigit hdigit, hread]

/-! ### Documents -/

/-- A string that is read as it is written: it has a text, and it knows whether it needs an escape. -/
def Literal.Canonical (s : Literal) : Prop :=
  ∃ t, s = .ofText t

mutual

/-- A document that is read as it is written. -/
def Canonical : Json → Prop
  | .null => True
  | .bool _ => True
  | .number n => n.Canonical
  | .string s => s.Canonical
  | .array items => AreCanonical items
  | .object members => HasCanonicalMembers members

/-- Items that are read as they are written. -/
def AreCanonical : List Json → Prop
  | [] => True
  | j :: rest => j.Canonical ∧ AreCanonical rest

/-- Members that are read as they are written. -/
def HasCanonicalMembers : List (Literal × Json) → Prop
  | [] => True
  | (s, j) :: rest => s.Canonical ∧ j.Canonical ∧ HasCanonicalMembers rest

end

/-- A text that starts with a token other than a closing bracket. -/
def Starts (t : Text) : Prop :=
  ∃ c u, t = c :: u ∧ isBlank c = false ∧ c ≠ ']' ∧ c ≠ '\x7d'

theorem skipBlanks_cons {c : Char} (hc : isBlank c = false) (t : Text) : skipBlanks (c :: t) = c :: t := by
  simp [skipBlanks, hc]

theorem Starts.skipBlanks_eq {t : Text} (ht : Starts t) : skipBlanks t = t := by
  obtain ⟨c, u, rfl, hc, -⟩ := ht
  exact skipBlanks_cons hc u

theorem Starts.append {t : Text} (ht : Starts t) (rest : Text) : Starts (t ++ rest) := by
  obtain ⟨c, u, rfl, hc⟩ := ht
  exact ⟨c, u ++ rest, rfl, hc⟩

theorem Numeral.Canonical.head_render {n : Numeral} (hn : n.Canonical) :
    ∃ c t, n.render = c :: t ∧ (c = '-' ∨ c.isDigit) := by
  obtain ⟨c, t, hhead, hdigit⟩ := head_digits hn.digits_whole (n.fractionText ++ n.exponentText)
  rw [Numeral.render_eq, hhead]
  cases n.negative with
  | true => exact ⟨'-', c :: t, rfl, .inl rfl⟩
  | false => exact ⟨c, t, rfl, .inr hdigit⟩

theorem ne_of_head {c d : Char} (hc : c = '-' ∨ c.isDigit) (hd : d ≠ '-' ∧ d.isDigit = false) : c ≠ d := by
  intro h
  rcases hc with hc | hc
  · exact hd.1 (h.symm.trans hc)
  · rw [h, hd.2] at hc
    cases hc

theorem Literal.Canonical.render_eq {s : Literal} (hs : s.Canonical) :
    ∃ t, s = .ofText t ∧ s.render = '"' :: (t.flatMap renderChar ++ ['"']) := by
  obtain ⟨t, rfl⟩ := hs
  exact ⟨t, rfl, rfl⟩

theorem Literal.Canonical.starts {s : Literal} (hs : s.Canonical) : Starts s.render := by
  obtain ⟨t, -, h⟩ := hs.render_eq
  exact ⟨'"', _, h, by decide⟩

theorem Canonical.starts {j : Json} (hj : j.Canonical) : Starts j.render := by
  cases j with
  | null => exact ⟨'n', _, rfl, by decide⟩
  | bool b => cases b <;> exact ⟨_, _, rfl, by decide⟩
  | number n =>
    rw [Canonical] at hj
    obtain ⟨c, t, h, hc⟩ := hj.head_render
    refine ⟨c, t, by rw [render, h], ?_, ne_of_head hc (by decide), ne_of_head hc (by decide)⟩
    simp [isBlank, ne_of_head hc (d := ' ') (by decide), ne_of_head hc (d := '\n') (by decide),
      ne_of_head hc (d := '\t') (by decide), ne_of_head hc (d := '\r') (by decide)]
  | string s =>
    rw [Canonical] at hj
    rw [render]
    exact hj.starts
  | array items => exact ⟨'[', renderItems items ++ [']'], by rw [render]; rfl, by decide⟩
  | object members => exact ⟨'\x7b', renderMembers members ++ ['\x7d'], by rw [render]; rfl, by decide⟩

/-! #### One step of the reader -/

private theorem readValue?_string (n : Nat) {s : Literal} (hs : s.Canonical) (rest : Text) :
    readValue? (n + 1) (s.render ++ rest) = some (.string s, rest) := by
  obtain ⟨t, rfl, h⟩ := hs.render_eq
  rw [h, List.cons_append, List.append_assoc, readValue?, skipBlanks_cons (by decide)]
  show (readLiteral? (t.flatMap renderChar ++ '"' :: rest)).map _ = _
  rw [readLiteral?_render]
  rfl

private theorem readValue?_numeral (m : Nat) {n : Numeral} (hn : n.Canonical) {rest : Text} (hrest : Ends rest) :
    readValue? (m + 1) (n.render ++ rest) = some (.number n, rest) := by
  have hread := readNumeral?_render hn hrest
  have hstarts : Starts (Json.number n).render := Canonical.starts (by rw [Canonical]; exact hn)
  rw [render] at hstarts
  obtain ⟨c, t, h, hc⟩ := hn.head_render
  rw [readValue?, (hstarts.append rest).skipBlanks_eq]
  rw [h, List.cons_append] at hread ⊢
  simp only [ne_of_head hc (d := '"') (by decide), ne_of_head hc (d := '[') (by decide),
    ne_of_head hc (d := '\x7b') (by decide), ne_of_head hc (d := 'n') (by decide),
    ne_of_head hc (d := 't') (by decide), ne_of_head hc (d := 'f') (by decide), if_false, hread]
  rfl

private theorem readValue?_bracket (n : Nat) {t : Text} (ht : Starts t) :
    readValue? (n + 1) ('[' :: t) = (readItems? n t).map fun r => (.array r.1, r.2) := by
  have hskip := ht.skipBlanks_eq
  obtain ⟨c, u, rfl, -, hc, -⟩ := ht
  rw [readValue?, skipBlanks_cons (by decide)]
  simp [hskip, hc]

private theorem readValue?_brace (n : Nat) {t : Text} (ht : Starts t) :
    readValue? (n + 1) ('\x7b' :: t) = (readMembers? n t).map fun r => (.object r.1, r.2) := by
  have hskip := ht.skipBlanks_eq
  obtain ⟨c, u, rfl, -, -, hc⟩ := ht
  rw [readValue?, skipBlanks_cons (by decide)]
  simp [hskip, hc]

private theorem readItems?_comma {n : Nat} {t u : Text} {j : Json} (h : readValue? n t = some (j, ',' :: u)) :
    readItems? (n + 1) t = (readItems? n u).map fun r => (j :: r.1, r.2) := by
  rw [readItems?, h]
  show (readItems? n u).bind _ = _
  cases readItems? n u <;> rfl

private theorem readItems?_bracket {n : Nat} {t u : Text} {j : Json} (h : readValue? n t = some (j, ']' :: u)) :
    readItems? (n + 1) t = some ([j], u) := by
  rw [readItems?, h]
  rfl

private theorem readName?_render {s : Literal} (hs : s.Canonical) (rest : Text) :
    readName? (s.render ++ ':' :: rest) = some (s, rest) := by
  obtain ⟨t, rfl, h⟩ := hs.render_eq
  have hquote : Text.stripPrefix? ((Literal.ofText t).render ++ ':' :: rest) "\"" =
      some (t.flatMap renderChar ++ '"' :: ':' :: rest) :=
    Text.stripPrefix?_eq_some_iff.mpr (by rw [h]; simp)
  have hcolon : Text.stripPrefix? (':' :: rest) ":" = some rest := Text.stripPrefix?_eq_some_iff.mpr rfl
  rw [readName?, (hs.starts.append _).skipBlanks_eq, hquote]
  show (readLiteral? (t.flatMap renderChar ++ '"' :: ':' :: rest)).bind _ = _
  rw [readLiteral?_render]
  show (Text.stripPrefix? (skipBlanks (':' :: rest)) ":").bind _ = _
  rw [skipBlanks_cons (by decide), hcolon]
  rfl

private theorem readMembers?_comma {n : Nat} {t u v : Text} {s : Literal} {j : Json}
    (hname : readName? t = some (s, u)) (h : readValue? n u = some (j, ',' :: v)) :
    readMembers? (n + 1) t = (readMembers? n v).map fun r => ((s, j) :: r.1, r.2) := by
  rw [readMembers?, hname]
  show (readValue? n u).bind _ = _
  rw [h]
  show (readMembers? n v).bind _ = _
  cases readMembers? n v <;> rfl

private theorem readMembers?_brace {n : Nat} {t u v : Text} {s : Literal} {j : Json}
    (hname : readName? t = some (s, u)) (h : readValue? n u = some (j, '\x7d' :: v)) :
    readMembers? (n + 1) t = some ([(s, j)], v) := by
  rw [readMembers?, hname]
  show (readValue? n u).bind _ = _
  rw [h]
  rfl

/-! #### Whole documents -/

private theorem readValue?_null (n : Nat) (rest : Text) :
    readValue? (n + 1) (Json.null.render ++ rest) = some (.null, rest) := by
  have hnull : Text.stripPrefix? ("ull" ++ rest) "ull" = some rest := Text.stripPrefix?_eq_some_iff.mpr rfl
  rw [render]
  show readValue? (n + 1) ('n' :: ("ull" ++ rest)) = _
  rw [readValue?, skipBlanks_cons (by decide)]
  show (Text.stripPrefix? ("ull" ++ rest) "ull").map _ = _
  rw [hnull]
  rfl

private theorem readValue?_bool (n : Nat) (b : Bool) (rest : Text) :
    readValue? (n + 1) ((Json.bool b).render ++ rest) = some (.bool b, rest) := by
  have htrue : Text.stripPrefix? ("rue" ++ rest) "rue" = some rest := Text.stripPrefix?_eq_some_iff.mpr rfl
  have hfalse : Text.stripPrefix? ("alse" ++ rest) "alse" = some rest :=
    Text.stripPrefix?_eq_some_iff.mpr rfl
  cases b with
  | true =>
    rw [render]
    show readValue? (n + 1) ('t' :: ("rue" ++ rest)) = _
    rw [readValue?, skipBlanks_cons (by decide)]
    show (Text.stripPrefix? ("rue" ++ rest) "rue").map _ = _
    rw [htrue]
    rfl
  | false =>
    rw [render]
    show readValue? (n + 1) ('f' :: ("alse" ++ rest)) = _
    rw [readValue?, skipBlanks_cons (by decide)]
    show (Text.stripPrefix? ("alse" ++ rest) "alse").map _ = _
    rw [hfalse]
    rfl

private theorem starts_renderItems {j : Json} {items : List Json} (hj : j.Canonical) (rest : Text) :
    Starts (renderItems (j :: items) ++ rest) := by
  cases items with
  | nil => rw [renderItems]; exact hj.starts.append rest
  | cons k items => rw [renderItems]; exact (hj.starts.append _).append rest

private theorem starts_renderMembers {s : Literal} {j : Json} {members : List (Literal × Json)} (hs : s.Canonical)
    (rest : Text) : Starts (renderMembers ((s, j) :: members) ++ rest) := by
  cases members with
  | nil => rw [renderMembers]; exact (hs.starts.append _).append rest
  | cons m members => rw [renderMembers]; exact ((hs.starts.append _).append _).append rest

-- Each item and each member costs the reader two units of fuel, one for itself and one for its value, and
-- takes up at least one character; hence the bounds, twice the length of the text.
mutual

/-- **A document that is written can be read again**, whatever follows it. -/
theorem readValue?_render : ∀ {j : Json}, j.Canonical → ∀ {n : Nat} {rest : Text}, Ends rest →
    2 * j.render.length < n → readValue? n (j.render ++ rest) = some (j, rest)
  | .null, _, n + 1, rest, _, _ => readValue?_null n rest
  | .bool b, _, n + 1, rest, _, _ => readValue?_bool n b rest
  | .number m, hj, n + 1, rest, hrest, _ => by
    rw [Canonical] at hj
    rw [render]
    exact readValue?_numeral n hj hrest
  | .string s, hj, n + 1, rest, _, _ => by
    rw [Canonical] at hj
    rw [render]
    exact readValue?_string n hj rest
  | .array [], _, n + 1, rest, _, _ => by
    rw [render, renderItems]
    show readValue? (n + 1) ('[' :: ']' :: rest) = _
    rw [readValue?, skipBlanks_cons (by decide)]
    simp [skipBlanks_cons (show isBlank ']' = false by decide)]
  | .array (j :: items), hj, n + 1, rest, _, hn => by
    rw [Canonical] at hj
    rw [render, List.length_append, List.length_cons] at hn
    rw [render, List.cons_append, List.cons_append, List.append_assoc]
    rw [readValue?_bracket n (starts_renderItems hj.1 _)]
    show (readItems? n (renderItems (j :: items) ++ ']' :: rest)).map _ = _
    rw [readItems?_render hj (List.cons_ne_nil _ _) (by omega)]
    rfl
  | .object [], _, n + 1, rest, _, _ => by
    rw [render, renderMembers]
    show readValue? (n + 1) ('\x7b' :: '\x7d' :: rest) = _
    rw [readValue?, skipBlanks_cons (by decide)]
    simp [skipBlanks_cons (show isBlank '\x7d' = false by decide)]
  | .object ((s, j) :: members), hj, n + 1, rest, _, hn => by
    rw [Canonical] at hj
    rw [render, List.length_append, List.length_cons] at hn
    rw [render, List.cons_append, List.cons_append, List.append_assoc]
    rw [readValue?_brace n (starts_renderMembers hj.1 _)]
    show (readMembers? n (renderMembers ((s, j) :: members) ++ '\x7d' :: rest)).map _ = _
    rw [readMembers?_render hj (List.cons_ne_nil _ _) (by omega)]
    rfl

/-- The items of a list that is written can be read again. -/
theorem readItems?_render : ∀ {items : List Json}, AreCanonical items → items ≠ [] →
    ∀ {n : Nat} {rest : Text}, 2 * (renderItems items).length + 1 < n →
      readItems? n (renderItems items ++ ']' :: rest) = some (items, rest)
  | [j], hj, _, n + 1, rest, hn => by
    rw [renderItems] at hn ⊢
    exact readItems?_bracket (readValue?_render hj.1 (ends_cons (by decide) rest) (by omega))
  | j :: k :: items, hj, _, n + 1, rest, hn => by
    rw [renderItems, List.length_append, List.length_cons] at hn
    rw [renderItems, List.append_assoc, List.cons_append]
    rw [readItems?_comma (readValue?_render hj.1 (ends_cons (by decide) _) (by omega))]
    rw [readItems?_render hj.2 (List.cons_ne_nil _ _) (by omega)]
    rfl

/-- The members of an object that is written can be read again. -/
theorem readMembers?_render : ∀ {members : List (Literal × Json)}, HasCanonicalMembers members →
    members ≠ [] → ∀ {n : Nat} {rest : Text}, 2 * (renderMembers members).length + 1 < n →
      readMembers? n (renderMembers members ++ '\x7d' :: rest) = some (members, rest)
  | [(s, j)], hj, _, n + 1, rest, hn => by
    rw [renderMembers, List.length_append, List.length_cons] at hn
    rw [renderMembers, List.append_assoc, List.cons_append]
    exact readMembers?_brace (readName?_render hj.1 _)
      (readValue?_render hj.2.1 (ends_cons (by decide) rest) (by omega))
  | (s, j) :: m :: members, hj, _, n + 1, rest, hn => by
    simp only [renderMembers, List.length_append, List.length_cons] at hn
    simp only [renderMembers, List.append_assoc, List.cons_append]
    rw [readMembers?_comma (readName?_render hj.1 _)
      (readValue?_render hj.2.1 (ends_cons (by decide) _) (by omega))]
    rw [readMembers?_render hj.2.2 (List.cons_ne_nil _ _) (by omega)]
    rfl

end

/-- **A text that is the text of a document is read as that document.** -/
theorem parse?_render {j : Json} (hj : j.Canonical) : parse? j.render = some j := by
  have h := readValue?_render hj ends_nil (show 2 * j.render.length < 2 * j.render.length + 2 by omega)
  rw [List.append_nil] at h
  rw [parse?, h]
  rfl

end Freestanding.Json
