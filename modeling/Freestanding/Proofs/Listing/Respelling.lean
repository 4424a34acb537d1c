import Freestanding.Listing.Dump
import Freestanding.Proofs.Region.Scan
import Freestanding.Proofs.Token.Spelling

/-!
# Texts with other symbols

Exchanging symbols in a text is safe if the symbols do not take part in what the text is read for: they
open no region and close none, they begin no definition and no address, and they end no line.  A text
that has been respelled in this way starts its definitions at the same lines, has the same partners of
delimiters and the same addresses.

## Main definitions

* `Token.Harmless` — symbols that may be exchanged.
* `Respelled` — a text with other symbols.
* `Definition.opens` — a definition starts at one of the lines of a text.

## Main results

* `Respelled.scan_eq`, `Respelled.opens_eq`, `Respelled.address?_eq` — **what respelling keeps.**
* `Definition.opens_eq_any` — lines that start definitions, counted along the text.
-/

namespace Freestanding

/-! ### Readers that stop at a sigil -/

namespace Text

/-- The text before the first sigil. -/
def front (t : Text) : Text :=
  t.takeWhile (· != '@')

/-- A reader that stops at a sigil reads only what stands before the first one. -/
theorem congr_of_front {α : Type} {f : Text → α} (hf : ∀ t u, f (t ++ '@' :: u) = f t) {t u : Text}
    (h : t.front = u.front) : f t = f u := by
  have hfront : ∀ t : Text, f t = f t.front := by
    intro t
    have happend : t.front ++ t.dropWhile (· != '@') = t := List.takeWhile_append_dropWhile
    cases hrest : t.dropWhile (· != '@') with
    | nil =>
      rw [hrest, List.append_nil] at happend
      rw [happend]
    | cons c rest =>
      have hc : c = '@' := by
        have := List.head?_dropWhile_not (· != '@') t
        simpa [hrest] using this
      rw [hrest, hc] at happend
      exact (congrArg f happend).symm.trans (hf t.front rest)
  rw [hfront t, hfront u, h]

end Text

theorem Definition.isDefineLine_append_cons {c : Char} (hc : Text.isWordChar c = false) (t u : Text) :
    isDefineLine (t ++ c :: u) = isDefineLine t := by
  have hletters : c ∉ ("define" : Text) := by
    intro hmem
    have hword := Text.forall_mem_of_all (p := fun c => Text.isWordChar c = true) (t := "define") (by decide)
    rw [hword c hmem] at hc
    cases hc
  rw [isDefineLine, isDefineLine, Text.stripPrefix?_append_cons hletters]
  cases Text.stripPrefix? t "define" with
  | none => rfl
  | some rest => exact Text.atWordEnd_append_cons hc rest u

private theorem Line.castLiteralAt?_append_sigil (t u : Text) :
    castLiteralAt? (t ++ '@' :: u) = castLiteralAt? t := by
  have hblank : Text.isBlank '@' = false := by decide
  have hdecimal : Text.isDecimal '@' = false := by decide
  have hword : Text.isWordChar '@' = false := by decide +kernel
  have hbracket : ∀ v : Text, (Text.stripPrefix? (v ++ '@' :: u) "(").getD (v ++ '@' :: u) =
      (Text.stripPrefix? v "(").getD v ++ '@' :: u := by
    intro v
    rw [Text.stripPrefix?_append_cons (by decide)]
    cases Text.stripPrefix? v "(" <;> rfl
  simp only [castLiteralAt?, Text.stripPrefix?_append_cons (show '@' ∉ ("inttoptr" : Text) by decide),
    Text.stripPrefix?_append_cons (show '@' ∉ ("i64" : Text) by decide),
    Text.stripPrefix?_append_cons (show '@' ∉ ("to" : Text) by decide),
    Text.trimStart_append_cons hblank, Text.run?_append_cons hblank, Text.run?_append_cons hdecimal,
    Text.atWordEnd_append_cons hword, hbracket, Option.bind_eq_bind, Option.bind_map, Function.comp_def]

/-! ### Symbols that may be exchanged -/

namespace Token

/-- Nothing begins or ends within the symbol but the symbol itself. -/
structure Harmless (token : Text) : Prop where
  /-- It starts with its sigil. -/
  sigil : token.head? = some '@'
  /-- It opens and closes nothing. -/
  inert : Region.Inert '\x7b' '\x7d' token
  /-- It holds neither blanks nor opening braces. -/
  solid : ∀ c ∈ token, Text.isBlank c = false ∧ c ≠ '\x7b'
  /-- What could begin an address is cut short by an underscore. -/
  guarded : ∀ x y, token = x ++ y → y.head? = some 'i' → '_' ∈ y

theorem Harmless.newline {token : Text} (h : Harmless token) : '\n' ∉ token := fun hmem =>
  absurd (h.solid _ hmem).1 (by decide)

/-- No address begins within a harmless symbol. -/
theorem Harmless.castLiteralAt?_eq_none {token x y : Text} (h : Harmless token) (he : token = x ++ y)
    (hy : y ≠ []) (u : Text) : Line.castLiteralAt? (y ++ u) = none := by
  rw [← Option.not_isSome_iff_eq_none, Residue.isSome_castLiteralAt?, Option.any_eq_true]
  rintro ⟨rest, hrest, hcast⟩
  have htext := Text.stripPrefix?_eq_some_iff.mp hrest
  obtain ⟨before, c, after, rfl, hc, -, hbefore⟩ := Residue.exists_blank_of_castRest hcast
  -- the symbol goes on from the keyword and reaches an underscore before any blank
  have hguard : '_' ∈ y := by
    refine h.guarded x y he ?_
    obtain ⟨d, y, rfl⟩ := List.exists_cons_of_ne_nil hy
    exact congrArg some (List.cons.inj htext).1
  have hfree : '_' ∉ ("inttoptr" : Text) ++ before := by
    intro hmem
    rcases List.mem_append.mp hmem with hmem | hmem
    · exact absurd hmem (by decide)
    · rcases hbefore _ hmem with hb | hb
      · exact absurd hb (by decide)
      · exact absurd hb (by decide)
  have hsolid : c ∉ y := by
    intro hmem
    have := (h.solid c (he ▸ List.mem_append_right x hmem)).1
    rw [hc] at this
    cases this
  rw [← List.append_assoc] at htext
  rcases List.append_eq_append_iff.mp htext with ⟨mid, hmid, -⟩ | ⟨mid, rfl, hmid⟩
  · exact hfree (hmid ▸ List.mem_append_left mid hguard)
  · cases mid with
    | nil => exact hfree (by simpa using hguard)
    | cons d mid => exact hsolid ((List.cons.inj hmid).1 ▸ by simp)

end Token

/-! ### Respelled texts -/

open Token

/-- The second text is the first one with some symbols exchanged. -/
inductive Respelled : Text → Text → Prop
  /-- Nothing is left. -/
  | nil : Respelled [] []
  /-- A character stays. -/
  | cons (c : Char) {t u : Text} (h : Respelled t u) : Respelled (c :: t) (c :: u)
  /-- A symbol is put in for another, which had quotes if the new one has. -/
  | symbol {old new t u : Text} (hold : Harmless old) (hnew : Harmless new) (hquotes : '"' ∈ new → '"' ∈ old)
      (h : Respelled t u) : Respelled (old ++ t) (new ++ u)

namespace Respelled

variable {t u : Text}

theorem append_left (p : Text) (h : Respelled t u) : Respelled (p ++ t) (p ++ u) := by
  induction p with
  | nil => exact h
  | cons c p ih => exact ih.cons c

/-- Respelling touches nothing before the first sigil. -/
theorem front_eq (h : Respelled t u) : u.front = t.front := by
  induction h with
  | nil => rfl
  | cons c h ih =>
    rw [Text.front, List.takeWhile_cons, Text.front, List.takeWhile_cons]
    split
    · exact congrArg (c :: ·) ih
    · rfl
  | symbol hold hnew _ _ _ =>
    obtain ⟨old, rfl⟩ := List.head?_eq_some_iff.mp hold.sigil
    obtain ⟨new, rfl⟩ := List.head?_eq_some_iff.mp hnew.sigil
    rfl

/-- **Delimiters keep their partners.** -/
theorem scan_eq (h : Respelled t u) (s : Region.Mode × Nat) :
    Region.scan '\x7b' '\x7d' s u = Region.scan '\x7b' '\x7d' s t := by
  induction h generalizing s with
  | nil => rfl
  | cons c h ih => simp only [Region.scan_cons, ih]
  | symbol hold hnew _ _ ih => rw [Region.scan_append, Region.scan_append, hold.inert, hnew.inert, Option.bind_some,
      Option.bind_some, ih]

/-- Neither quotes nor line feeds come in. -/
theorem notMem (h : Respelled t u) {c : Char} (hc : c = '"' ∨ c = '\n') (ht : c ∉ t) : c ∉ u := by
  induction h with
  | nil => exact ht
  | cons d h ih => simp_all
  | symbol hold hnew hquotes _ ih =>
    rw [List.mem_append, not_or] at ht ⊢
    refine ⟨?_, ih ht.2⟩
    rcases hc with rfl | rfl
    · exact fun hmem => ht.1 (hquotes hmem)
    · exact hnew.newline

theorem eq_nil_iff (h : Respelled t u) : u = [] ↔ t = [] := by
  have hne : ∀ {token : Text}, Harmless token → token ≠ [] := by
    rintro _ h rfl
    cases h.sigil
  cases h with
  | nil => rfl
  | cons c h => simp
  | symbol hold hnew _ _ => simp [hne hold, hne hnew]

theorem append_right (h : Respelled t u) (v : Text) : Respelled (t ++ v) (u ++ v) := by
  induction h with
  | nil =>
    induction v with
    | nil => exact .nil
    | cons c v ih => exact ih.cons c
  | cons c h ih => exact ih.cons c
  | symbol hold hnew hquotes h ih =>
    rw [List.append_assoc, List.append_assoc]
    exact ih.symbol hold hnew hquotes

/-- A text that starts with no blank starts with none after respelling. -/
theorem head?_solid (h : Respelled t u) (ht : ∀ c, t.head? = some c → Text.isBlank c = false) :
    ∀ c, u.head? = some c → Text.isBlank c = false := by
  cases h with
  | nil => exact ht
  | cons d h => exact ht
  | symbol hold hnew _ _ =>
    intro c hc
    obtain ⟨new, rfl⟩ := List.head?_eq_some_iff.mp hnew.sigil
    rw [← Option.some.inj hc]
    decide

/-- The last character stays, or a symbol at the end has been exchanged. -/
theorem getLast?_cases (h : Respelled t u) : u.getLast? = t.getLast? ∨
    ∃ old new, Harmless old ∧ Harmless new ∧ t.getLast? = old.getLast? ∧ u.getLast? = new.getLast? := by
  induction h with
  | nil => exact .inl rfl
  | @cons d t u h ih =>
    by_cases htail : t = []
    · rw [h.eq_nil_iff.mpr htail, htail]
      exact .inl rfl
    · have hlast : ∀ {v : Text}, v ≠ [] → (d :: v).getLast? = v.getLast? := by
        intro v hv
        rw [List.getLast?_cons_of_ne_nil hv]
      rw [hlast htail, hlast fun hu => htail (h.eq_nil_iff.mp hu)]
      exact ih
  | @symbol old new t u hold hnew _ h ih =>
    by_cases htail : t = []
    · rw [h.eq_nil_iff.mpr htail, htail, List.append_nil, List.append_nil]
      exact .inr ⟨old, new, hold, hnew, rfl, rfl⟩
    · rw [List.getLast?_append_of_ne_nil _ htail,
        List.getLast?_append_of_ne_nil _ fun hu => htail (h.eq_nil_iff.mp hu)]
      exact ih

/-- A text without blanks at its end gets none there. -/
theorem getLast?_solid (h : Respelled t u) (ht : ∀ c, t.getLast? = some c → Text.isBlank c = false) :
    ∀ c, u.getLast? = some c → Text.isBlank c = false := by
  intro c hc
  rcases h.getLast?_cases with he | ⟨old, new, -, hnew, -, he⟩
  · exact ht c (he ▸ hc)
  · exact (hnew.solid c (List.mem_of_getLast? (he ▸ hc))).1

/-- An opening brace at the end stays there. -/
theorem getLast?_brace (h : Respelled t u) (ht : t.getLast? = some '\x7b') : u.getLast? = some '\x7b' := by
  rcases h.getLast?_cases with he | ⟨old, new, hold, -, he, -⟩
  · rw [he, ht]
  · exact absurd rfl (hold.solid _ (List.mem_of_getLast? (he ▸ ht))).2

/-- **The addresses in a text stay.** -/
theorem address?_eq (h : Respelled t u) : Line.address? u = Line.address? t := by
  have hskip : ∀ {token x y : Text}, Harmless token → token = x ++ y → ∀ v,
      Text.first? Line.castLiteralAt? (y ++ v) = Text.first? Line.castLiteralAt? v := by
    intro token x y htoken he v
    induction y generalizing x with
    | nil => rfl
    | cons c y ih =>
      have hnone := htoken.castLiteralAt?_eq_none he (by simp) v
      rw [List.cons_append, Text.first?, ← List.cons_append, hnone]
      exact ih (x := x ++ [c]) (by rw [he, List.append_assoc, List.singleton_append])
  have hfirst : Text.first? Line.castLiteralAt? u = Text.first? Line.castLiteralAt? t := by
    induction h with
    | nil => rfl
    | @cons c t u h ih =>
      have hhere : Line.castLiteralAt? (c :: u) = Line.castLiteralAt? (c :: t) :=
        Text.congr_of_front Line.castLiteralAt?_append_sigil (h.cons c).front_eq
      rw [Text.first?, Text.first?, hhere, ih]
    | symbol hold hnew _ _ ih => rw [hskip hold (List.nil_append _).symm, hskip hnew (List.nil_append _).symm, ih]
  rw [Line.address?, Line.address?, Line.castLiteral?, Line.castLiteral?, hfirst]

end Respelled

/-! ### Lines that start definitions -/

namespace Definition

/-- A definition starts at one of the lines of a text; the first one counts only if it is fresh. -/
def opens : (fresh : Bool) → Text → Bool
  | _, [] => false
  | fresh, c :: t => fresh && isDefineLine (c :: t) || opens (c == '\n') t

@[simp] theorem opens_nil (fresh : Bool) : opens fresh [] = false := rfl

@[simp] theorem opens_cons (fresh : Bool) (c : Char) (t : Text) :
    opens fresh (c :: t) = (fresh && isDefineLine (c :: t) || opens (c == '\n') t) := rfl

/-- What follows a text without line feeds decides. -/
theorem opens_append {t : Text} (ht : '\n' ∉ t) (u : Text) : opens false (t ++ u) = opens false u := by
  induction t with
  | nil => rfl
  | cons c t ih =>
    obtain ⟨hc, ht⟩ := List.ne_and_not_mem_of_not_mem_cons ht
    rw [List.cons_append, opens_cons, Bool.false_and, Bool.false_or, beq_eq_false_iff_ne.mpr hc.symm, ih ht]

/-- What follows the first line of a text does not matter for whether it starts a definition. -/
theorem isDefineLine_of_lines {t line : Text} {ls : List Text} (h : t.lines = line :: ls) :
    isDefineLine t = isDefineLine line := by
  have ht : Text.unlines (line :: ls) = t := h ▸ Text.unlines_lines t
  cases ls with
  | nil =>
    rw [← ht, Text.unlines, List.intercalate_singleton]
  | cons next ls =>
    rw [← ht, Text.unlines, List.intercalate_cons_cons, List.append_assoc, List.singleton_append]
    exact isDefineLine_append_cons (by decide +kernel) line _

/-- The lines at which definitions start, found along the text. -/
theorem opens_eq_any (fresh : Bool) (t : Text) :
    opens fresh t = (if fresh then t.lines else t.lines.tail).any isDefineLine := by
  induction t generalizing fresh with
  | nil => cases fresh <;> rfl
  | cons c t ih =>
    obtain ⟨line, rest, hlines⟩ := List.exists_cons_of_ne_nil (List.splitOn_ne_nil '\n' t)
    rw [opens_cons, ih, Text.lines, Text.lines, List.splitOn_cons_eq_if_modifyHead, hlines]
    by_cases hc : c = '\n'
    · subst hc
      have hno : isDefineLine ('\n' :: t) = false := rfl
      cases fresh <;> simp [hno, show isDefineLine [] = false from rfl]
    · have hfirst : isDefineLine (c :: t) = isDefineLine (c :: line) :=
        isDefineLine_of_lines (show Text.lines (c :: t) = (c :: line) :: rest by
          rw [Text.lines, List.splitOn_cons_eq_if_modifyHead, hlines]
          simp [hc])
      cases fresh <;> simp [hc, hfirst]

end Definition

/-- **Definitions start at the same lines.** -/
theorem Respelled.opens_eq {t u : Text} (h : Respelled t u) (fresh : Bool) :
    Definition.opens fresh u = Definition.opens fresh t := by
  have hskip : ∀ {token : Text}, Harmless token → ∀ (fresh : Bool) (v : Text),
      Definition.opens fresh (token ++ v) = Definition.opens false v := by
    intro token htoken fresh v
    have hline := htoken.newline
    obtain ⟨tail, rfl⟩ := List.head?_eq_some_iff.mp htoken.sigil
    have hno : Definition.isDefineLine ('@' :: (tail ++ v)) = false := rfl
    rw [List.cons_append, Definition.opens_cons, hno, Bool.and_false, Bool.false_or]
    exact Definition.opens_append (List.not_mem_of_not_mem_cons hline) v
  induction h generalizing fresh with
  | nil => rfl
  | @cons c t u h ih =>
    have hhere : Definition.isDefineLine (c :: u) = Definition.isDefineLine (c :: t) :=
      Text.congr_of_front (Definition.isDefineLine_append_cons (by decide +kernel)) (h.cons c).front_eq
    rw [Definition.opens_cons, Definition.opens_cons, hhere, ih]
  | symbol hold hnew _ _ ih => rw [hskip hold, hskip hnew, ih]

end Freestanding
