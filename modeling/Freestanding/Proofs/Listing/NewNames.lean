import Freestanding.Proofs.Collector.Renaming
import Freestanding.Proofs.Listing.Lines
import Freestanding.Proofs.Listing.Respelling
import Freestanding.Proofs.Name.Compiled

/-!
# The new names of a dump

When a listing is taken from a dump, the function gets its output name and the entries of the constant
pool get names of their own.  If the function keeps its compiled name, this only respells the texts of the
listing: quotes may be dropped, and pool entries are renamed to symbols that are as harmless as the old
ones.  A line that is named by its first symbol is named by the new name of that symbol afterwards, and
the new names of pool entries are not read as pool entries again.

## Main definitions

* `Definition.NamedFirst` — the symbol that names a line is the first one in it.
* `Renaming.Gentle` — renamings that only respell.

## Main results

* `Renaming.Gentle.respelled` — a gentle renaming respells every text.
* `Renaming.Gentle.nameIn?_rename` — **a line gets the new name of its symbol.**
* `Listing.gentle_renamesFor` — **the new names of a dump are gentle.**
* `Listing.poolSymbol?_apply_renamesFor` — they are no pool entries again.
-/

namespace Freestanding

open Token

/-! ### Lines and their names -/

namespace Definition

/-- The symbol that names a line is the first symbol in it. -/
def NamedFirst (line : Text) : Prop :=
  ∀ name, nameIn? line = some name → ∃ rest, Text.first? (read? '@') line = some (name, '(' :: rest)

instance (line : Text) : Decidable (NamedFirst line) :=
  decidable_of_iff ((nameIn? line).all fun name =>
      (Text.first? (read? '@') line).any fun x => x.1 == name && x.2.head? == some '(') <| by
    rw [Option.all_eq_true]
    refine forall_congr' fun name => imp_congr_right fun _ => ?_
    rw [Option.any_eq_true]
    constructor
    · intro h
      obtain ⟨⟨token, behind⟩, hread, h⟩ := h
      rw [Bool.and_eq_true, beq_iff_eq, beq_iff_eq] at h
      obtain ⟨rest, rfl⟩ := List.head?_eq_some_iff.mp h.2
      exact ⟨rest, h.1 ▸ hread⟩
    · intro h
      obtain ⟨rest, hread⟩ := h
      exact ⟨_, hread, by simp⟩

theorem calledName?_append {token : Text} (h : Named token) (rest : Text) :
    calledName? (token ++ '(' :: rest) = some token := by
  have hparen : ∀ c, ('(' :: rest).head? = some c → isNameChar c = false := by
    rintro c hc
    rw [← Option.some.inj hc]
    decide
  rw [calledName?, h.named?_append hparen]
  rfl

theorem calledName?_eq_none {t : Text} (h : read? '@' t = none) : calledName? t = none := by
  rw [calledName?, named?, h]
  rfl

theorem named_of_nameIn? {line name : Text} (h : nameIn? line = some name) : Named name := by
  obtain ⟨before, after, -, hcalled, -⟩ := Text.first?_eq_some_iff.mp h
  rw [calledName?] at hcalled
  split at hcalled
  · next token rest hnamed =>
    rw [← Option.some.inj hcalled]
    exact (named_of_named? hnamed).2
  · cases hcalled

end Definition

namespace Renaming

/-! ### Gentle renamings -/

/-- Every symbol stays, or it is exchanged for another one that may stand in its place. -/
structure Gentle (r : Renaming) : Prop where
  /-- Symbols are renamed to symbols. -/
  named : ∀ old new : Text, r[old]? = some new → Named new
  /-- Neither the old nor the new one takes part in what the text is read for. -/
  harmless : ∀ old new : Text, r[old]? = some new →
    old = new ∨ Harmless old ∧ Harmless new ∧ ('"' ∈ new → '"' ∈ old)

variable {r : Renaming}

theorem getElem?_of_mem {r : Renaming} {token : Text} (h : token ∈ r) : r[token]? = some (r.apply token) := by
  obtain ⟨new, hnew⟩ := Std.ExtTreeMap.mem_iff_exists.mp h
  rcases r.apply_cases token with ⟨hnone, -⟩ | he
  · rw [hnew] at hnone
    cases hnone
  · exact he

theorem Gentle.named_apply (hr : r.Gentle) {token : Text} (h : Named token) : Named (r.apply token) := by
  rcases r.apply_cases token with ⟨-, he⟩ | he
  · rw [he]
    exact h
  · exact hr.named _ _ he

/-- **A gentle renaming respells every text.** -/
theorem Gentle.respelled (hr : r.Gentle) (t : Text) : Respelled t (t.rename r) := by
  have hsegs : ∀ segs : List Segment, Respelled (segs.flatMap Segment.text) (segs.flatMap r.segment) := by
    intro segs
    induction segs with
    | nil => exact .nil
    | cons seg segs ih =>
      rw [List.flatMap_cons, List.flatMap_cons]
      rcases r.segment_cases seg with he | ⟨old, new, rfl, hnew, he⟩
      · rw [he]
        exact ih.append_left _
      · rw [he]
        rcases hr.harmless old new hnew with rfl | ⟨hold, hnew, hquotes⟩
        · exact ih.append_left _
        · exact ih.symbol hold hnew hquotes
  have h := hsegs (segments '@' t)
  rwa [flatten_segments] at h

end Renaming

/-- A character before a symbol that starts no symbol itself starts none after respelling. -/
theorem Respelled.read?_eq_none {v t u : Text} (h : Respelled t u) (hu : u.head? = some '@') (hne : v ≠ [])
    (hv : read? '@' (v ++ t) = none) : read? '@' (v ++ u) = none := by
  obtain ⟨c, v, rfl⟩ := List.exists_cons_of_ne_nil hne
  by_cases hc : c = '@'
  · subst hc
    rw [List.cons_append, read?_sigil_eq_none_iff] at hv ⊢
    cases v with
    | nil =>
      -- the next character is a sigil
      refine .inr fun d hd => ?_
      rw [List.nil_append, hu] at hd
      rw [← Option.some.inj hd]
      decide
    | cons d v =>
      rcases hv with ⟨w, he, hw⟩ | hv
      · -- a quote without partner gets none
        rw [List.cons_append] at he
        obtain ⟨rfl, rfl⟩ := List.cons.inj he
        refine .inl ⟨v ++ u, rfl, ?_⟩
        rw [List.mem_append, not_or] at hw ⊢
        exact ⟨hw.1, h.notMem (.inl rfl) hw.2⟩
      · exact .inr hv
  · rw [List.cons_append, read?.eq_def]
    dsimp only
    rw [if_neg hc]

/-- **A line gets the new name of its symbol.** -/
theorem Renaming.Gentle.nameIn?_rename {r : Renaming} (hr : r.Gentle) {line name : Text}
    (hfirst : Definition.NamedFirst line) (h : Definition.nameIn? line = some name) :
    Definition.nameIn? (line.rename r) = some (r.apply name) := by
  obtain ⟨rest, hread⟩ := hfirst name h
  obtain ⟨before, after, rfl, hread, hbefore⟩ := Text.first?_eq_some_iff.mp hread
  have hname := Definition.named_of_nameIn? h
  have hnew := hr.named_apply hname
  have hafter : after.rename r = r.apply name ++ '(' :: Text.rename r rest := by
    rw [Text.rename_of_read? r hread, Text.rename_cons r (by decide)]
  have hresp := hr.respelled after
  obtain ⟨rfl, -⟩ := spells_of_read? hread
  rw [Text.rename_append r hbefore, hafter]
  rw [hafter] at hresp
  refine Text.first?_eq_some_iff.mpr ⟨before, _, rfl, Definition.calledName?_append hnew _, fun x y he hy => ?_⟩
  refine Definition.calledName?_eq_none (hresp.read?_eq_none ?_ hy (hbefore x y he hy))
  rw [List.head?_append, hnew.head?_eq]
  rfl

/-! ### Harmless symbols -/

namespace Token

/-- A character that can stand in a harmless symbol. -/
def IsSafe (c : Char) : Prop :=
  Region.isInert '\x7b' '\x7d' c ∧ Text.isBlank c = false

theorem isSafe_of_isPlain {c : Char} (h : Name.isPlain c) : IsSafe c := by
  refine ⟨?_, Name.isBlank_of_isPlain h⟩
  simp only [Region.isInert, Bool.and_eq_true, bne_iff_ne]
  refine ⟨⟨⟨⟨?_, ?_⟩, ?_⟩, ?_⟩, ?_⟩ <;>
    · rintro rfl
      exact absurd h (by decide)

theorem isSafe_of_isNameChar {c : Char} (h : isNameChar c) : IsSafe c := by
  by_cases hplain : Name.isPlain c
  · exact isSafe_of_isPlain hplain
  · have hother : c = '-' ∨ c = '$' := by
      simp only [Name.isPlain, Bool.or_eq_true, not_or] at hplain
      simpa [isNameChar, hplain] using h
    rcases hother with rfl | rfl
    · exact ⟨by decide, by decide⟩
    · exact ⟨by decide, by decide⟩

/-- A blank ends a bare name. -/
theorem isNameChar_of_isBlank {c : Char} (h : Text.isBlank c) : isNameChar c = false := by
  rw [Bool.eq_false_iff]
  intro hname
  rw [(isSafe_of_isNameChar hname).2] at h
  cases h

theorem isSafe_of_isDecimal {c : Char} (h : Text.isDecimal c) : IsSafe c := by
  -- no range of digits meets a range of blanks
  have hapart : ∀ r ∈ Text.decimalRanges, ∀ b ∈ Text.blankRanges, r.2 < b.1 ∨ b.2 < r.1 := by decide +kernel
  constructor
  · simp only [Region.isInert, Bool.and_eq_true, bne_iff_ne]
    refine ⟨⟨⟨⟨?_, ?_⟩, ?_⟩, ?_⟩, ?_⟩ <;>
      · rintro rfl
        exact absurd h (by decide +kernel)
  · rw [Text.isDecimal, Bool.or_eq_true] at h
    rcases h with h | h
    · exact Name.isBlank_of_isPlain (by simp [Name.isPlain, Char.isAlphanum, h])
    · rw [Bool.eq_false_iff]
      intro hblank
      simp only [Text.isBlank, Text.inRanges, List.any_eq_true, Bool.and_eq_true, decide_eq_true_eq] at h hblank
      obtain ⟨r, hr, hr₁, hr₂⟩ := h
      obtain ⟨b, hb, hb₁, hb₂⟩ := hblank
      have := hapart r hr b hb
      omega

/-- A symbol of safe characters is harmless if an underscore stands behind every letter that could begin
an address. -/
theorem Spells.harmless {token name a b : Text} (h : Spells token name) (hsafe : ∀ c ∈ name, IsSafe c)
    (hname : name = a ++ '_' :: b) (hb : 'i' ∉ b) : Harmless token := by
  have hguard : ∀ a b : Text, 'i' ∉ b → ∀ x y, a ++ '_' :: b = x ++ y → y.head? = some 'i' → '_' ∈ y := by
    intro a b hb x y he hy
    rcases List.append_eq_append_iff.mp he with ⟨mid, -, hmid⟩ | ⟨mid, -, hmid⟩
    · cases mid with
      | nil => simp [show y = '_' :: b from by simpa using hmid.symm]
      | cons c mid =>
        obtain ⟨-, rfl⟩ := List.cons.inj hmid
        exact absurd (List.mem_append_right mid (List.mem_of_head? hy)) hb
    · simp [hmid]
  have hinert : ∀ c ∈ name, Region.isInert '\x7b' '\x7d' c := fun c hc => (hsafe c hc).1
  have hsolid : ∀ c ∈ name, Text.isBlank c = false ∧ c ≠ '\x7b' := by
    intro c hc
    refine ⟨(hsafe c hc).2, ?_⟩
    rintro rfl
    exact absurd (hinert _ hc) (by decide)
  have hat : Region.Inert '\x7b' '\x7d' ['@'] := Region.inert_of_forall (Text.forall_mem_of_all (by decide))
  cases h with
  | bare hne _ =>
    refine ⟨rfl, hat.append (Region.inert_of_forall hinert), ?_, ?_⟩
    · intro c hc
      rcases List.mem_cons.mp hc with rfl | hc
      · decide
      · exact hsolid c hc
    · intro x y he hy
      rw [hname, ← List.cons_append] at he
      exact hguard _ b hb x y he hy
  | quoted _ =>
    refine ⟨rfl, hat.append (Region.inert_quoted (by decide) (by decide) hinert), ?_, ?_⟩
    · intro c hc
      simp only [List.mem_cons, List.mem_append, List.not_mem_nil, or_false] at hc
      rcases hc with rfl | rfl | hc | rfl
      · decide
      · decide
      · exact hsolid c hc
      · decide
    · intro x y he hy
      have he' : ('@' :: '"' :: a) ++ '_' :: (b ++ ['"']) = x ++ y := by
        rw [← he, hname]
        simp
      exact hguard _ _ (by simp [hb]) x y he' hy

end Token

/-! ### Pool entries -/

namespace TopLevel

theorem eq_of_poolCounter? {name counter : Text} (h : poolCounter? name = some counter) :
    ∃ mark : Text, name = "_j_const" ++ (mark ++ counter) ∧ mark ∈ ([[], ['#'], ['_']] : List Text) ∧
      ∀ c ∈ counter, Text.isDecimal c := by
  rw [poolCounter?, Option.bind_eq_bind, Option.bind_eq_some_iff] at h
  obtain ⟨rest, hrest, h⟩ := h
  have hname := Text.stripPrefix?_eq_some_iff.mp hrest
  have hdigits : ∀ d : Text, (if d ≠ [] ∧ d.all Text.isDecimal then some d else none) = some counter →
      d = counter ∧ ∀ c ∈ counter, Text.isDecimal c := by
    intro d hd
    split at hd
    · next hall =>
      obtain rfl := Option.some.inj hd
      exact ⟨rfl, List.all_eq_true.mp hall.2⟩
    · cases hd
  dsimp only at h
  split at h
  · obtain ⟨rfl, hall⟩ := hdigits _ h
    exact ⟨['#'], hname, by simp, hall⟩
  · obtain ⟨rfl, hall⟩ := hdigits _ h
    exact ⟨['_'], hname, by simp, hall⟩
  · obtain ⟨rfl, hall⟩ := hdigits _ h
    exact ⟨[], hname, by simp, hall⟩

theorem notMem_of_isDecimal {digits : Text} (h : ∀ c ∈ digits, Text.isDecimal c) : 'i' ∉ digits := by
  intro hmem
  exact absurd (h _ hmem) (by decide +kernel)

/-- Entries of the constant pool are harmless. -/
theorem harmless_of_poolCounter? {token name counter : Text} (h : Spells token name)
    (hcounter : poolCounter? name = some counter) : Harmless token := by
  obtain ⟨mark, hname, hmark, hdigits⟩ := eq_of_poolCounter? hcounter
  have hmark' : ∀ c ∈ mark, IsSafe c ∧ c ≠ 'i' := by
    intro c hc
    have hc' : c = '#' ∨ c = '_' := by
      simp only [List.mem_cons, List.not_mem_nil, or_false] at hmark
      rcases hmark with rfl | rfl | rfl
      · cases hc
      · exact .inl (List.mem_singleton.mp hc)
      · exact .inr (List.mem_singleton.mp hc)
    rcases hc' with rfl | rfl
    · exact ⟨⟨by decide, by decide⟩, by decide⟩
    · exact ⟨⟨by decide, by decide⟩, by decide⟩
  refine h.harmless (a := []) (b := "j_const" ++ (mark ++ counter)) ?_ hname ?_
  · intro c hc
    rw [hname] at hc
    rcases List.mem_append.mp hc with hc | hc
    · exact isSafe_of_isPlain (Text.forall_mem_of_all (p := fun c => Name.isPlain c = true) (by decide) c hc)
    · rcases List.mem_append.mp hc with hc | hc
      · exact (hmark' c hc).1
      · exact isSafe_of_isDecimal (hdigits c hc)
  · intro hmem
    rcases List.mem_append.mp hmem with hmem | hmem
    · exact absurd hmem (by decide)
    · rcases List.mem_append.mp hmem with hmem | hmem
      · exact (hmark' _ hmem).2 rfl
      · exact notMem_of_isDecimal hdigits hmem

end TopLevel

namespace Target

theorem exists_poolName_eq (t : Target) (counter : Text) :
    ∃ middle, t.poolName counter = '_' :: ("j_const_" ++ (middle ++ '_' :: counter)) ∧ Name.Plain middle := by
  rw [poolName]
  split
  · exact ⟨Name.sanitize t.name, by simp, Name.plain_sanitize t.name⟩
  · refine ⟨Name.sanitize t.name ++ '.' :: Text.decimal t.overload, by simp, ?_⟩
    exact (Name.plain_sanitize t.name).append (.cons rfl (Name.plain_decimal t.overload))

/-- The name of a pool entry consists of plain characters, the counter apart. -/
theorem isPlain_of_mem_poolName {t : Target} {counter : Text} {c : Char} (hc : c ∈ t.poolName counter) :
    Name.isPlain c ∨ c ∈ counter := by
  obtain ⟨middle, he, hmiddle⟩ := t.exists_poolName_eq counter
  rw [he] at hc
  rcases List.mem_cons.mp hc with rfl | hc
  · exact .inl rfl
  · rcases List.mem_append.mp hc with hc | hc
    · exact .inl (Text.forall_mem_of_all (p := fun c => Name.isPlain c = true) (by decide) c hc)
    · rcases List.mem_append.mp hc with hc | hc
      · exact .inl (hmiddle c hc)
      · rcases List.mem_cons.mp hc with rfl | hc
        · exact .inl rfl
        · exact .inr hc

/-- It is not the name of a pool entry again. -/
theorem poolCounter?_poolName (t : Target) (counter : Text) :
    TopLevel.poolCounter? (t.poolName counter) = none := by
  obtain ⟨middle, he, -⟩ := t.exists_poolName_eq counter
  have hstrip : Text.stripPrefix? (t.poolName counter) "_j_const" = some ('_' :: (middle ++ '_' :: counter)) := by
    rw [Text.stripPrefix?_eq_some_iff, he]
    rfl
  have hnot : ¬ (middle ++ '_' :: counter).all Text.isDecimal := by
    intro hall
    exact absurd (List.all_eq_true.mp hall '_' (by simp)) (by decide +kernel)
  rw [TopLevel.poolCounter?, hstrip]
  exact if_neg fun h => hnot h.2

theorem isSafe_of_mem_poolName {t : Target} {counter : Text} (hdigits : ∀ c ∈ counter, Text.isDecimal c) :
    ∀ c ∈ t.poolName counter, IsSafe c := by
  intro c hc
  rcases isPlain_of_mem_poolName hc with hc | hc
  · exact isSafe_of_isPlain hc
  · exact isSafe_of_isDecimal (hdigits c hc)

theorem spells_poolName (t : Target) {counter : Text} (hdigits : ∀ c ∈ counter, Text.isDecimal c) :
    t.poolName counter ≠ [] ∧ Spells (Name.symbol (t.poolName counter)) (t.poolName counter) := by
  obtain ⟨middle, he, -⟩ := t.exists_poolName_eq counter
  have hne : t.poolName counter ≠ [] := by
    rw [he]
    simp
  refine ⟨hne, spells_symbol hne fun hmem => ?_⟩
  exact absurd (isSafe_of_mem_poolName hdigits _ hmem).1 (by decide)

private theorem harmless_poolName (t : Target) {counter : Text} (hdigits : ∀ c ∈ counter, Text.isDecimal c) :
    Harmless (Name.symbol (t.poolName counter)) := by
  obtain ⟨middle, he, -⟩ := t.exists_poolName_eq counter
  refine (t.spells_poolName hdigits).2.harmless (a := '_' :: ("j_const_" ++ middle)) (b := counter)
    (isSafe_of_mem_poolName hdigits) ?_ (TopLevel.notMem_of_isDecimal hdigits)
  rw [he]
  simp

/-- A counter that needs no quotes gives a name that needs none. -/
theorem quote_notMem_poolName (t : Target) {counter : Text} (h : ∀ c ∈ counter, isNameChar c) :
    '"' ∉ Name.symbol (t.poolName counter) := by
  have hchars : ∀ c ∈ t.poolName counter, isNameChar c := by
    intro c hc
    rcases isPlain_of_mem_poolName hc with hc | hc
    · simp only [Name.isPlain, Bool.or_eq_true] at hc
      rcases hc with (hc | hc) | hc <;> simp [isNameChar, hc]
    · exact h c hc
  have hid : Name.isIdentifier (t.poolName counter) := by
    obtain ⟨middle, he, -⟩ := t.exists_poolName_eq counter
    rw [he] at hchars ⊢
    exact List.all_eq_true.mpr fun c hc => hchars c (List.mem_cons_of_mem _ hc)
  rw [Name.symbol, Name.write, if_pos hid]
  intro hmem
  rcases List.mem_cons.mp hmem with hc | hc
  · exact absurd hc (by decide)
  · exact absurd (hchars _ hc) (by decide)

/-- A pool entry is exchanged for a symbol that is as harmless. -/
theorem harmless_of_poolSymbol? {t : Target} {old new : Text} (hold : Named old)
    (h : t.poolSymbol? old = some new) :
    Named new ∧ Harmless old ∧ Harmless new ∧ ('"' ∈ new → '"' ∈ old) := by
  rw [poolSymbol?, Option.map_eq_some_iff] at h
  obtain ⟨counter, hcounter, rfl⟩ := h
  obtain ⟨name, -, hspells⟩ := hold
  rw [hspells.bare_eq] at hcounter
  obtain ⟨mark, hname, -, hdigits⟩ := TopLevel.eq_of_poolCounter? hcounter
  refine ⟨⟨_, t.spells_poolName hdigits⟩, TopLevel.harmless_of_poolCounter? hspells hcounter,
    t.harmless_poolName hdigits, ?_⟩
  intro hmem
  cases hspells with
  | quoted _ => simp
  | bare _ hchars =>
    refine absurd hmem (t.quote_notMem_poolName fun c hc => List.all_eq_true.mp hchars c ?_)
    rw [hname]
    simp [hc]

/-- The function is no entry point and keeps its compiled name. -/
structure Keeps (t : Target) (own : Text) : Prop where
  /-- It does not become `main`. -/
  isEntry_eq : t.isEntry = false
  /-- Its output name is the one that it has. -/
  external_eq : t.external = Name.bare own
  /-- It has a name. -/
  named : Named own
  /-- The name is a compiled one. -/
  compiled : (CompiledName.parse? own).isSome

namespace Keeps

variable {t : Target} {own : Text}

theorem symbol_eq (h : t.Keeps own) : t.symbol = Name.symbol (Name.bare own) := by
  rw [symbol, h.isEntry_eq, h.external_eq]
  rfl

theorem exists_name (h : t.Keeps own) : ∃ name, name ≠ [] ∧ Spells own name ∧ t.symbol = Name.symbol name ∧
    Spells t.symbol name := by
  obtain ⟨name, hne, hspells⟩ := h.named
  have hsymbol : t.symbol = Name.symbol name := by rw [h.symbol_eq, hspells.bare_eq]
  exact ⟨name, hne, hspells, hsymbol, hsymbol ▸ spells_symbol hne hspells.quote_notMem⟩

private theorem named_symbol (h : t.Keeps own) : Named t.symbol := by
  obtain ⟨name, hne, -, -, hspells⟩ := h.exists_name
  exact ⟨name, hne, hspells⟩

theorem bare_symbol (h : t.Keeps own) : Name.bare t.symbol = Name.bare own := by
  obtain ⟨name, -, hown, -, hsymbol⟩ := h.exists_name
  rw [hsymbol.bare_eq, hown.bare_eq]

theorem poolSymbol?_eq_none (h : t.Keeps own) {token : Text} (htoken : Name.bare token = Name.bare own) :
    t.poolSymbol? token = none := by
  obtain ⟨c, hc⟩ := Option.isSome_iff_exists.mp h.compiled
  obtain ⟨digits, hbare, -⟩ := CompiledName.bare_eq_of_parse? hc
  rw [poolSymbol?, htoken, hbare]
  rfl

/-- The symbol of the function stays, or it loses its quotes. -/
theorem harmless (h : t.Keeps own) :
    own = t.symbol ∨ Harmless own ∧ Harmless t.symbol ∧ ('"' ∈ t.symbol → '"' ∈ own) := by
  obtain ⟨name, hne, hown, hsymbol, hspells⟩ := h.exists_name
  obtain ⟨c, hc⟩ := Option.isSome_iff_exists.mp h.compiled
  obtain ⟨digits, hbare, hdigits⟩ := CompiledName.bare_eq_of_parse? hc
  rw [hown.bare_eq] at hbare
  by_cases hid : Name.isIdentifier name
  · cases hown with
    | bare _ _ =>
      rw [hsymbol, Name.symbol, Name.write, if_pos hid]
      exact .inl rfl
    | quoted hname =>
      have hchars : ∀ c ∈ name, IsSafe c := by
        intro c hc
        refine isSafe_of_isNameChar ?_
        obtain ⟨d, name, rfl⟩ := List.exists_cons_of_ne_nil hne
        simp only [Name.isIdentifier, Bool.and_eq_true, List.all_eq_true] at hid
        rcases List.mem_cons.mp hc with rfl | hc
        · exact hid.1.1
        · exact hid.2 c hc
      have hi : 'i' ∉ digits := by
        intro hmem
        exact absurd (List.all_eq_true.mp hdigits _ hmem) (by decide)
      have hsplit : name = ("julia_" ++ c.stem) ++ '_' :: digits := by rw [hbare, List.append_assoc]
      exact .inr ⟨(Spells.quoted hname).harmless hchars hsplit hi, hspells.harmless hchars hsplit hi, by simp⟩
  · cases hown with
    | bare _ hchars =>
      -- a compiled name without quotes is an identifier
      refine absurd ?_ hid
      rw [hbare] at hchars ⊢
      have hrest := (Bool.and_eq_true_iff.mp hchars).2
      exact hrest
    | quoted _ =>
      rw [hsymbol, Name.symbol, Name.write, if_neg hid]
      exact .inl rfl

end Keeps

end Target

namespace Listing

/-! ### The renaming of a dump -/

variable {target : Target} {own : Text} {constants : List (Text × Text)}

/-- The new names are entered one constant after the other. -/
theorem renamesFor_eq (target : Target) (own : Text) (constants : List (Text × Text)) :
    renamesFor target own constants = constants.foldl
      (fun r x => (target.poolSymbol? x.1).elim r (r.insert x.1)) ((∅ : Renaming).insert own target.symbol) := by
  rw [renamesFor]
  congr
  funext r x
  obtain ⟨symbol, line⟩ := x
  dsimp only
  cases target.poolSymbol? symbol <;> rfl

/-- Where a new name comes from. -/
theorem getElem?_renamesFor_cases {old new : Text} (h : (renamesFor target own constants)[old]? = some new) :
    old = own ∧ new = target.symbol ∨
      target.poolSymbol? old = some new ∧ ∃ line, (old, line) ∈ constants := by
  have hfold : ∀ (cs : List (Text × Text)) (m : Renaming), (cs.foldl
      (fun r x => (target.poolSymbol? x.1).elim r (r.insert x.1)) m)[old]? = some new →
      m[old]? = some new ∨ target.poolSymbol? old = some new ∧ ∃ line, (old, line) ∈ cs := by
    intro cs
    induction cs with
    | nil => exact fun m hm => .inl hm
    | cons x cs ih =>
      intro m hm
      rcases ih _ hm with hm | ⟨hpool, line, hline⟩
      · dsimp only at hm
        cases hsymbol : target.poolSymbol? x.1 with
        | none =>
          rw [hsymbol] at hm
          exact .inl hm
        | some symbol =>
          rw [hsymbol] at hm
          rcases Std.ExtTreeMap.getElem?_insert_cases hm with ⟨rfl, rfl⟩ | hm
          · exact .inr ⟨hsymbol, x.2, List.mem_cons_self⟩
          · exact .inl hm
      · exact .inr ⟨hpool, line, List.mem_cons_of_mem _ hline⟩
  rw [renamesFor_eq] at h
  rcases hfold constants _ h with h | h
  · rcases Std.ExtTreeMap.getElem?_insert_cases h with ⟨rfl, rfl⟩ | h
    · exact .inl ⟨rfl, rfl⟩
    · exact absurd h (by simp)
  · exact .inr h

/-- The function and the pool entries have new names. -/
theorem mem_renamesFor {old : Text}
    (h : old = own ∨ (target.poolSymbol? old).isSome ∧ ∃ line, (old, line) ∈ constants) :
    old ∈ renamesFor target own constants := by
  have hfold : ∀ (cs : List (Text × Text)) (m : Renaming),
      (old ∈ m ∨ (target.poolSymbol? old).isSome ∧ ∃ line, (old, line) ∈ cs) →
      old ∈ cs.foldl (fun r x => (target.poolSymbol? x.1).elim r (r.insert x.1)) m := by
    intro cs
    induction cs with
    | nil =>
      rintro m (hm | ⟨-, line, hline⟩)
      · exact hm
      · cases hline
    | cons x cs ih =>
      intro m hm
      refine ih _ ?_
      rcases hm with hm | ⟨hpool, line, hline⟩
      · left
        dsimp only
        cases target.poolSymbol? x.1 with
        | none => exact hm
        | some symbol => exact Std.ExtTreeMap.mem_insert.mpr (.inr hm)
      · rcases List.mem_cons.mp hline with rfl | hline
        · left
          obtain ⟨new, hnew⟩ := Option.isSome_iff_exists.mp hpool
          simp [hnew]
        · exact .inr ⟨hpool, line, hline⟩
  rw [renamesFor_eq]
  refine hfold constants _ ?_
  rcases h with rfl | h
  · exact .inl (by simp)
  · exact .inr h

/-- **The new names of a dump are gentle.** -/
theorem gentle_renamesFor (hkeeps : target.Keeps own) (hconstants : ∀ x ∈ constants, Named x.1) :
    (renamesFor target own constants).Gentle where
  named := by
    intro old new h
    rcases getElem?_renamesFor_cases h with ⟨-, rfl⟩ | ⟨hpool, line, hline⟩
    · exact hkeeps.named_symbol
    · exact (Target.harmless_of_poolSymbol? (hconstants _ hline) hpool).1
  harmless := by
    intro old new h
    rcases getElem?_renamesFor_cases h with ⟨rfl, rfl⟩ | ⟨hpool, line, hline⟩
    · exact hkeeps.harmless
    · exact .inr (Target.harmless_of_poolSymbol? (hconstants _ hline) hpool).2

theorem apply_renamesFor_own (hpool : target.poolSymbol? own = none) :
    (renamesFor target own constants).apply own = target.symbol := by
  have h := Renaming.getElem?_of_mem (mem_renamesFor (.inl rfl) : own ∈ renamesFor target own constants)
  rcases getElem?_renamesFor_cases h with ⟨-, h⟩ | ⟨hnew, -⟩
  · exact h
  · rw [hpool] at hnew
    cases hnew

/-- The name of a symbol stays, unless it is a pool entry. -/
theorem bare_apply_renamesFor (hkeeps : target.Keeps own) (constants : List (Text × Text)) (symbol : Text) :
    Name.bare ((renamesFor target own constants).apply symbol) = Name.bare symbol ∨
      target.poolSymbol? symbol = some ((renamesFor target own constants).apply symbol) := by
  rcases (renamesFor target own constants).apply_cases symbol with ⟨-, h⟩ | h
  · rw [h]
    exact .inl rfl
  · rcases getElem?_renamesFor_cases h with ⟨rfl, h⟩ | ⟨hpool, -⟩
    · rw [h]
      exact .inl hkeeps.bare_symbol
    · exact .inr hpool

/-- **The new names of constants are not read as pool entries again.** -/
theorem poolSymbol?_apply_renamesFor (hkeeps : target.Keeps own) (hconstants : ∀ x ∈ constants, Named x.1)
    {x : Text × Text} (hx : x ∈ constants) :
    target.poolSymbol? ((renamesFor target own constants).apply x.1) = none := by
  have hagain : ∀ new, target.poolSymbol? x.1 = some new → target.poolSymbol? new = none := by
    intro new hnew
    obtain ⟨name, -, hspells⟩ := hconstants x hx
    rw [Target.poolSymbol?, hspells.bare_eq, Option.map_eq_some_iff] at hnew
    obtain ⟨counter, hcounter, rfl⟩ := hnew
    obtain ⟨-, -, -, hdigits⟩ := TopLevel.eq_of_poolCounter? hcounter
    rw [Target.poolSymbol?, (target.spells_poolName hdigits).2.bare_eq, target.poolCounter?_poolName]
    rfl
  cases hpool : target.poolSymbol? x.1 with
  | none =>
    rcases bare_apply_renamesFor hkeeps constants x.1 with hbare | h
    · rw [Target.poolSymbol?, hbare]
      exact hpool
    · exact hagain _ h
  | some new =>
    have hmem : x.1 ∈ renamesFor target own constants := mem_renamesFor (.inr ⟨by rw [hpool]; rfl, x.2, hx⟩)
    rcases getElem?_renamesFor_cases (Renaming.getElem?_of_mem hmem) with ⟨hown, -⟩ | ⟨h, -⟩
    · rw [hown, hkeeps.poolSymbol?_eq_none rfl] at hpool
      cases hpool
    · exact hagain _ h

end Listing

end Freestanding
