import Freestanding.Name
import Freestanding.Renaming
import Freestanding.Proofs.Binding.Residue
import Freestanding.Proofs.Text.Lines

/-!
# How symbols are spelled

A symbol is a sigil and a bare name, or a sigil and a name in quotes.  Reading finds a symbol of one of
the two spellings, and finds it again wherever the spelling is not continued by the text behind it.  What
stands before the first symbol of a text is not touched by renaming.

## Main definitions

* `Token.Spells` — a token is a spelling of a name.

## Main results

* `Token.spells_of_read?`, `Token.Spells.read?_append` — reading gives spellings, and spellings can be
  read.
* `Token.spells_symbol` — the spelling that is chosen for a name.
* `Text.rename_append`, `Text.rename_of_read?` — renaming up to the first symbol, and then the symbol.
-/

namespace Freestanding

namespace Token

variable {token name rest t : Text}

/-! ### The two spellings -/

/-- The token is a global symbol with the given name. -/
inductive Spells : (token name : Text) → Prop
  /-- The name stands behind the sigil. -/
  | bare {name : Text} (hne : name ≠ []) (hname : name.all isNameChar) : Spells ('@' :: name) name
  /-- The name stands in quotes. -/
  | quoted {name : Text} (hname : '"' ∉ name) : Spells ('@' :: '"' :: (name ++ ['"'])) name

private theorem notMem_of_quotedName? (h : quotedName? t = some (name, rest)) : '"' ∉ name := by
  unfold quotedName? at h
  split at h
  · cases h
  · obtain ⟨rfl, -⟩ := Prod.mk.inj (Option.some.inj h)
    intro hmem
    exact absurd (List.mem_takeWhile_imp hmem) (by simp)

theorem quotedName?_append (h : '"' ∉ name) (rest : Text) :
    quotedName? (name ++ '"' :: rest) = some (name, rest) := by
  have hkeep : ∀ c ∈ name, (c != '"') = true := fun c hc => bne_iff_ne.mpr fun he => h (he ▸ hc)
  have htake : (name ++ '"' :: rest).takeWhile (· != '"') = name := by
    rw [List.takeWhile_append_of_pos hkeep]
    simp
  have hdrop : (name ++ '"' :: rest).dropWhile (· != '"') = '"' :: rest := by
    rw [List.dropWhile_append_of_pos hkeep]
    simp
  rw [quotedName?, hdrop, htake]

theorem quotedName?_eq_none (h : '"' ∉ t) : quotedName? t = none := by
  have hdrop : t.dropWhile (· != '"') = [] :=
    List.dropWhile_eq_nil_iff.mpr fun c hc => bne_iff_ne.mpr fun he => h (he ▸ hc)
  rw [quotedName?, hdrop]

/-- **What is read as a symbol is one of the two spellings of a name.** -/
theorem spells_of_read? (h : read? '@' t = some (token, rest)) :
    token ++ rest = t ∧ ∃ name, Spells token name := by
  refine ⟨(append_eq_of_read? h).1, ?_⟩
  rw [read?.eq_def] at h
  split at h
  · cases h
  · split at h
    · next hc =>
      subst hc
      split at h
      · obtain ⟨⟨name, after⟩, hq, he⟩ := Option.map_eq_some_iff.mp h
        obtain ⟨rfl, -⟩ := Prod.mk.inj he
        exact ⟨name, .quoted (notMem_of_quotedName? hq)⟩
      · obtain ⟨⟨name, after⟩, hr, he⟩ := Option.map_eq_some_iff.mp h
        obtain ⟨rfl, -⟩ := Prod.mk.inj he
        refine ⟨name, .bare (append_eq_of_run? hr).2 ?_⟩
        unfold Text.run? at hr
        split at hr
        · cases hr
        · next hrun =>
          obtain ⟨rfl, -⟩ := Prod.mk.inj (Option.some.inj hr)
          rw [← hrun]
          exact List.all_eq_true.mpr fun c hc => List.mem_takeWhile_imp hc
    · cases h

/-- **A symbol can be read, unless the text behind it continues a bare name.** -/
theorem Spells.read?_append (h : Spells token name)
    (hrest : ∀ c, rest.head? = some c → isNameChar c = false) :
    read? '@' (token ++ rest) = some (token, rest) := by
  cases h with
  | bare hne hname =>
    have hrun := Text.run?_append hne (List.all_eq_true.mp hname) hrest
    rw [List.cons_append, read?.eq_def]
    dsimp only
    rw [if_pos rfl]
    split
    · next u he =>
      -- a bare name does not start with a quote
      obtain ⟨c, name, rfl⟩ := List.exists_cons_of_ne_nil hne
      obtain ⟨rfl, -⟩ := List.cons.inj he
      exact absurd (List.all_eq_true.mp hname _ List.mem_cons_self) (by decide)
    · rw [hrun]
      rfl
  | quoted hname =>
    have htext : '@' :: '"' :: (name ++ ['"']) ++ rest = '@' :: '"' :: (name ++ '"' :: rest) := by simp
    rw [htext, read?, if_pos rfl]
    simp only [quotedName?_append hname, Option.map_some]

theorem read?_of_ne {sigil c : Char} (hc : c ≠ sigil) (t : Text) : read? sigil (c :: t) = none := by
  rw [read?.eq_def]
  exact if_neg hc

/-- A sigil starts no token if neither a name character nor a pair of quotes follows it. -/
theorem read?_sigil_eq_none_iff {sigil : Char} : read? sigil (sigil :: t) = none ↔
    (∃ u, t = '"' :: u ∧ '"' ∉ u) ∨ ∀ c, t.head? = some c → c ≠ '"' ∧ isNameChar c = false := by
  rw [read?.eq_def]
  dsimp only
  rw [if_pos rfl]
  split
  · next u =>
    rw [Option.map_eq_none_iff]
    constructor
    · intro hnone
      refine .inl ⟨u, rfl, fun hmem => ?_⟩
      obtain ⟨name, rest, rfl, hname⟩ := List.eq_append_cons_of_mem hmem
      rw [quotedName?_append hname] at hnone
      cases hnone
    · rintro (⟨v, he, hv⟩ | h)
      · exact quotedName?_eq_none ((List.cons.inj he).2 ▸ hv)
      · exact absurd rfl (h '"' rfl).1
  · next hquote =>
    rw [Option.map_eq_none_iff]
    cases t with
    | nil => exact iff_of_true rfl (.inr (by simp))
    | cons c u =>
      have hc : c ≠ '"' := fun he => hquote u (by rw [he])
      have hrun : Text.run? isNameChar (c :: u) = none ↔ isNameChar c = false := by
        rw [Text.run?, List.takeWhile_cons]
        cases isNameChar c <;> simp
      rw [hrun]
      constructor
      · intro hn
        refine .inr fun d hd => ?_
        rw [← Option.some.inj hd]
        exact ⟨hc, hn⟩
      · rintro (⟨v, he, -⟩ | h)
        · exact absurd (List.cons.inj he).1 hc
        · exact (h c rfl).2

/-- The name that a token spells is its name without sigil and quotes. -/
theorem Spells.bare_eq (h : Spells token name) : Name.bare token = name := by
  cases h with
  | bare hne hname =>
    have hchar : ∀ c ∈ name, c ≠ '@' ∧ c ≠ '%' ∧ c ≠ '"' := by
      intro c hc
      have hc := List.all_eq_true.mp hname c hc
      refine ⟨?_, ?_, ?_⟩ <;>
        · rintro rfl
          exact absurd hc (by decide)
    have hsigil : ('@' :: name).dropWhile (fun c => c == '@' || c == '%') = name := by
      rw [List.dropWhile_cons_of_pos (by decide)]
      exact Text.dropWhile_eq_self fun c hc => by simp [hchar c (List.mem_of_head? hc)]
    have hquote : name.dropWhile (· == '"') = name :=
      Text.dropWhile_eq_self fun c hc => by simp [hchar c (List.mem_of_head? hc)]
    rw [Name.bare, hsigil, hquote]
    exact Text.dropWhileEnd_eq_self fun c hc => by simp [hchar c (List.mem_of_getLast? hc)]
  | quoted hname =>
    have hquote : ∀ c ∈ name, (c == '"') = false := fun c hc =>
      beq_eq_false_iff_ne.mpr fun he => hname (he ▸ hc)
    have hsigil : ('@' :: '"' :: (name ++ ['"'])).dropWhile (fun c => c == '@' || c == '%') =
        '"' :: (name ++ ['"']) := by
      rw [List.dropWhile_cons_of_pos (by decide), List.dropWhile_cons_of_neg (by decide)]
    rw [Name.bare, hsigil, List.dropWhile_cons_of_pos (by decide)]
    cases name with
    | nil => rfl
    | cons c name =>
      rw [List.cons_append, List.dropWhile_cons_of_neg (by simp [hquote c List.mem_cons_self]),
        ← List.cons_append, Text.dropWhileEnd, List.reverse_append, List.reverse_singleton,
        List.singleton_append, List.dropWhile_cons_of_pos (by decide), ← Text.dropWhileEnd]
      exact Text.dropWhileEnd_eq_self fun d hd => hquote d (List.mem_of_getLast? hd)

theorem Spells.quote_notMem (h : Spells token name) : '"' ∉ name := by
  cases h with
  | bare _ hname =>
    intro hmem
    exact absurd (List.all_eq_true.mp hname _ hmem) (by decide)
  | quoted hname => exact hname

/-- The symbol that is chosen for a name spells it. -/
theorem spells_symbol (hne : name ≠ []) (h : '"' ∉ name) : Spells (Name.symbol name) name := by
  rw [Name.symbol, Name.write]
  split
  · next hid =>
    refine .bare hne ?_
    obtain ⟨c, name, rfl⟩ := List.exists_cons_of_ne_nil hne
    simp only [Name.isIdentifier, Bool.and_eq_true] at hid
    rw [List.all_cons, hid.1.1, hid.2]
    rfl
  · exact .quoted h

/-- The token is a global symbol with a name. -/
def Named (token : Text) : Prop :=
  ∃ name, name ≠ [] ∧ Spells token name

theorem named_of_named? (h : named? '@' t = some (token, rest)) : token ++ rest = t ∧ Named token := by
  obtain ⟨hread, hquotes⟩ := Option.filter_eq_some_iff.mp h
  obtain ⟨he, name, hspells⟩ := spells_of_read? hread
  refine ⟨he, name, ?_, hspells⟩
  rintro rfl
  cases hspells with
  | bare hne _ => exact hne rfl
  | quoted _ => exact absurd hquotes (by simp)

theorem Named.head?_eq (h : Named token) : token.head? = some '@' := by
  obtain ⟨name, -, hspells⟩ := h
  cases hspells <;> rfl

theorem Named.named?_append (h : Named token) (hrest : ∀ c, rest.head? = some c → isNameChar c = false) :
    named? '@' (token ++ rest) = some (token, rest) := by
  obtain ⟨name, hne, hspells⟩ := h
  refine Option.filter_eq_some_iff.mpr ⟨hspells.read?_append hrest, bne_iff_ne.mpr fun he => hne ?_⟩
  -- a pair of quotes with nothing between is the one spelling of the empty name
  rw [← hspells.bare_eq, he]
  rfl

/-! ### Cutting at symbols -/

/-- A token at the start of a text is the first piece of its cut. -/
theorem segments_of_read? {sigil : Char} (h : read? sigil t = some (token, rest)) :
    segments sigil t = .token token :: segments sigil rest := by
  cases t with
  | nil => exact absurd h (by simp [read?])
  | cons c t =>
    rw [segments_cons, h]

/-- What stands before the first symbol is cut into characters. -/
theorem segments_append {before after : Text}
    (h : ∀ x y, before = x ++ y → y ≠ [] → read? '@' (y ++ after) = none) :
    segments '@' (before ++ after) = before.map .gap ++ segments '@' after := by
  induction before with
  | nil => rfl
  | cons c before ih =>
    have hnone : read? '@' (c :: (before ++ after)) = none := h [] (c :: before) rfl (by simp)
    rw [List.cons_append, segments_cons, hnone, ih fun x y he hy => h (c :: x) y (by rw [he]; rfl) hy]
    rfl

end Token

/-! ### Renaming along the cut -/

/-- A symbol stays, or it has a new one. -/
theorem Renaming.apply_cases (r : Renaming) (token : Text) :
    r[token]? = none ∧ r.apply token = token ∨ r[token]? = some (r.apply token) := by
  rw [apply, Std.ExtTreeMap.getD_eq_getD_getElem?]
  cases r[token]? with
  | none => exact .inl ⟨rfl, rfl⟩
  | some new => exact .inr rfl

namespace Text

variable (r : Renaming)

theorem rename_of_read? {t token rest : Text} (h : Token.read? '@' t = some (token, rest)) :
    rename r t = r.apply token ++ rename r rest := by
  rw [rename, Token.segments_of_read? h, List.flatMap_cons]
  rfl

/-- **Renaming does not touch what stands before the first symbol.** -/
theorem rename_append {before after : Text}
    (h : ∀ x y, before = x ++ y → y ≠ [] → Token.read? '@' (y ++ after) = none) :
    rename r (before ++ after) = before ++ rename r after := by
  have hgaps : (before.map Token.Segment.gap).flatMap r.segment = before := by
    rw [List.flatMap_map]
    exact List.flatMap_singleton' before
  rw [rename, Token.segments_append h, List.flatMap_append, hgaps]
  rfl

private theorem rename_of_read?_eq_none {c : Char} {t : Text} (h : Token.read? '@' (c :: t) = none) :
    rename r (c :: t) = c :: rename r t := by
  rw [rename, Token.segments_cons, h]
  rfl

theorem rename_cons {c : Char} (hc : c ≠ '@') (t : Text) : rename r (c :: t) = c :: rename r t :=
  rename_of_read?_eq_none r (Token.read?_of_ne hc t)

end Text

end Freestanding
