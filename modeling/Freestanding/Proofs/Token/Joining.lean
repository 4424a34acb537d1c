import Freestanding.Proofs.Token.Homomorphism

/-!
# Tokens in a longer text

Symbols and values are spelled alike, up to the sigil: a bare name behind it, or a name in quotes.  A token
keeps to itself.  Only a name character behind a bare name continues it, and only a pair of quotes that is
open before it takes it in.  Where neither is the case, the cut of the whole text is the cut of what stands
before the token, the token, and the cut of what stands behind it; anywhere else it is not.

## Main definitions

* `Token.IsToken` — a text is one token.
* `Token.Continues` — a character behind a token makes it longer.
* `Token.LeavesOpen` — a quoted token begins in a text and does not end there.

## Main results

* `Token.read?_sigil` — tokens of all sigils are read alike.
* `Token.IsToken.read?_append_iff` — **a token is read exactly where nothing continues it.**
* `Token.segments_append_of_closed`, `Token.segments_append_ne` — the cut of two texts.
* `Token.IsToken.segments_eq_iff` — **where a token is one piece of the cut.**
-/

namespace Freestanding.Token

variable {sigil : Char} {token name rest t u : Text}

/-! ### All sigils are alike -/

/-- Tokens of all sigils are read like symbols, up to the sigil. -/
theorem read?_sigil (sigil : Char) (t : Text) :
    read? sigil (sigil :: t) = (read? '@' ('@' :: t)).map fun x => (sigil :: x.1.tail, x.2) := by
  rw [read?.eq_def, read?.eq_def]
  dsimp only
  rw [if_pos rfl, if_pos rfl]
  split
  · rw [Option.map_map]
    rfl
  · rw [Option.map_map]
    rfl

theorem exists_cons_of_read? (h : read? sigil t = some (token, rest)) : ∃ u, t = sigil :: u := by
  rw [read?.eq_def] at h
  split at h
  · cases h
  · split at h
    · next hc => exact ⟨_, by rw [hc]⟩
    · cases h

theorem length_lt_of_read? (h : read? sigil t = some (token, rest)) : rest.length < t.length := by
  obtain ⟨he, hne⟩ := append_eq_of_read? h
  have hpos := List.length_pos_iff.mpr hne
  rw [← he, List.length_append]
  omega

/-- What is read is a sigil and one of the two spellings of a name. -/
theorem exists_spells_of_read? (h : read? sigil t = some (token, rest)) :
    token ++ rest = t ∧ ∃ u name, token = sigil :: u ∧ Spells ('@' :: u) name := by
  refine ⟨(append_eq_of_read? h).1, ?_⟩
  obtain ⟨u, rfl⟩ := exists_cons_of_read? h
  rw [read?_sigil] at h
  obtain ⟨⟨symbol, behind⟩, hread, he⟩ := Option.map_eq_some_iff.mp h
  obtain ⟨rfl, -⟩ := Prod.mk.inj he
  obtain ⟨-, name, hspells⟩ := spells_of_read? hread
  refine ⟨symbol.tail, name, rfl, ?_⟩
  cases hspells with
  | bare hne hname => exact .bare hne hname
  | quoted hname => exact .quoted hname

theorem Spells.read?_sigil_append (h : Spells ('@' :: u) name)
    (hrest : ∀ c, rest.head? = some c → isNameChar c = false) :
    read? sigil (sigil :: u ++ rest) = some (sigil :: u, rest) := by
  rw [List.cons_append, read?_sigil, ← List.cons_append, h.read?_append hrest]
  rfl

/-- A name in quotes is read whatever follows it. -/
theorem read?_quoted (hname : '"' ∉ name) (rest : Text) :
    read? sigil (sigil :: '"' :: (name ++ ['"']) ++ rest) = some (sigil :: '"' :: (name ++ ['"']), rest) := by
  have htext : sigil :: '"' :: (name ++ ['"']) ++ rest = sigil :: '"' :: (name ++ '"' :: rest) := by simp
  rw [htext, read?, if_pos rfl]
  simp only [quotedName?_append hname, Option.map_some]

/-- Behind a sigil, what is not in quotes is a run of name characters. -/
theorem read?_of_ne_quote {c : Char} (hc : c ≠ '"') (t : Text) :
    read? sigil (sigil :: c :: t) = (Text.run? isNameChar (c :: t)).map fun x => (sigil :: x.1, x.2) := by
  rw [read?.eq_def]
  dsimp only
  rw [if_pos rfl]
  split
  · next he => exact absurd (List.cons.inj he).1 hc
  · rfl

/-! ### What continues a token -/

/-- The text is one token: behind the sigil stands a name in quotes, or one or more name characters. -/
def IsToken (sigil : Char) (token : Text) : Prop :=
  (∃ name, '"' ∉ name ∧ token = sigil :: '"' :: (name ++ ['"'])) ∨
    ∃ name, name ≠ [] ∧ (∀ c ∈ name, isNameChar c) ∧ token = sigil :: name

/-- The character behind the token makes it longer: there is a token that goes on with it. -/
def Continues (sigil : Char) (token : Text) (c : Char) : Prop :=
  ∃ rest, IsToken sigil (token ++ c :: rest)

theorem ne_quote_of_isNameChar {c : Char} (hc : isNameChar c) : c ≠ '"' := by
  rintro rfl
  exact absurd hc (by decide)

/-- Nothing continues a name in quotes. -/
theorem not_continues_quoted (hname : '"' ∉ name) (c : Char) :
    ¬ Continues sigil (sigil :: '"' :: (name ++ ['"'])) c := by
  rintro ⟨rest, ⟨longer, hlonger, he⟩ | ⟨longer, -, hlonger, he⟩⟩
  · -- the first quote behind the name ends it
    have hread : read? sigil (sigil :: '"' :: (name ++ ['"']) ++ c :: rest) = _ := read?_quoted hname _
    rw [he, ← List.append_nil (sigil :: '"' :: (longer ++ ['"'])), read?_quoted hlonger] at hread
    cases (Prod.mk.inj (Option.some.inj hread)).2
  · obtain ⟨-, rfl⟩ := List.cons.inj he
    exact ne_quote_of_isNameChar (hlonger '"' (by simp)) rfl

/-- Name characters continue a bare name, and nothing else does. -/
theorem continues_bare_iff (hne : name ≠ []) (hname : ∀ c ∈ name, isNameChar c) {c : Char} :
    Continues sigil (sigil :: name) c ↔ isNameChar c := by
  constructor
  · rintro ⟨rest, ⟨longer, -, he⟩ | ⟨longer, -, hlonger, he⟩⟩
    · -- a bare name does not start with a quote
      obtain ⟨d, name, rfl⟩ := List.exists_cons_of_ne_nil hne
      obtain ⟨rfl, -⟩ := List.cons.inj (List.cons.inj he).2
      exact absurd rfl (ne_quote_of_isNameChar (hname _ List.mem_cons_self))
    · obtain ⟨-, rfl⟩ := List.cons.inj he
      exact hlonger c (by simp)
  · intro hc
    refine ⟨[], .inr ⟨name ++ [c], by simp, fun d hd => ?_, rfl⟩⟩
    rcases List.mem_append.mp hd with hd | hd
    · exact hname d hd
    · rw [List.mem_singleton.mp hd]
      exact hc

/-- **A token is read exactly where nothing continues it.** -/
theorem IsToken.read?_append_iff (h : IsToken sigil token) : read? sigil (token ++ rest) = some (token, rest) ↔
    ∀ c, rest.head? = some c → ¬ Continues sigil token c := by
  rcases h with ⟨name, hname, rfl⟩ | ⟨name, hne, hname, rfl⟩
  · exact iff_of_true (read?_quoted hname rest) fun c _ => not_continues_quoted hname c
  · simp only [continues_bare_iff hne hname, Bool.not_eq_true]
    obtain ⟨d, name, rfl⟩ := List.exists_cons_of_ne_nil hne
    have hd : d ≠ '"' := ne_quote_of_isNameChar (hname d List.mem_cons_self)
    rw [List.cons_append, List.cons_append, read?_of_ne_quote hd, ← List.cons_append]
    constructor
    · intro hread
      obtain ⟨x, hrun, he⟩ := Option.map_eq_some_iff.mp hread
      obtain ⟨-, rfl⟩ := Prod.mk.inj he
      exact head?_of_run? hrun
    · intro hrest
      rw [Text.run?_append hne hname hrest]
      rfl

/-! ### The cut of two texts -/

/-- A quoted token begins in the text and does not end there. -/
def LeavesOpen (sigil : Char) (t : Text) : Prop :=
  [.gap sigil, .gap '"'] <:+: segments sigil t

instance (sigil : Char) (t : Text) : Decidable (LeavesOpen sigil t) :=
  inferInstanceAs (Decidable (_ <:+: _))

private theorem leavesOpen_quote (hsigil : sigil ≠ '"') (h : '"' ∉ u) : LeavesOpen sigil (sigil :: '"' :: u) := by
  have hnone : read? sigil (sigil :: '"' :: u) = none := read?_sigil_eq_none_iff.mpr (.inl ⟨u, rfl, h⟩)
  rw [LeavesOpen, segments_cons, hnone, segments_cons, read?_of_ne hsigil.symm]
  exact (List.prefix_append [_, _] _).isInfix

section

variable {c d : Char} (hsigil : sigil ≠ '"') (hname : isNameChar d = false) (hquote : d ≠ '"')

include hsigil hname hquote

/-- A token at the start of a text is not changed by what follows, unless it goes on there. -/
theorem read?_append_of_closed (hopen : LeavesOpen sigil (c :: t) → '"' ∉ d :: u) :
    read? sigil (c :: (t ++ d :: u)) = (read? sigil (c :: t)).map fun x => (x.1, x.2 ++ d :: u) := by
  by_cases hc : c = sigil
  · subst hc
    cases t with
    | nil =>
      have hnone : ∀ v : Text, v = d :: u → read? c (c :: v) = none := by
        rintro v rfl
        exact read?_sigil_eq_none_iff.mpr (.inr fun e he => Option.some.inj he ▸ ⟨hquote, hname⟩)
      rw [List.nil_append, hnone _ rfl, read?_sigil_eq_none_iff.mpr (.inr fun e he => by cases he)]
      rfl
    | cons e t =>
      by_cases he : e = '"'
      · subst he
        simp only [List.cons_append, read?, if_pos]
        by_cases hmem : '"' ∈ t
        · obtain ⟨name, rest, rfl, hnot⟩ := List.eq_append_cons_of_mem hmem
          rw [List.append_assoc, List.cons_append, quotedName?_append hnot, quotedName?_append hnot]
          rfl
        · have hboth : '"' ∉ t ++ d :: u := by
            rw [List.mem_append, not_or]
            exact ⟨hmem, hopen (leavesOpen_quote hsigil hmem)⟩
          rw [quotedName?_eq_none hmem, quotedName?_eq_none hboth]
          rfl
      · rw [List.cons_append, read?_of_ne_quote he, read?_of_ne_quote he, ← List.cons_append,
          Text.run?_append_cons hname, Option.map_map, Option.map_map]
        rfl
  · rw [read?_of_ne hc, read?_of_ne hc]
    rfl

/-- **The cut of two texts is made of their cuts**, unless a token begins in the one and ends in the
other. -/
theorem segments_append_of_closed (hopen : LeavesOpen sigil t → '"' ∉ d :: u) :
    segments sigil (t ++ d :: u) = segments sigil t ++ segments sigil (d :: u) := by
  -- along the tokens of the first text
  induction hn : t.length using Nat.strongRecOn generalizing t with
  | ind n ih =>
    cases t with
    | nil => rw [segments_nil, List.nil_append, List.nil_append]
    | cons c t =>
      have hread := read?_append_of_closed hsigil hname hquote hopen
      -- what is left open behind the first piece is left open in the whole text
      have hrest : ∀ s y, segments sigil (c :: t) = s :: segments sigil y → y.length < n →
          segments sigil (y ++ d :: u) = segments sigil y ++ segments sigil (d :: u) := by
        intro s y he hlt
        refine ih _ hlt (fun hy => hopen ?_) rfl
        rw [LeavesOpen, he]
        exact List.infix_cons hy
      cases htoken : read? sigil (c :: t) with
      | none =>
        rw [htoken, Option.map_none] at hread
        have hsegments : segments sigil (c :: t) = .gap c :: segments sigil t := by rw [segments_cons, htoken]
        rw [hsegments, List.cons_append, segments_cons, hread,
          hrest _ t hsegments (by rw [← hn, List.length_cons]; omega), List.cons_append]
      | some x =>
        rw [htoken, Option.map_some] at hread
        rw [List.cons_append, segments_of_read? hread, segments_of_read? htoken,
          hrest _ _ (segments_of_read? htoken) (hn ▸ length_lt_of_read? htoken), List.cons_append]

end

private theorem LeavesOpen.of_read? (hopen : LeavesOpen sigil t) (h : read? sigil t = some (token, rest)) :
    LeavesOpen sigil rest := by
  rw [LeavesOpen, segments_of_read? h, List.infix_cons_iff] at hopen
  rcases hopen with hhere | hlater
  · cases (List.cons_prefix_cons.mp hhere).1
  · exact hlater

/-- The quotes are left open at the start, or later. -/
theorem LeavesOpen.of_read?_eq_none {c : Char} (hopen : LeavesOpen sigil (c :: t))
    (h : read? sigil (c :: t) = none) : (c = sigil ∧ ∃ v, t = '"' :: v) ∨ LeavesOpen sigil t := by
  rw [LeavesOpen, segments_cons, h, List.infix_cons_iff] at hopen
  refine hopen.imp_left fun hhere => ?_
  obtain ⟨hc, more, hnext⟩ := List.cons_prefix_cons.mp hhere
  have hfirst : (segments sigil t).head? = some (.gap '"') := by
    rw [← hnext]
    rfl
  have hhead := head?_of_segments hfirst
  refine ⟨(Segment.gap.inj hc).symm, ?_⟩
  cases t with
  | nil => cases hhead
  | cons d v => exact ⟨v, by rw [Option.some.inj hhead]⟩

/-- A token that begins in the one text and ends in the other is a piece of neither. -/
theorem segments_append_ne (hopen : LeavesOpen sigil t) (hmem : '"' ∈ u) (segs : List Segment) :
    segments sigil (t ++ u) ≠ segments sigil t ++ segs := by
  -- along the tokens of the first text, up to the quotes that are left open
  induction hn : t.length using Nat.strongRecOn generalizing t with
  | ind n ih =>
    cases t with
    | nil =>
      rw [LeavesOpen, segments_nil, List.infix_nil] at hopen
      cases hopen
    | cons c t =>
      intro heq
      rw [List.cons_append, segments_cons, segments_cons] at heq
      cases htoken : read? sigil (c :: t) with
      | none =>
        cases hboth : read? sigil (c :: (t ++ u)) with
        | some y =>
          rw [htoken, hboth] at heq
          cases (List.cons.inj heq).1
        | none =>
          rw [htoken, hboth] at heq
          rcases hopen.of_read?_eq_none htoken with ⟨rfl, v, rfl⟩ | hlater
          · -- the quotes are closed in the second text, so there is a token here
            rcases read?_sigil_eq_none_iff.mp hboth with ⟨w, hw, hnot⟩ | hstop
            · obtain ⟨-, rfl⟩ := List.cons.inj hw
              exact hnot (List.mem_append_right v hmem)
            · exact (hstop '"' rfl).1 rfl
          · exact ih _ (by rw [← hn, List.length_cons]; omega) hlater rfl (List.cons.inj heq).2
      | some x =>
        cases hboth : read? sigil (c :: (t ++ u)) with
        | none =>
          rw [htoken, hboth] at heq
          cases (List.cons.inj heq).1
        | some y =>
          rw [htoken, hboth] at heq
          obtain ⟨hsame, hrest⟩ := List.cons.inj heq
          -- the same token is read, so the second text stands behind what follows it
          have hbehind : y.2 = x.2 ++ u := by
            have hy := (append_eq_of_read? hboth).1
            rw [Segment.token.inj hsame, ← List.cons_append, ← (append_eq_of_read? htoken).1,
              List.append_assoc] at hy
            exact List.append_cancel_left hy
          rw [hbehind] at hrest
          exact ih _ (hn ▸ length_lt_of_read? htoken) (hopen.of_read? htoken) rfl hrest

/-- **Where a token is one piece of the cut**: where nothing behind it continues it, and no quotes that are
left open before it are closed in it or behind it. -/
theorem IsToken.segments_eq_iff (h : IsToken sigil token) (hsigil : sigil ≠ '"') (hname : isNameChar sigil = false)
    {before after : Text} :
    segments sigil (before ++ (token ++ after)) = segments sigil before ++ .token token :: segments sigil after ↔
      (∀ c, after.head? = some c → ¬ Continues sigil token c) ∧
        (LeavesOpen sigil before → '"' ∉ token ++ after) := by
  obtain ⟨u, htoken⟩ : ∃ u, token ++ after = sigil :: u := by
    rcases h with ⟨name, -, rfl⟩ | ⟨name, -, -, rfl⟩ <;> exact ⟨_, rfl⟩
  rw [← h.read?_append_iff]
  constructor
  · intro hcut
    have hclosed : LeavesOpen sigil before → '"' ∉ token ++ after :=
      fun hopen hmem => segments_append_ne hopen hmem _ hcut
    refine ⟨?_, hclosed⟩
    rw [htoken] at hcut hclosed ⊢
    rw [segments_append_of_closed hsigil hname hsigil hclosed, List.append_cancel_left_eq, segments_cons] at hcut
    cases hread : read? sigil (sigil :: u) with
    | none =>
      rw [hread] at hcut
      cases (List.cons.inj hcut).1
    | some x =>
      rw [hread] at hcut
      obtain ⟨x, rest⟩ := x
      obtain rfl : x = token := Segment.token.inj (List.cons.inj hcut).1
      have hrest := (append_eq_of_read? hread).1
      rw [← htoken] at hrest
      rw [List.append_cancel_left hrest]
  · rintro ⟨hread, hclosed⟩
    rw [htoken] at hclosed hread ⊢
    rw [segments_append_of_closed hsigil hname hsigil hclosed, segments_of_read? hread]

end Freestanding.Token
