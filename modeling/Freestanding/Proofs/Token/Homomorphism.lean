import Freestanding.Proofs.OrderedMap
import Freestanding.Proofs.Token.Spelling
import Mathlib.Data.List.Chain

/-!
# Renaming symbol by symbol

A text is a row of symbols with pieces of text between them.  Renaming puts a new symbol in the place of each
one and leaves the pieces as they are.  If the new row is cut into symbols again, the cuts are at the same
places, unless a new symbol grows together with its surroundings: a name without quotes with a name character
behind it, or a quote that was open with one that comes in.  So the symbols of the new text are the new
symbols of the old text, one renaming after another is a renaming, and a renaming that keeps symbols apart
can be taken back.

## Main definitions

* `Token.between` — the pieces of text between the symbols.
* `Token.Separated` — texts whose symbols stand apart from their surroundings.
* `Renaming.WellSpelled` — renamings to symbols.
* `Renaming.after`, `Renaming.inverse` — one renaming after another, and a renaming backwards.
* `Renaming.Homomorphism` — a renaming works symbol by symbol.

## Main results

* `Token.segments_flatMap_text` — segments that stand apart are found again.
* `Text.segments_rename` — **the cut of a renamed text.**
* `Renaming.homomorphism_of_separated` — **renaming works symbol by symbol.**
-/

namespace Freestanding

open Token

/-! ### Pieces between symbols -/

namespace Token

/-- The pieces of text before, between and behind the tokens of a cut. -/
def pieces : List Segment → List Text
  | [] => [[]]
  | .gap c :: segs => (pieces segs).modifyHead (c :: ·)
  | .token _ :: segs => [] :: pieces segs

@[simp] theorem pieces_nil : pieces [] = [[]] := rfl

@[simp] theorem pieces_gap (c : Char) (segs : List Segment) :
    pieces (.gap c :: segs) = (pieces segs).modifyHead (c :: ·) := rfl

@[simp] theorem pieces_token (token : Text) (segs : List Segment) :
    pieces (.token token :: segs) = [] :: pieces segs := rfl

/-- The pieces of text before, between and behind the tokens of a text. -/
def between (sigil : Char) (t : Text) : List Text :=
  pieces (segments sigil t)

private theorem exists_pieces_eq (segs : List Segment) : ∃ piece rest, pieces segs = piece :: rest := by
  cases segs with
  | nil => exact ⟨[], [], pieces_nil⟩
  | cons seg segs =>
    cases seg with
    | token t => exact ⟨[], pieces segs, pieces_token t segs⟩
    | gap c =>
      obtain ⟨piece, rest, h⟩ := exists_pieces_eq segs
      exact ⟨c :: piece, rest, by rw [pieces_gap, h, List.modifyHead_cons]⟩

/-- Two characters that follow each other outside the tokens follow each other in a piece. -/
theorem exists_infix_pieces (a b : Char) (before after : List Segment) :
    ∃ piece ∈ pieces (before ++ .gap a :: .gap b :: after), [a, b] <:+: piece := by
  induction before with
  | nil =>
    obtain ⟨piece, rest, h⟩ := exists_pieces_eq after
    refine ⟨a :: b :: piece, ?_, (List.prefix_append [a, b] piece).isInfix⟩
    rw [List.nil_append, pieces_gap, pieces_gap, h, List.modifyHead_cons, List.modifyHead_cons]
    exact List.mem_cons_self
  | cons seg before ih =>
    obtain ⟨piece, hmem, hpart⟩ := ih
    cases seg with
    | token t => exact ⟨piece, List.mem_cons_of_mem _ hmem, hpart⟩
    | gap c =>
      obtain ⟨first, rest, h⟩ := exists_pieces_eq (before ++ .gap a :: .gap b :: after)
      rw [h] at hmem
      rw [List.cons_append, pieces_gap, h, List.modifyHead_cons]
      rcases List.mem_cons.mp hmem with rfl | hmem
      · exact ⟨c :: piece, List.mem_cons_self, List.infix_cons hpart⟩
      · exact ⟨piece, List.mem_cons_of_mem _ hmem, hpart⟩

/-! ### Symbols that stand apart -/

/-- The symbols of the text stand apart from their surroundings. -/
structure Separated (t : Text) : Prop where
  /-- No quote is opened behind a sigil between the symbols. -/
  closed : ∀ piece ∈ between '@' t, ¬ ['@', '"'] <:+: piece
  /-- No symbol in quotes has a name character right behind it. -/
  apart : ∀ before name c after,
    segments '@' t = before ++ .token ('@' :: '"' :: name) :: .gap c :: after → isNameChar c = false

/-- Two segments that can stand next to each other, whatever the symbols are. -/
def Fits : Segment → Segment → Prop
  | .gap c, .gap d => c = '@' → d ≠ '"' ∧ isNameChar d = false
  | .token _, .gap d => isNameChar d = false
  | _, .token _ => True

instance : DecidableRel Fits
  | .gap c, .gap d => inferInstanceAs (Decidable (c = '@' → d ≠ '"' ∧ isNameChar d = false))
  | .token _, .gap d => inferInstanceAs (Decidable (isNameChar d = false))
  | .gap _, .token _ | .token _, .token _ => isTrue trivial

/-- The segment is a character or a symbol. -/
def Segment.IsSpelled : Segment → Prop
  | .gap _ => True
  | .token t => ∃ name, Spells t name

theorem Spells.head?_eq {token name : Text} (h : Spells token name) : token.head? = some '@' := by
  cases h <;> rfl

/-- A text goes on with the first character outside the symbols, or with a sigil. -/
theorem head?_flatMap_text {segs : List Segment} (hsegs : ∀ s ∈ segs, s.IsSpelled) {d : Char}
    (hd : (segs.flatMap Segment.text).head? = some d) : segs.head? = some (.gap d) ∨ d = '@' := by
  cases segs with
  | nil => cases hd
  | cons seg segs =>
    cases seg with
    | gap c => exact .inl (congrArg (fun x => x.map Segment.gap) hd)
    | token t =>
      obtain ⟨name, hspells⟩ := hsegs _ List.mem_cons_self
      rw [List.flatMap_cons, Segment.text, List.head?_append, hspells.head?_eq] at hd
      exact .inr (Option.some.inj hd).symm

/-- **Segments that stand apart are found again in their text.** -/
theorem segments_flatMap_text {segs : List Segment} (hsegs : ∀ s ∈ segs, s.IsSpelled) (hfits : segs.IsChain Fits) :
    segments '@' (segs.flatMap Segment.text) = segs := by
  induction segs with
  | nil => rfl
  | cons seg segs ih =>
    obtain ⟨hnext, hchain⟩ := List.isChain_cons.mp hfits
    obtain ⟨hseg, hrest⟩ := List.forall_mem_cons.mp hsegs
    rw [List.flatMap_cons]
    cases seg with
    | gap c =>
      have hnone : read? '@' (c :: segs.flatMap Segment.text) = none := by
        by_cases hc : c = '@'
        · subst hc
          refine read?_sigil_eq_none_iff.mpr (.inr fun d hd => ?_)
          rcases head?_flatMap_text hrest hd with hhead | rfl
          · exact hnext _ hhead rfl
          · exact ⟨by decide, by decide⟩
        · exact read?_of_ne hc _
      rw [Segment.text, List.singleton_append, segments_cons, hnone, ih hrest hchain]
    | token t =>
      obtain ⟨name, hspells⟩ := hseg
      have hread : read? '@' (t ++ segs.flatMap Segment.text) = some (t, segs.flatMap Segment.text) := by
        refine hspells.read?_append fun d hd => ?_
        rcases head?_flatMap_text hrest hd with hhead | rfl
        · exact hnext _ hhead
        · decide
      rw [Segment.text, segments_of_read? hread, ih hrest hchain]

/-! ### The cut of a text -/

/-- A run stops at a character of another kind. -/
theorem head?_of_run? {p : Char → Bool} {t run rest : Text} (h : Text.run? p t = some (run, rest)) :
    ∀ c, rest.head? = some c → p c = false := by
  intro c hc
  unfold Text.run? at h
  split at h
  · cases h
  · obtain ⟨-, rfl⟩ := Prod.mk.inj (Option.some.inj h)
    have hstop := List.head?_dropWhile_not p t
    rwa [hc] at hstop

/-- What is read as a symbol stands in quotes, or no name character follows. -/
theorem quoted_or_of_read? {t token rest : Text} (h : read? '@' t = some (token, rest)) :
    (∃ name, token = '@' :: '"' :: name) ∨ ∀ c, rest.head? = some c → isNameChar c = false := by
  rw [read?.eq_def] at h
  split at h
  · cases h
  · split at h
    · next hc =>
      subst hc
      split at h
      · obtain ⟨x, -, he⟩ := Option.map_eq_some_iff.mp h
        exact .inl ⟨_, (Prod.mk.inj he).1.symm⟩
      · obtain ⟨x, hrun, he⟩ := Option.map_eq_some_iff.mp h
        obtain ⟨-, rfl⟩ := Prod.mk.inj he
        exact .inr (head?_of_run? hrun)
    · cases h

/-- The first segment of a text, if it is a character, is its first character. -/
theorem head?_of_segments {sigil : Char} {t : Text} {d : Char} (h : (segments sigil t).head? = some (.gap d)) :
    t.head? = some d := by
  cases t with
  | nil => cases h
  | cons c t =>
    rw [segments_cons] at h
    split at h
    · cases h
    · exact congrArg some (Segment.gap.inj (Option.some.inj h))

/-- Two segments that follow each other in some text. -/
def Meets : Segment → Segment → Prop
  | .gap c, .gap d => c = '@' → isNameChar d = false
  | .token t, .gap d => (∃ name, t = '@' :: '"' :: name) ∨ isNameChar d = false
  | _, .token _ => True

/-- **The cut of a text**: its symbols are symbols, and none stops before its end. -/
theorem segments_spec (t : Text) : (∀ s ∈ segments '@' t, s.IsSpelled) ∧ (segments '@' t).IsChain Meets := by
  -- along the segments of the text
  induction hn : t.length using Nat.strongRecOn generalizing t with
  | ind n ih =>
    cases t with
    | nil => exact ⟨by simp, .nil⟩
    | cons c t =>
      rw [segments_cons]
      cases hread : read? '@' (c :: t) with
      | none =>
        obtain ⟨hspelled, hmeets⟩ := ih t.length (by rw [← hn, List.length_cons]; omega) t rfl
        refine ⟨List.forall_mem_cons.mpr ⟨trivial, hspelled⟩, List.isChain_cons.mpr ⟨?_, hmeets⟩⟩
        intro next hnext
        cases next with
        | token u => trivial
        | gap d =>
          rintro rfl
          have hd := head?_of_segments hnext
          rcases read?_sigil_eq_none_iff.mp hread with ⟨u, rfl, -⟩ | hstop
          · rw [← Option.some.inj hd]
            decide
          · exact (hstop d hd).2
      | some x =>
        obtain ⟨token, rest⟩ := x
        obtain ⟨he, hspells⟩ := spells_of_read? hread
        have hlt : rest.length < n := by
          have hsum := congrArg List.length he
          have hpos := List.length_pos_iff.mpr (append_eq_of_read? hread).2
          rw [List.length_append] at hsum
          omega
        obtain ⟨hspelled, hmeets⟩ := ih rest.length hlt rest rfl
        refine ⟨List.forall_mem_cons.mpr ⟨hspells, hspelled⟩, List.isChain_cons.mpr ⟨?_, hmeets⟩⟩
        intro next hnext
        cases next with
        | token u => trivial
        | gap d =>
          have hd := head?_of_segments hnext
          exact (quoted_or_of_read? hread).imp_right fun hstop => hstop d hd

/-- If the symbols of a text stand apart, so do those that are put in their places. -/
theorem Separated.isChain_fits {t : Text} (h : Separated t) : (segments '@' t).IsChain Fits := by
  rw [List.isChain_iff_forall_rel_of_append_cons_cons]
  intro a b before after he
  have hmeets := List.isChain_iff_forall_rel_of_append_cons_cons.mp (segments_spec t).2 he
  cases b with
  | token u => cases a <;> trivial
  | gap d =>
    cases a with
    | gap c =>
      rintro rfl
      refine ⟨?_, hmeets rfl⟩
      rintro rfl
      obtain ⟨piece, hmem, hpart⟩ := exists_infix_pieces '@' '"' before after
      exact h.closed piece (by rw [between, he]; exact hmem) hpart
    | token u =>
      rcases hmeets with ⟨name, rfl⟩ | hd
      · exact h.apart before name d after he
      · exact hd

end Token

/-! ### Renamings -/

namespace Renaming

/-- Symbols are renamed to symbols. -/
def WellSpelled (r : Renaming) : Prop :=
  ∀ old new : Text, r[old]? = some new → ∃ name, Spells new name

/-- No two symbols get the same new one. -/
def Injective (r : Renaming) : Prop :=
  ∀ old old' new : Text, r[old]? = some new → r[old']? = some new → old = old'

/-- One renaming after another, as one renaming. -/
def after (r₂ r₁ : Renaming) : Renaming :=
  r₂ ∪ r₁.map fun _ new => r₂.apply new

/-- The renaming backwards. -/
def inverse (r : Renaming) : Renaming :=
  (r.toList.map Prod.swap).foldl (fun m x => m.insert x.1 x.2) ∅

/-- A segment with the new symbol in the place of the old one. -/
def onSegment (r : Renaming) : Segment → Segment
  | .gap c => .gap c
  | .token t => .token (r.apply t)

variable {r : Renaming}

theorem apply_of_getElem? {old new : Text} (h : r[old]? = some new) : r.apply old = new := by
  rcases r.apply_cases old with ⟨hnone, -⟩ | hsome
  · rw [hnone] at h
    cases h
  · exact Option.some.inj (hsome.symm.trans h)

theorem apply_of_getElem?_eq_none {old : Text} (h : r[old]? = none) : r.apply old = old := by
  rcases r.apply_cases old with ⟨-, hsame⟩ | hsome
  · exact hsame
  · rw [hsome] at h
    cases h

/-- **The two renamings are applied one after the other.** -/
theorem apply_after (r₂ r₁ : Renaming) (token : Text) : (r₂.after r₁).apply token = r₂.apply (r₁.apply token) := by
  have hget : (r₂.after r₁)[token]? = ((r₁[token]?).map r₂.apply).or r₂[token]? := by
    rw [after, Std.ExtTreeMap.getElem?_union, Std.ExtTreeMap.getElem?_map]
  cases hfirst : r₁[token]? with
  | some new =>
    rw [hfirst, Option.map_some, Option.some_or] at hget
    rw [apply_of_getElem? hget, apply_of_getElem? hfirst]
  | none =>
    rw [hfirst, Option.map_none, Option.none_or] at hget
    rw [apply_of_getElem?_eq_none hfirst]
    cases hsecond : r₂[token]? with
    | some new => rw [apply_of_getElem? (hget.trans hsecond), apply_of_getElem? hsecond]
    | none => rw [apply_of_getElem?_eq_none (hget.trans hsecond), apply_of_getElem?_eq_none hsecond]

/-- A new symbol leads back to the old one. -/
theorem getElem?_inverse (hr : r.Injective) {old new : Text} (h : r[old]? = some new) :
    r.inverse[new]? = some old := by
  refine Std.ExtTreeMap.getElem?_foldl_insert_of_mem ?_ ?_
  · rw [List.pairwise_map]
    -- two entries with one new symbol would have one old symbol
    refine Std.ExtTreeMap.distinct_keys_toList.imp_of_mem fun {x y} hx hy hkeys he => hkeys ?_
    have hx := Std.ExtTreeMap.mem_toList_iff_getElem?_eq_some.mp hx
    have hy := Std.ExtTreeMap.mem_toList_iff_getElem?_eq_some.mp hy
    have hnew : x.2 = y.2 := Std.LawfulEqCmp.eq_of_compare he
    rw [hr x.1 y.1 y.2 (hnew ▸ hx) hy]
    exact Std.ReflCmp.compare_self
  · exact List.mem_map.mpr ⟨(old, new), Std.ExtTreeMap.mem_toList_iff_getElem?_eq_some.mpr h, rfl⟩

/-- What is no new symbol is not led back. -/
theorem getElem?_inverse_eq_none {token : Text} (h : token ∉ r.values) : r.inverse[token]? = none := by
  rw [← Option.not_isSome_iff_eq_none]
  intro hsome
  obtain ⟨old, hold⟩ := Option.isSome_iff_exists.mp hsome
  rcases Std.ExtTreeMap.getElem?_foldl_insert_cases Prod.fst Prod.snd hold with hold | ⟨x, hx, hnew, -⟩
  · exact absurd hold (by simp)
  · obtain ⟨y, hy, rfl⟩ := List.mem_map.mp hx
    refine h (hnew ▸ Std.ExtTreeMap.mem_values_of_getElem? (a := y.1) ?_)
    exact Std.ExtTreeMap.mem_toList_iff_getElem?_eq_some.mp hy

theorem WellSpelled.isSpelled (hr : r.WellSpelled) {s : Segment} (hs : s.IsSpelled) : (r.onSegment s).IsSpelled := by
  cases s with
  | gap c => trivial
  | token t =>
    rcases r.apply_cases t with ⟨-, he⟩ | he
    · show ∃ name, Spells (r.apply t) name
      rw [he]
      exact hs
    · exact hr _ _ he

private theorem fits_onSegment {a b : Segment} (h : Fits a b) : Fits (r.onSegment a) (r.onSegment b) := by
  cases a <;> cases b <;> exact h

private theorem text_onSegment (r : Renaming) (s : Segment) : (r.onSegment s).text = r.segment s := by
  cases s <;> rfl

end Renaming

/-- **The cut of a renamed text** is the old one with new symbols. -/
theorem Text.segments_rename {r : Renaming} (hr : r.WellSpelled) {t : Text} (ht : Separated t) :
    segments '@' (t.rename r) = (segments '@' t).map r.onSegment := by
  have htext : t.rename r = ((segments '@' t).map r.onSegment).flatMap Segment.text := by
    rw [Text.rename, List.flatMap_map]
    exact List.flatMap_congr fun s _ => (r.text_onSegment s).symm
  rw [htext]
  refine segments_flatMap_text ?_ ?_
  · rw [List.forall_mem_map]
    exact fun s hs => hr.isSpelled ((segments_spec t).1 s hs)
  · rw [List.isChain_map]
    exact ht.isChain_fits.imp fun _ _ => Renaming.fits_onSegment

private theorem Token.pieces_map_onSegment (r : Renaming) (segs : List Segment) :
    pieces (segs.map r.onSegment) = pieces segs := by
  induction segs with
  | nil => rfl
  | cons seg segs ih =>
    cases seg with
    | gap c =>
      show (pieces (segs.map r.onSegment)).modifyHead _ = _
      rw [ih]
      rfl
    | token t => exact congrArg ([] :: ·) ih

namespace Renaming

/-- The renaming works on the text symbol by symbol. -/
structure Homomorphism (r : Renaming) (t : Text) : Prop where
  /-- What stands between the symbols is unchanged. -/
  between_eq : between '@' (t.rename r) = between '@' t
  /-- The symbols of the new text are the new symbols of the old text. -/
  globals_eq : globals (t.rename r) = (globals t).map r.apply
  /-- They come in all at once: a symbol that comes in is not renamed in its turn. -/
  at_once : ∀ (i : Nat) (old new : Text), (globals t)[i]? = some old → r[old]? = some new →
    (globals (t.rename r))[i]? = some new
  /-- A second renaming makes one renaming with the first. -/
  rename_rename : ∀ r₂ : Renaming, (t.rename r).rename r₂ = t.rename (r₂.after r)
  /-- A renaming is taken back by its inverse, if it keeps symbols apart from each other and from those that
  it leaves alone. -/
  rename_inverse : r.Injective → (∀ token ∈ globals t, token ∉ r → token ∉ r.values) →
    (t.rename r).rename r.inverse = t

/-- **Renaming works symbol by symbol**, if the symbols stand apart from their surroundings. -/
theorem homomorphism_of_separated {r : Renaming} (hr : r.WellSpelled) {t : Text} (ht : Separated t) :
    r.Homomorphism t := by
  have hsegments := Text.segments_rename hr ht
  have hglobals : globals (t.rename r) = (globals t).map r.apply := by
    rw [globals, all, hsegments, globals, all, List.filterMap_map, List.map_filterMap]
    refine List.filterMap_congr fun s _ => ?_
    cases s <;> rfl
  have htwice : ∀ r₂ : Renaming,
      (t.rename r).rename r₂ = (segments '@' t).flatMap fun s => r₂.segment (r.onSegment s) := by
    intro r₂
    rw [Text.rename, hsegments, List.flatMap_map]
  exact {
    between_eq := by rw [between, hsegments, pieces_map_onSegment, between]
    globals_eq := hglobals
    at_once := by
      intro i old new hold hnew
      rw [hglobals, List.getElem?_map, hold, Option.map_some, apply_of_getElem? hnew]
    rename_rename := by
      intro r₂
      rw [htwice, Text.rename]
      refine List.flatMap_congr fun s _ => ?_
      cases s with
      | gap c => rfl
      | token u => exact (apply_after r₂ r u).symm
    rename_inverse := by
      intro hinj hleft
      have hback : ∀ s ∈ segments '@' t, r.inverse.segment (r.onSegment s) = s.text := by
        intro s hs
        cases s with
        | gap c => rfl
        | token u =>
          show r.inverse.apply (r.apply u) = u
          cases hnew : r[u]? with
          | some new => rw [apply_of_getElem? hnew, apply_of_getElem? (getElem?_inverse hinj hnew)]
          | none =>
            have hu : u ∉ r := by
              rw [Std.ExtTreeMap.mem_iff_isSome_getElem?, hnew]
              simp
            have hmem : u ∈ globals t := List.mem_filterMap.mpr ⟨.token u, hs, rfl⟩
            rw [apply_of_getElem?_eq_none hnew,
              apply_of_getElem?_eq_none (getElem?_inverse_eq_none (hleft u hmem hu))]
      rw [htwice, List.flatMap_congr hback, flatten_segments] }

/-- Three symbols change places, one of them in quotes. -/
def rotation : Renaming :=
  (((∅ : Renaming).insert "@f" "@\"a b\"").insert "@\"a b\"" "@f1").insert "@f1" "@f"

/-- A text with these symbols and another one, which has a sigil before it. -/
def rotatedText : Text :=
  "call @f(@\"a b\", @f1) @@x"

/-- The symbols change places at once, and go back to their places. -/
theorem homomorphism_of_separated_rotation : rotation.WellSpelled ∧ Separated rotatedText ∧
    rotation.Homomorphism rotatedText ∧
    rotatedText.rename rotation = "call @\"a b\"(@f1, @f) @@x".toList ∧
    (rotatedText.rename rotation).rename rotation.inverse = rotatedText := by
  obtain ⟨hread, hinj, hclosed, hfits, hleft, hrename⟩ :
      (∀ x ∈ rotation.toList, read? '@' x.2 = some (x.2, [])) ∧
      (∀ x ∈ rotation.toList, ∀ y ∈ rotation.toList, x.2 = y.2 → x.1 = y.1) ∧
      (∀ piece ∈ between '@' rotatedText, ¬ ['@', '"'] <:+: piece) ∧
      (segments '@' rotatedText).IsChain Fits ∧
      (∀ token ∈ globals rotatedText, token ∉ rotation → token ∉ rotation.values) ∧
      rotatedText.rename rotation = "call @\"a b\"(@f1, @f) @@x".toList := by
    decide +kernel
  have hspelled : rotation.WellSpelled := fun old new hnew =>
    (spells_of_read? (hread (old, new) (Std.ExtTreeMap.mem_toList_iff_getElem?_eq_some.mpr hnew))).2
  have hinjective : rotation.Injective := fun old old' new h h' =>
    hinj (old, new) (Std.ExtTreeMap.mem_toList_iff_getElem?_eq_some.mpr h) (old', new)
      (Std.ExtTreeMap.mem_toList_iff_getElem?_eq_some.mpr h') rfl
  have hseparated : Separated rotatedText := by
    refine ⟨hclosed, fun before name c after he => ?_⟩
    exact List.isChain_iff_forall_rel_of_append_cons_cons.mp hfits he
  have hhom := homomorphism_of_separated hspelled hseparated
  exact ⟨hspelled, hseparated, hhom, hrename, hhom.rename_inverse hinjective hleft⟩

end Renaming

end Freestanding
