import Freestanding.Text.Word
import Mathlib.Data.List.Basic

/-!
# What a search in a text finds

A literal is found at a position of a text, and so is whatever a recogniser looks for: the first
occurrence has none before it, and the last one has none behind it.  A search that stops at a character
does not see what follows it.

## Main results

* `Text.occurs_iff`, `Text.cutAt?_eq_some_iff` — where a literal is found.
* `Text.first?_eq_some_iff`, `Text.last?_eq_some_iff` — where a recogniser succeeds first, and last.
* `Text.run?_append` — where a run of characters ends.
-/

namespace Freestanding.Text

/-! ### Texts that are written out -/

/-- The characters of a literal.  It takes long to decode a literal from its bytes, so this equation is
used before something about a text that is written out is decided by evaluation. -/
theorem toList_literal (cs : List Char) : ((String.ofList cs : String) : Text) = cs :=
  String.toList_ofList

/-- What is to hold of all characters of a text is decided by looking at them. -/
theorem forall_mem_of_all {p : Char → Prop} [DecidablePred p] {t : Text}
    (h : t.all fun c => decide (p c)) : ∀ c ∈ t, p c :=
  fun c hc => of_decide_eq_true (List.all_eq_true.mp h c hc)

/-! ### Literals -/

@[simp] theorem stripPrefix?_append (p t : Text) : stripPrefix? (p ++ t) p = some t :=
  stripPrefix?_eq_some_iff.mpr rfl

theorem stripPrefix?_append_cons {p : Text} {c : Char} (hc : c ∉ p) (t u : Text) :
    stripPrefix? (t ++ c :: u) p = (stripPrefix? t p).map (· ++ c :: u) := by
  induction p generalizing t with
  | nil => simp
  | cons d p ih =>
    obtain ⟨hd, hp⟩ := List.ne_and_not_mem_of_not_mem_cons hc
    cases t with
    | nil => simp [hd]
    | cons e t =>
      rw [List.cons_append, stripPrefix?_cons_cons, stripPrefix?_cons_cons]
      split
      · exact ih hp t
      · rfl

theorem startsWith_iff {t p : Text} : t.startsWith p ↔ ∃ rest, t = p ++ rest := by
  rw [startsWith, Option.isSome_iff_exists]
  simp only [stripPrefix?_eq_some_iff]

theorem occurs_iff {p t : Text} :
    occurs p t ↔ ∃ before after, t = before ++ after ∧ after.startsWith p := by
  induction t with
  | nil =>
    constructor
    · intro h
      refine ⟨[], [], rfl, ?_⟩
      rw [List.isEmpty_iff.mp h]
      rfl
    · rintro ⟨before, after, he, hp⟩
      obtain ⟨-, rfl⟩ := List.append_eq_nil_iff.mp he.symm
      cases p with
      | nil => rfl
      | cons c p => cases hp
  | cons c t ih =>
    rw [occurs, Bool.or_eq_true, ih]
    constructor
    · rintro (h | ⟨before, after, rfl, h⟩)
      · exact ⟨[], c :: t, rfl, h⟩
      · exact ⟨c :: before, after, rfl, h⟩
    · rintro ⟨before, after, he, h⟩
      cases before with
      | nil => exact .inl (he ▸ h)
      | cons d before => exact .inr ⟨before, after, (List.cons.inj he).2, h⟩

/-- A text that starts with a literal occurs only where the literal does. -/
theorem occurs_of_startsWith {p s t : Text} (hp : s.startsWith p) (hs : occurs s t) : occurs p t := by
  obtain ⟨before, after, rfl, hafter⟩ := occurs_iff.mp hs
  obtain ⟨rest, rfl⟩ := startsWith_iff.mp hp
  obtain ⟨rest', rfl⟩ := startsWith_iff.mp hafter
  exact occurs_iff.mpr ⟨before, _, rfl, startsWith_iff.mpr ⟨rest ++ rest', List.append_assoc ..⟩⟩

/-- A text is cut at a literal if the literal stands there and begins nowhere before. -/
theorem cutAt?_eq_some_iff {p t before rest : Text} : cutAt? p t = some (before, rest) ↔
    t = before ++ (p ++ rest) ∧
      ∀ x y, before = x ++ y → y ≠ [] → (y ++ (p ++ rest)).startsWith p = false := by
  induction t generalizing before with
  | nil =>
    rw [cutAt?]
    constructor
    · intro h
      split at h
      · next hp =>
        obtain ⟨rfl, rfl⟩ := Prod.mk.inj (Option.some.inj h)
        refine ⟨by simp [List.isEmpty_iff.mp hp], fun x y he hy => ?_⟩
        exact absurd (List.append_eq_nil_iff.mp he.symm).2 hy
      · cases h
    · rintro ⟨he, -⟩
      obtain ⟨rfl, hp⟩ := List.append_eq_nil_iff.mp he.symm
      obtain ⟨rfl, rfl⟩ := List.append_eq_nil_iff.mp hp
      rfl
  | cons c t ih =>
    rw [cutAt?]
    cases hstrip : stripPrefix? (c :: t) p with
    | some behind =>
      dsimp only
      constructor
      · intro h
        obtain ⟨rfl, rfl⟩ := Prod.mk.inj (Option.some.inj h)
        refine ⟨?_, fun x y he hy => ?_⟩
        · rw [List.nil_append]
          exact stripPrefix?_eq_some_iff.mp hstrip
        · exact absurd (List.append_eq_nil_iff.mp he.symm).2 hy
      · rintro ⟨he, hfirst⟩
        cases before with
        | nil =>
          rw [he, List.nil_append, stripPrefix?_append] at hstrip
          rw [Option.some.inj hstrip]
        | cons d before =>
          have := hfirst [] (d :: before) rfl (by simp)
          rw [← he, startsWith, hstrip] at this
          cases this
    | none =>
      dsimp only
      rw [Option.map_eq_some_iff]
      constructor
      · rintro ⟨⟨b, r⟩, hcut, heq⟩
        obtain ⟨rfl, rfl⟩ := Prod.mk.inj heq
        obtain ⟨rfl, hfirst⟩ := ih.mp hcut
        refine ⟨rfl, fun x y he hy => ?_⟩
        cases x with
        | nil =>
          rw [List.nil_append] at he
          rw [← he, startsWith, List.cons_append, hstrip]
          rfl
        | cons d x => exact hfirst x y (List.cons.inj he).2 hy
      · rintro ⟨he, hfirst⟩
        cases before with
        | nil =>
          rw [he, List.nil_append, stripPrefix?_append] at hstrip
          cases hstrip
        | cons d before =>
          obtain ⟨rfl, rfl⟩ := List.cons.inj he
          refine ⟨(before, rest), ih.mpr ⟨rfl, fun x y hxy hy => ?_⟩, rfl⟩
          exact hfirst (c :: x) y (by rw [hxy]; rfl) hy

/-- What follows the first occurrence of a literal may be cut off, as long as the literal stays. -/
theorem cutAt?_append {p t : Text} {c : Char} (hc : c ∉ p) :
    cutAt? p (t ++ [c]) = (cutAt? p t).map fun (before, rest) => (before, rest ++ [c]) := by
  induction t with
  | nil =>
    cases p with
    | nil => rfl
    | cons d p =>
      have hne : c ≠ d := fun he => hc (by simp [he])
      simp [cutAt?, hne]
  | cons d t ih =>
    have hd := stripPrefix?_append_cons hc (d :: t) []
    rw [List.cons_append] at hd
    rw [List.cons_append, cutAt?, cutAt?, hd]
    cases stripPrefix? (d :: t) p with
    | some behind => rfl
    | none =>
      dsimp only [Option.map_none]
      rw [ih, Option.map_map, Option.map_map]
      rfl

/-! ### Recognisers -/

section

variable {α : Type} {f : Text → Option α} {t : Text}

theorem isSome_first?_iff :
    (first? f t).isSome ↔ ∃ before after, t = before ++ after ∧ (f after).isSome := by
  induction t with
  | nil =>
    constructor
    · exact fun h => ⟨[], [], rfl, h⟩
    · rintro ⟨before, after, he, h⟩
      obtain ⟨-, rfl⟩ := List.append_eq_nil_iff.mp he.symm
      exact h
  | cons c t ih =>
    rw [first?]
    split
    · next a ha => exact iff_of_true rfl ⟨[], c :: t, rfl, by rw [ha]; rfl⟩
    · next ha =>
      rw [ih]
      constructor
      · rintro ⟨before, after, rfl, h⟩
        exact ⟨c :: before, after, rfl, h⟩
      · rintro ⟨before, after, he, h⟩
        cases before with
        | nil =>
          rw [List.nil_append] at he
          rw [← he, ha] at h
          cases h
        | cons d before => exact ⟨before, after, (List.cons.inj he).2, h⟩

/-- What a recogniser finds first, it finds at a position before which it finds nothing. -/
theorem first?_eq_some_iff {a : α} :
    first? f t = some a ↔ ∃ before after, t = before ++ after ∧ f after = some a ∧
      ∀ x y, before = x ++ y → y ≠ [] → f (y ++ after) = none := by
  induction t with
  | nil =>
    constructor
    · exact fun h => ⟨[], [], rfl, h, fun x y he hy => absurd (List.append_eq_nil_iff.mp he.symm).2 hy⟩
    · rintro ⟨before, after, he, h, -⟩
      obtain ⟨-, rfl⟩ := List.append_eq_nil_iff.mp he.symm
      exact h
  | cons c t ih =>
    rw [first?]
    split
    · next b hb =>
      constructor
      · intro h
        exact ⟨[], c :: t, rfl, hb.trans h, fun x y he hy => absurd (List.append_eq_nil_iff.mp he.symm).2 hy⟩
      · rintro ⟨before, after, he, h, hbefore⟩
        cases before with
        | nil => exact hb.symm.trans ((congrArg f he).trans h)
        | cons d before =>
          have hnone := hbefore [] (d :: before) rfl (by simp)
          rw [← he, hb] at hnone
          cases hnone
    · next hnone =>
      rw [ih]
      constructor
      · rintro ⟨before, after, rfl, h, hbefore⟩
        refine ⟨c :: before, after, rfl, h, fun x y he hy => ?_⟩
        cases x with
        | nil =>
          rw [List.nil_append] at he
          rw [← he]
          exact hnone
        | cons d x => exact hbefore x y (List.cons.inj he).2 hy
      · rintro ⟨before, after, he, h, hbefore⟩
        cases before with
        | nil =>
          rw [List.nil_append] at he
          rw [he, h] at hnone
          cases hnone
        | cons d before =>
          refine ⟨before, after, (List.cons.inj he).2, h, fun x y hxy hy => ?_⟩
          exact hbefore (d :: x) y (by rw [hxy]; rfl) hy

theorem last?_eq_none_iff :
    last? f t = none ↔ ∀ before after, t = before ++ after → f after = none := by
  induction t with
  | nil =>
    rw [last?]
    constructor
    · intro h before after he
      rw [(List.append_eq_nil_iff.mp he.symm).2]
      exact h
    · exact fun h => h [] [] rfl
  | cons c t ih =>
    rw [last?]
    constructor
    · intro h before after he
      split at h
      · cases h
      · next hrest =>
        cases before with
        | nil =>
          rw [List.nil_append] at he
          exact he ▸ h
        | cons d before => exact ih.mp hrest before after (List.cons.inj he).2
    · intro h
      have hrest : last? f t = none := ih.mpr fun before after he => h (c :: before) after (by rw [he]; rfl)
      rw [hrest]
      exact h [] (c :: t) rfl

/-- What a recogniser finds last, it finds at a position behind which it finds nothing. -/
theorem last?_eq_some_iff {a : α} :
    last? f t = some a ↔ ∃ before after, t = before ++ after ∧ f after = some a ∧
      ∀ x y, after = x ++ y → x ≠ [] → f y = none := by
  induction t with
  | nil =>
    rw [last?]
    constructor
    · exact fun h => ⟨[], [], rfl, h, fun x y he hx => absurd (List.append_eq_nil_iff.mp he.symm).1 hx⟩
    · rintro ⟨before, after, he, h, -⟩
      rw [(List.append_eq_nil_iff.mp he.symm).2] at h
      exact h
  | cons c t ih =>
    rw [last?]
    cases hrest : last? f t with
    | some b =>
      dsimp only
      rw [hrest] at ih
      rw [ih]
      constructor
      · rintro ⟨before, after, rfl, h, hlast⟩
        exact ⟨c :: before, after, rfl, h, hlast⟩
      · rintro ⟨before, after, he, h, hlast⟩
        cases before with
        | nil =>
          -- something is found behind the first position
          have hnone : last? f t = none := last?_eq_none_iff.mpr fun x y ht =>
            hlast (c :: x) y (by rw [← List.nil_append after, ← he, ht]; rfl) (by simp)
          rw [hrest] at hnone
          cases hnone
        | cons d before => exact ⟨before, after, (List.cons.inj he).2, h, hlast⟩
    | none =>
      dsimp only
      constructor
      · intro h
        refine ⟨[], c :: t, rfl, h, fun x y he hx => ?_⟩
        obtain ⟨d, x, rfl⟩ := List.exists_cons_of_ne_nil hx
        exact last?_eq_none_iff.mp hrest x y (List.cons.inj he).2
      · rintro ⟨before, after, he, h, -⟩
        cases before with
        | nil => exact he ▸ h
        | cons d before =>
          rw [last?_eq_none_iff.mp hrest before after (List.cons.inj he).2] at h
          cases h

end

/-! ### Runs of characters -/

theorem takeWhile_append_cons {c : Char} {s after : Text} (hs : c ∉ s) :
    (s ++ c :: after).takeWhile (· != c) = s := by
  have hkeep : ∀ d ∈ s, (d != c) = true := fun d hd => bne_iff_ne.mpr fun he => hs (he ▸ hd)
  rw [List.takeWhile_append_of_pos hkeep]
  simp

/-- What precedes the first occurrence of a character that does occur. -/
theorem takeWhile_eq_some_iff {c : Char} {t s : Text} :
    (if c ∈ t then some (t.takeWhile (· != c)) else none) = some s ↔
      ∃ after, t = s ++ c :: after ∧ c ∉ s := by
  constructor
  · intro h
    split at h
    · next hmem =>
      obtain ⟨s', after, rfl, hs⟩ := List.eq_append_cons_of_mem hmem
      rw [takeWhile_append_cons hs] at h
      exact ⟨after, by rw [Option.some.inj h], Option.some.inj h ▸ hs⟩
    · cases h
  · rintro ⟨after, rfl, hs⟩
    rw [if_pos (by simp), takeWhile_append_cons hs]

/-- A run ends where a character of another kind follows. -/
theorem run?_append {p : Char → Bool} {run rest : Text} (hne : run ≠ []) (hrun : ∀ c ∈ run, p c)
    (hrest : ∀ c, rest.head? = some c → p c = false) : run? p (run ++ rest) = some (run, rest) := by
  have htake : rest.takeWhile p = [] := by
    cases rest with
    | nil => rfl
    | cons c rest => simp [hrest c rfl]
  have hdrop : rest.dropWhile p = rest := by
    cases rest with
    | nil => rfl
    | cons c rest => simp [hrest c rfl]
  obtain ⟨c, run, rfl⟩ := List.exists_cons_of_ne_nil hne
  rw [run?, List.takeWhile_append_of_pos hrun, List.dropWhile_append_of_pos hrun, htake, hdrop,
    List.append_nil]

theorem run?_append_cons {p : Char → Bool} {c : Char} (hc : p c = false) (t u : Text) :
    run? p (t ++ c :: u) = (run? p t).map fun x => (x.1, x.2 ++ c :: u) := by
  have hboth : (t ++ c :: u).takeWhile p = t.takeWhile p ∧
      (t ++ c :: u).dropWhile p = t.dropWhile p ++ c :: u := by
    induction t with
    | nil => simp [hc]
    | cons d t ih =>
      rw [List.cons_append, List.takeWhile_cons, List.dropWhile_cons, List.takeWhile_cons,
        List.dropWhile_cons, ih.1, ih.2]
      split <;> exact ⟨rfl, rfl⟩
  rw [run?, run?, hboth.1, hboth.2]
  split <;> rfl

theorem atWordEnd_append_cons {c : Char} (hc : isWordChar c = false) (t u : Text) :
    atWordEnd (t ++ c :: u) = atWordEnd t := by
  cases t with
  | nil => simp [atWordEnd, hc]
  | cons d t => rfl

end Freestanding.Text
