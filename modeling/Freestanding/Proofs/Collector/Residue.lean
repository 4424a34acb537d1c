import Freestanding.Collector.Residue
import Freestanding.Proofs.Text.Lines
import Freestanding.Proofs.Text.Search

/-!
# Where residue shows

A text is searched for residue line by line, and in each line up to its comment.  This module says the
same of positions: residue shows in a text if it begins at some position that no comment hides.  What
begins at a position can be told from the characters up to the end of a word, so texts may be cut, joined
and changed elsewhere without making residue appear or go away.

## Main definitions

* `Residue.marked`, `Residue.begins` — residue begins at the start of a piece of code.
* `Residue.liveAfter`, `Residue.visible` — what a comment hides.
* `Residue.ShowsFrom`, `Residue.Shows` — residue shows at some position of a text.
* `Residue.Tail` — what can follow a word without taking part in it.

## Main results

* `Residue.begins_append_tail` — a tail does not take part in residue that begins before it.
* `Residue.isSelfContained_iff` — **a text is self-contained if no residue shows in it.**
* `Residue.isSelfContained_append_newline` — line breaks separate.
-/

namespace Freestanding

namespace Residue

/-! ### Positions -/

/-- How all residue but addresses shows. -/
def markers : List Text :=
  callMarkers ++ frameMarkers

/-- A piece of code begins with a name that is residue. -/
def marked (code : Text) : Bool :=
  markers.any code.startsWith

/-- Residue begins at the start of a piece of code. -/
def begins (code : Text) : Bool :=
  marked code || (Line.castLiteralAt? code).isSome

/-- The code of a text up to a comment or to the end of the line. -/
def visible (t : Text) : Text :=
  t.takeWhile fun c => c != ';' && c != '\n'

/-- Whether code goes on after a text, or is hidden by a comment. -/
def liveAfter (live : Bool) (t : Text) : Bool :=
  t.foldl (fun live c => c == '\n' || live && c != ';') live

/-- Residue begins at some position that no comment hides, where the text goes on from code or from a
comment. -/
def ShowsFrom (live : Bool) (t : Text) : Prop :=
  ∃ before after, t = before ++ after ∧ liveAfter live before ∧ begins (visible after)

/-- Residue shows at some position that no comment hides. -/
def Shows (t : Text) : Prop :=
  ShowsFrom true t

theorem isSome_ofCode?_iff {code : Text} :
    (ofCode? code).isSome ↔ ∃ before after, code = before ++ after ∧ begins after := by
  have hfind : ∀ ms : List Text, (ms.find? (Text.occurs · code)).isSome ↔
      ∃ before after, code = before ++ after ∧ ms.any after.startsWith := by
    intro ms
    simp only [List.find?_isSome, List.any_eq_true, Text.occurs_iff]
    constructor
    · rintro ⟨m, hm, before, after, he, h⟩
      exact ⟨before, after, he, m, hm, h⟩
    · rintro ⟨before, after, he, m, hm, h⟩
      exact ⟨m, hm, before, after, he, h⟩
  -- the kinds are tried one after the other, so something is found if one of them is
  have hsplit : (ofCode? code).isSome ↔ (callMarkers.find? (Text.occurs · code)).isSome ∨
      (frameMarkers.find? (Text.occurs · code)).isSome ∨ (Line.castLiteral? code).isSome := by
    rw [ofCode?]
    cases callMarkers.find? (Text.occurs · code) with
    | some m => simp
    | none =>
      cases frameMarkers.find? (Text.occurs · code) with
      | some m => simp
      | none =>
        by_cases h : (Line.castLiteral? code).isSome
        · simp [h]
        · simp [h]
  rw [hsplit, hfind, hfind, Line.castLiteral?, Text.isSome_first?_iff]
  simp only [begins, marked, markers, List.any_append, Bool.or_eq_true, or_assoc]
  constructor
  · rintro (⟨b, a, he, h⟩ | ⟨b, a, he, h⟩ | ⟨b, a, he, h⟩)
    · exact ⟨b, a, he, .inl h⟩
    · exact ⟨b, a, he, .inr (.inl h)⟩
    · exact ⟨b, a, he, .inr (.inr h)⟩
  · rintro ⟨b, a, he, h | h | h⟩
    · exact .inl ⟨b, a, he, h⟩
    · exact .inr (.inl ⟨b, a, he, h⟩)
    · exact .inr (.inr ⟨b, a, he, h⟩)

/-! ### Tails -/

/-- What can follow a word without taking part in it: nothing, a carriage return at the end, or anything
after a character that neither words nor numbers, blanks or brackets consist of. -/
inductive Tail : Text → Prop
  /-- Nothing follows. -/
  | nil : Tail []
  /-- The line ends with a carriage return. -/
  | carriageReturn : Tail ['\r']
  /-- A character of its own follows. -/
  | stop {c : Char} (rest : Text) (h : c ∈ ['@', ',', '=', '"', ';']) : Tail (c :: rest)

/-- A recogniser does not look into tails. -/
def Stable (f : Text → Bool) : Prop :=
  ∀ (t : Text) {tail : Text}, Tail tail → f (t ++ tail) = f t

theorem Tail.cases_head {tail : Text} (h : Tail tail) :
    tail = [] ∨ ∃ c rest, tail = c :: rest ∧ c ∈ ['\r', '@', ',', '=', '"', ';'] := by
  cases h with
  | nil => exact .inl rfl
  | carriageReturn => exact .inr ⟨_, _, rfl, by decide⟩
  | stop rest hc => exact .inr ⟨_, rest, rfl, List.mem_cons_of_mem _ hc⟩

/-- A literal is not completed by a tail. -/
theorem stable_strip {f : Text → Bool} (hf : Stable f) {p : Text}
    (hp : ∀ c ∈ ['\r', '@', ',', '=', '"', ';'], c ∉ p) : Stable fun t => (t.stripPrefix? p).any f := by
  intro t tail htail
  dsimp only
  induction p generalizing t with
  | nil => simpa using hf t htail
  | cons d p ih =>
    cases t with
    | nil =>
      -- the text ends within the literal, and the tail does not go on with it
      rcases htail.cases_head with rfl | ⟨c, rest, rfl, hc⟩
      · rfl
      · have hne : c ≠ d := fun he => hp c hc (by simp [he])
        simp [hne]
    | cons c t =>
      simp only [List.cons_append, Text.stripPrefix?_cons_cons]
      split
      · exact ih (fun c hc hm => hp c hc (List.mem_cons_of_mem _ hm)) t
      · rfl

/-- Skipping characters leaves the tail, or nothing of it. -/
theorem exists_dropWhile_append {p : Char → Bool} (hp : ∀ c ∈ ['@', ',', '=', '"', ';'], p c = false)
    (t : Text) {tail : Text} (htail : Tail tail) :
    ∃ tail', Tail tail' ∧ (t ++ tail).dropWhile p = t.dropWhile p ++ tail' := by
  induction t with
  | nil =>
    cases htail with
    | nil => exact ⟨[], .nil, rfl⟩
    | carriageReturn =>
      by_cases hr : p '\r'
      · exact ⟨[], .nil, by simp [hr]⟩
      · exact ⟨['\r'], .carriageReturn, by simp [hr]⟩
    | @stop c rest hc => exact ⟨c :: rest, .stop rest hc, by simp [hp c hc]⟩
  | cons c t ih =>
    by_cases hc : p c
    · simpa [hc] using ih
    · exact ⟨tail, htail, by simp [hc]⟩

theorem stable_skip {f : Text → Bool} (hf : Stable f) {p : Char → Bool}
    (hp : ∀ c ∈ ['@', ',', '=', '"', ';'], p c = false) : Stable fun t => f (t.dropWhile p) := by
  intro t tail htail
  obtain ⟨tail', htail', he⟩ := exists_dropWhile_append hp t htail
  dsimp only
  rw [he, hf _ htail']

/-- A run of characters is not begun by a tail. -/
theorem stable_run {f : Text → Bool} (hf : Stable f) (hnil : f [] = false) {p : Char → Bool}
    (hp : ∀ c ∈ ['@', ',', '=', '"', ';'], p c = false) :
    Stable fun t => (Text.run? p t).any fun r => f r.2 := by
  have hrun : ∀ t : Text, (Text.run? p t).any (fun r => f r.2) =
      (!(t.takeWhile p).isEmpty && f (t.dropWhile p)) := by
    intro t
    rw [Text.run?]
    split <;> next h => simp [h]
  intro t tail htail
  dsimp only
  have hskip : f ((t ++ tail).dropWhile p) = f (t.dropWhile p) := stable_skip hf hp t htail
  rw [hrun, hrun, hskip]
  cases t with
  | cons c t => by_cases hc : p c <;> simp [hc]
  | nil => simp [hnil]

private theorem stable_atWordEnd : Stable Text.atWordEnd := by
  intro t tail htail
  cases t with
  | cons c t => rfl
  | nil =>
    rcases htail.cases_head with rfl | ⟨c, rest, rfl, hc⟩
    · rfl
    · have hword : ∀ c ∈ ['\r', '@', ',', '=', '"', ';'], Text.isWordChar c = false :=
        Text.forall_mem_of_all (by decide +kernel)
      simp [Text.atWordEnd, hword c hc]

/-- A bracket is not opened by a tail. -/
theorem stable_bracket {f : Text → Bool} (hf : Stable f) :
    Stable fun t => f ((t.stripPrefix? "(").getD t) := by
  intro t tail htail
  dsimp only
  cases t with
  | nil =>
    rcases htail.cases_head with rfl | ⟨c, rest, rfl, hc⟩
    · rfl
    · have hne : c ≠ '(' := by
        rintro rfl
        exact absurd hc (by decide)
      simpa [hne] using hf [] htail
  | cons c t =>
    by_cases hc : c = '('
    · simpa [hc] using hf t htail
    · simpa [hc] using hf (c :: t) htail

/-- An address goes on with a number after its type. -/
def castNumber (t : Text) : Bool :=
  (Text.run? Text.isBlank t).any fun r =>
    (Text.run? Text.isDecimal r.2).any fun r =>
      (Text.run? Text.isBlank r.2).any fun r => (Text.stripPrefix? r.2 "to").any Text.atWordEnd

/-- An address goes on with a type and a number after its keyword. -/
def castRest (t : Text) : Bool :=
  ((Text.trimStart ((t.trimStart.stripPrefix? "(").getD t.trimStart)).stripPrefix? "i64").any castNumber

theorem isSome_castLiteralAt? (t : Text) :
    (Line.castLiteralAt? t).isSome = (t.stripPrefix? "inttoptr").any castRest := by
  have hend : ∀ digits t : Text,
      (if t.atWordEnd then some digits else none).isSome = t.atWordEnd := by
    intro digits t
    cases t.atWordEnd <;> rfl
  simp only [Line.castLiteralAt?, Option.bind_eq_bind, Option.isSome_bind, hend]
  rfl

private theorem stable_castRest : Stable castRest := by
  have hblank : ∀ c ∈ ['@', ',', '=', '"', ';'], Text.isBlank c = false :=
    Text.forall_mem_of_all (by decide)
  have hdecimal : ∀ c ∈ ['@', ',', '=', '"', ';'], Text.isDecimal c = false :=
    Text.forall_mem_of_all (by decide +kernel)
  have hto := stable_strip stable_atWordEnd
    (Text.forall_mem_of_all (p := fun c => c ∉ ("to" : Text)) (by decide))
  have hnumber : Stable castNumber :=
    stable_run (stable_run (stable_run hto rfl hblank) rfl hdecimal) rfl hblank
  have htype := stable_strip hnumber
    (Text.forall_mem_of_all (p := fun c => c ∉ ("i64" : Text)) (by decide))
  exact stable_skip (stable_bracket (stable_skip htype hblank)) hblank

/-- **A tail does not take part in residue that begins before it.** -/
theorem begins_append_tail (c : Char) (t : Text) {tail : Text} (htail : Tail tail) :
    begins (c :: (t ++ tail)) = begins (c :: t) := by
  -- markers consist of characters that no tail begins with, their first one apart
  have hmarker : ∀ m ∈ markers,
      Text.startsWith (c :: (t ++ tail)) m = Text.startsWith (c :: t) m := by
    intro m hm
    have hstop : ∀ c ∈ ['\r', '@', ',', '=', '"', ';'], ∀ m ∈ markers, c ∉ m.tail :=
      Text.forall_mem_of_all (by decide)
    have hne : ∀ m ∈ markers, m ≠ [] := by decide
    cases m with
    | nil => exact absurd rfl (hne [] hm)
    | cons d m =>
      have hstable := stable_strip (f := fun _ => true) (fun _ _ _ => rfl)
        fun c hc => hstop c hc (d :: m) hm
      have hany : ∀ t : Text, (t.stripPrefix? m).any (fun _ => true) = t.startsWith m := by
        intro t
        rw [Text.startsWith]
        cases t.stripPrefix? m <;> rfl
      have hrest := hstable t htail
      simp only [List.tail_cons, hany] at hrest
      by_cases hc : c = d
      · simpa [Text.startsWith, hc] using hrest
      · simp [Text.startsWith, hc]
  have hcast : (Line.castLiteralAt? (c :: (t ++ tail))).isSome = (Line.castLiteralAt? (c :: t)).isSome := by
    have hstable := stable_strip stable_castRest
      (Text.forall_mem_of_all (p := fun c => c ∉ ("inttoptr" : Text)) (by decide))
    rw [isSome_castLiteralAt?, isSome_castLiteralAt?]
    exact hstable (c :: t) htail
  rw [begins, begins, hcast]
  congr 1
  rw [Bool.eq_iff_iff, marked, marked, List.any_eq_true, List.any_eq_true]
  constructor
  · rintro ⟨m, hm, h⟩
    exact ⟨m, hm, hmarker m hm ▸ h⟩
  · rintro ⟨m, hm, h⟩
    exact ⟨m, hm, (hmarker m hm).symm ▸ h⟩

/-! ### Lines -/

@[simp] theorem begins_nil : begins [] = false := rfl

theorem visible_append_of_forall {t : Text} (h : ∀ c ∈ t, c ≠ ';' ∧ c ≠ '\n') (u : Text) :
    visible (t ++ u) = t ++ visible u :=
  List.takeWhile_append_of_pos fun c hc => by simp [h c hc]

theorem visible_cons (c : Char) (t : Text) :
    visible (c :: t) = if c = ';' ∨ c = '\n' then [] else c :: visible t := by
  rw [visible, List.takeWhile_cons]
  by_cases hs : c = ';'
  · simp [hs]
  · by_cases hn : c = '\n'
    · simp [hn]
    · simp [hs, hn, visible]

private theorem visible_append_newline (t u : Text) : visible (t ++ '\n' :: u) = visible t := by
  induction t with
  | nil => rfl
  | cons c t ih => rw [List.cons_append, visible_cons, visible_cons, ih]

/-- Within a line only a comment hides. -/
theorem visible_line {t : Text} (h : '\n' ∉ t) : visible t = t.takeWhile (· != ';') := by
  induction t with
  | nil => rfl
  | cons c t ih =>
    have hc : c ≠ '\n' := fun he => h (by simp [he])
    rw [visible_cons, List.takeWhile_cons, ih (fun hm => h (by simp [hm]))]
    by_cases hs : c = ';'
    · simp [hs]
    · simp [hs, hc]

@[simp] theorem liveAfter_append (live : Bool) (t u : Text) :
    liveAfter live (t ++ u) = liveAfter (liveAfter live t) u :=
  List.foldl_append

theorem liveAfter_newline (live : Bool) (t u : Text) :
    liveAfter live (t ++ '\n' :: u) = liveAfter true u := by
  rw [liveAfter_append]
  rfl

/-- Within a line only a semicolon ends the code. -/
theorem liveAfter_line {t : Text} (h : '\n' ∉ t) (live : Bool) :
    liveAfter live t = (live && !t.contains ';') := by
  induction t generalizing live with
  | nil => simp [liveAfter]
  | cons c t ih =>
    have hc : (c == '\n') = false := by
      rw [beq_eq_false_iff_ne]
      rintro rfl
      exact h (by simp)
    rw [liveAfter, List.foldl_cons, ← liveAfter, ih (fun hm => h (by simp [hm])), hc, List.contains_cons]
    by_cases hs : c = ';'
    · simp [hs]
    · have h₁ : (c != ';') = true := bne_iff_ne.mpr hs
      have h₂ : (';' == c) = false := beq_false_of_ne (Ne.symm hs)
      rw [h₁, h₂, Bool.false_or, Bool.and_true, Bool.false_or]

/-- A carriage return at the end of a line does not matter. -/
theorem isSome_ofLine?_stripReturn (line : Text) :
    (ofLine? (Text.stripReturn line)).isSome ↔ (ofLine? line).isSome := by
  rw [Text.stripReturn]
  split
  · next hlast =>
    obtain ⟨line, rfl⟩ := List.getLast?_eq_some_iff.mp hlast
    rw [List.dropLast_concat, ofLine?, ofLine?, Line.code, Line.code]
    by_cases hcomment : ∀ c ∈ line, (c != ';') = true
    · -- without a comment the carriage return is part of the code, and a tail of it
      rw [List.takeWhile_append_of_pos hcomment, List.takeWhile_eq_self_iff.mpr hcomment,
        isSome_ofCode?_iff, isSome_ofCode?_iff]
      constructor
      · rintro ⟨before, after, rfl, h⟩
        cases after with
        | nil => exact absurd h (by simp [begins_nil])
        | cons c after =>
          refine ⟨before, c :: (after ++ ['\r']), by simp, ?_⟩
          rw [begins_append_tail c after .carriageReturn]
          exact h
      · rintro ⟨before, after, he, h⟩
        rcases List.eq_nil_or_concat after with rfl | ⟨after, d, rfl⟩
        · exact absurd h (by simp [begins_nil])
        · rw [List.concat_eq_append, ← List.append_assoc] at he
          obtain ⟨rfl, hd⟩ := List.append_inj' he rfl
          obtain rfl : '\r' = d := by simpa using hd
          rw [List.concat_eq_append] at h
          cases after with
          | nil => exact absurd h (by decide +kernel)
          | cons c after =>
            refine ⟨before, c :: after, rfl, ?_⟩
            rw [← begins_append_tail c after .carriageReturn]
            exact h
    · have hshort : (line.takeWhile (· != ';')).length ≠ line.length := by
        intro hlen
        have hself : line.takeWhile (· != ';') = line :=
          (List.takeWhile_prefix _).eq_of_length hlen
        exact hcomment (List.takeWhile_eq_self_iff.mp hself)
      rw [List.takeWhile_append, if_neg hshort]
  · rfl

/-- In a single line, residue shows in the code before the comment. -/
theorem shows_line_iff {line : Text} (h : '\n' ∉ line) : Shows line ↔ (ofLine? line).isSome := by
  rw [ofLine?, isSome_ofCode?_iff]
  constructor
  · rintro ⟨before, after, rfl, hlive, hbegins⟩
    have hbefore : '\n' ∉ before := fun hm => h (List.mem_append_left _ hm)
    have hafter : '\n' ∉ after := fun hm => h (List.mem_append_right _ hm)
    have hcode : ∀ c ∈ before, (c != ';') = true := by
      intro c hc
      rw [liveAfter_line hbefore] at hlive
      have hnot : ';' ∉ before := by simpa using hlive
      simp only [bne_iff_ne]
      rintro rfl
      exact hnot hc
    refine ⟨before, visible after, ?_, hbegins⟩
    rw [Line.code, List.takeWhile_append_of_pos hcode, visible_line hafter]
  · rintro ⟨before, after, hcode, hbegins⟩
    -- the code of the line ends where its comment begins, so no more of it is visible
    have hline : line = before ++ (after ++ line.dropWhile (· != ';')) := by
      rw [← List.append_assoc, ← hcode]
      exact List.takeWhile_append_dropWhile.symm
    have hlive : ∀ c ∈ before ++ after, c ≠ ';' := by
      intro c hc
      rw [← hcode] at hc
      simpa using List.mem_takeWhile_imp hc
    have hbefore : '\n' ∉ before := fun hm => h (by rw [hline]; simp [hm])
    have hafter : '\n' ∉ after := fun hm => h (by rw [hline]; simp [hm])
    refine ⟨before, _, hline, ?_, ?_⟩
    · rw [liveAfter_line hbefore]
      have hnot : ';' ∉ before := fun hm => hlive ';' (List.mem_append_left _ hm) rfl
      simp [hnot]
    · have hrest : visible (line.dropWhile (· != ';')) = [] := by
        have hhead := List.head?_dropWhile_not (· != ';') line
        cases hd : line.dropWhile (· != ';') with
        | nil => rfl
        | cons c rest =>
          rw [hd] at hhead
          have hc : c = ';' := by simpa using hhead
          simp [visible_cons, hc]
      rw [visible_append_of_forall, hrest, List.append_nil]
      · exact hbegins
      · intro c hc
        refine ⟨hlive c (List.mem_append_right _ hc), ?_⟩
        rintro rfl
        exact hafter hc

/-! ### What follows -/

/-- Two texts agree up to a tail. -/
def SameFront (t u : Text) : Prop :=
  ∃ common tail tail', Tail tail ∧ Tail tail' ∧ visible t = common ++ tail ∧ visible u = common ++ tail'

theorem Tail.visible {tail : Text} (h : Tail tail) : Tail (visible tail) := by
  cases h with
  | nil => exact .nil
  | carriageReturn => exact .carriageReturn
  | @stop c rest hc =>
    rw [visible_cons]
    split
    · exact .nil
    · exact .stop _ hc

theorem Tail.sameFront {tail tail' : Text} (h : Tail tail) (h' : Tail tail') : SameFront tail tail' :=
  ⟨[], _, _, h.visible, h'.visible, rfl, rfl⟩

theorem SameFront.cons {t u : Text} (h : SameFront t u) (c : Char) :
    SameFront (c :: t) (c :: u) := by
  obtain ⟨common, tail, tail', htail, htail', ht, hu⟩ := h
  rw [SameFront, visible_cons, visible_cons]
  split
  · exact ⟨[], [], [], .nil, .nil, rfl, rfl⟩
  · exact ⟨c :: common, tail, tail', htail, htail', by rw [ht]; rfl, by rw [hu]; rfl⟩

/-- Residue depends on what follows it up to a tail only. -/
theorem begins_visible_append {t u u' : Text} (ht : t ≠ []) (h : SameFront u u') :
    begins (visible (t ++ u)) = begins (visible (t ++ u')) := by
  by_cases hcode : ∀ c ∈ t, (c != ';' && c != '\n') = true
  · obtain ⟨c, t, rfl⟩ := List.exists_cons_of_ne_nil ht
    obtain ⟨common, tail, tail', htail, htail', hu, hu'⟩ := h
    rw [visible, List.takeWhile_append_of_pos hcode, ← visible, hu, visible,
      List.takeWhile_append_of_pos hcode, ← visible, hu', List.cons_append, List.cons_append,
      ← List.append_assoc, ← List.append_assoc, begins_append_tail c _ htail, begins_append_tail c _ htail']
  · -- the line ends or becomes a comment before
    have hhidden : ∀ u, visible (t ++ u) = visible t := by
      intro u
      have hshort : ¬ (visible t).length = t.length := by
        intro hlen
        have hself : visible t = t := (List.takeWhile_prefix _).eq_of_length hlen
        exact hcode (List.takeWhile_eq_self_iff.mp hself)
      exact List.takeWhile_append.trans (if_neg hshort)
    rw [hhidden, hhidden]

/-! ### Joining texts -/

/-- Residue shows in the first of two texts, or in the second. -/
theorem showsFrom_append (live : Bool) (t u : Text) :
    ShowsFrom live (t ++ u) ↔
      (∃ x y, t = x ++ y ∧ y ≠ [] ∧ liveAfter live x ∧ begins (visible (y ++ u))) ∨
        ShowsFrom (liveAfter live t) u := by
  constructor
  · rintro ⟨before, after, he, hlive, hbegins⟩
    -- the position is behind the first text, or within it
    rcases List.append_eq_append_iff.mp he with ⟨mid, rfl, rfl⟩ | ⟨mid, rfl, rfl⟩
    · rw [liveAfter_append] at hlive
      exact .inr ⟨mid, after, rfl, hlive, hbegins⟩
    · cases mid with
      | nil =>
        rw [List.append_nil]
        exact .inr ⟨[], u, rfl, hlive, hbegins⟩
      | cons c mid => exact .inl ⟨before, c :: mid, rfl, by simp, hlive, hbegins⟩
  · rintro (⟨x, y, rfl, -, hlive, hbegins⟩ | ⟨before, after, rfl, hlive, hbegins⟩)
    · exact ⟨x, y ++ u, by simp, hlive, hbegins⟩
    · exact ⟨t ++ before, after, by simp, by rw [liveAfter_append]; exact hlive, hbegins⟩

theorem liveAfter_mono {live live' : Bool} (h : live' → live) (t : Text) :
    liveAfter live' t → liveAfter live t := by
  induction t generalizing live live' with
  | nil => exact h
  | cons c t ih =>
    refine ih ?_
    simp only [Bool.or_eq_true, Bool.and_eq_true]
    rintro (hc | ⟨hlive, hc⟩)
    · exact .inl hc
    · exact .inr ⟨h hlive, hc⟩

/-- Without a semicolon code goes on. -/
theorem liveAfter_of_notMem {t : Text} (h : ';' ∉ t) : liveAfter true t := by
  induction t with
  | nil => rfl
  | cons c t ih =>
    have hc : (c != ';') = true := by
      simp only [bne_iff_ne]
      rintro rfl
      exact h (by simp)
    rw [liveAfter, List.foldl_cons, hc, Bool.and_true, Bool.or_true]
    exact ih fun hm => h (by simp [hm])

/-- Residue does not cross a line break. -/
theorem shows_append_newline (t u : Text) : Shows (t ++ '\n' :: u) ↔ Shows t ∨ Shows u := by
  constructor
  · rintro ⟨before, after, he, hlive, hbegins⟩
    rcases List.append_eq_append_iff.mp he with ⟨mid, rfl, hrest⟩ | ⟨mid, rfl, rfl⟩
    · cases mid with
      | nil =>
        obtain rfl : '\n' :: u = after := hrest
        rw [visible_cons, if_pos (.inr rfl), begins_nil] at hbegins
        cases hbegins
      | cons c mid =>
        obtain ⟨rfl, rfl⟩ := List.cons.inj hrest
        rw [liveAfter_newline] at hlive
        exact .inr ⟨mid, after, rfl, hlive, hbegins⟩
    · rw [visible_append_newline] at hbegins
      exact .inl ⟨before, mid, rfl, hlive, hbegins⟩
  · rintro (⟨before, after, rfl, hlive, hbegins⟩ | ⟨before, after, rfl, hlive, hbegins⟩)
    · refine ⟨before, after ++ '\n' :: u, by simp, hlive, ?_⟩
      rw [visible_append_newline]
      exact hbegins
    · refine ⟨t ++ '\n' :: before, after, by simp, ?_, hbegins⟩
      rw [liveAfter_newline]
      exact hlive

@[simp] theorem not_shows_nil : ¬ Shows [] := by
  rintro ⟨before, after, he, -, hbegins⟩
  obtain ⟨-, rfl⟩ := List.append_eq_nil_iff.mp he.symm
  exact absurd hbegins (by decide +kernel)

/-- Residue shows in a text if it does in one of its lines. -/
theorem shows_unlines_iff (ls : List Text) : Shows (Text.unlines ls) ↔ ∃ line ∈ ls, Shows line := by
  match ls with
  | [] => simp [Text.unlines, not_shows_nil]
  | [line] => simp [Text.unlines]
  | line :: next :: ls =>
    have hcons : Text.unlines (line :: next :: ls) = line ++ '\n' :: Text.unlines (next :: ls) := by
      simp [Text.unlines]
    rw [hcons, shows_append_newline, shows_unlines_iff (next :: ls)]
    simp only [List.mem_cons, exists_eq_or_imp]

/-- Printing lines does not touch their residue. -/
theorem exists_mem_printedLines_iff (t : Text) :
    (∃ line ∈ t.printedLines, (ofLine? line).isSome) ↔ ∃ line ∈ t.lines, (ofLine? line).isSome := by
  obtain ⟨init, last, hlines⟩ := (List.eq_nil_or_concat t.lines).resolve_left (List.splitOn_ne_nil _ _)
  have hinit : (∃ line ∈ init.map Text.stripReturn, (ofLine? line).isSome) ↔
      ∃ line ∈ init, (ofLine? line).isSome := by
    simp only [List.mem_map, exists_exists_and_eq_and, isSome_ofLine?_stripReturn]
  rw [Text.printedLines, hlines, List.concat_eq_append]
  simp only [List.dropLast_concat, List.getLast?_concat]
  cases last with
  | nil =>
    -- an empty last line is not printed, and shows nothing
    have hnil : (ofLine? []).isSome = false := by decide +kernel
    simp [hnil, ← hinit]
  | cons c last => simp only [List.mem_append, or_and_right, exists_or, hinit]

/-- **A text is self-contained if no residue shows in it.** -/
theorem isSelfContained_iff (t : Text) : isSelfContained t ↔ ¬ Shows t := by
  have hlines : Shows t ↔ ∃ line ∈ t.lines, (ofLine? line).isSome := by
    rw [← Text.unlines_lines t, shows_unlines_iff, Text.unlines_lines]
    constructor
    · rintro ⟨line, hline, h⟩
      exact ⟨line, hline, (shows_line_iff (Text.notMem_of_mem_lines hline)).mp h⟩
    · rintro ⟨line, hline, h⟩
      exact ⟨line, hline, (shows_line_iff (Text.notMem_of_mem_lines hline)).mpr h⟩
  rw [isSelfContained, ofText?, hlines, ← exists_mem_printedLines_iff]
  simp

/-- Line breaks separate. -/
theorem isSelfContained_append_newline (t u : Text) :
    isSelfContained (t ++ '\n' :: u) ↔ isSelfContained t ∧ isSelfContained u := by
  rw [isSelfContained_iff, isSelfContained_iff, isSelfContained_iff, shows_append_newline, not_or]

end Residue

end Freestanding
