import Freestanding.Proofs.Collector.Residue
import Freestanding.Proofs.Name.Plain

/-!
# Residue in the lines of a variable

The line that defines a variable and the line that declares it consist of its symbol, its type, its
initial value and fixed words between them.  Residue shows in them for two reasons only: the symbol looks
like a call into the host's allocator or like a frame of the collector, or the initial value shows
residue.  A pointer that is not null always does, and text may.

## Main definitions

* `Residue.calm` — texts in which nothing can begin.
* `Value.Free` — values whose static form needs nothing of the host.

## Main results

* `Residue.shows_calm_append`, `Residue.shows_append_calm` — calm text can be left out at both ends.
* `Constant.isSelfContained_definition_iff`, `Constant.isSelfContained_declaration_iff` — **the lines of a
  variable.**
* `Value.isSelfContained_initial_iff` — the initial value.
-/

namespace Freestanding

namespace Residue

/-! ### Calm text -/

/-- Nothing that looks like residue can begin in a text, whatever follows it, and it ends neither code nor
a line. -/
def calm : Text → Bool
  | [] => true
  | c :: t => !(['@', '%', ';', '\n'].contains c) && (c != 'i' || t.head?.any (· != 'n')) && calm t

@[simp] theorem calm_nil : calm [] = true := rfl

@[simp] theorem calm_cons (c : Char) (t : Text) :
    calm (c :: t) =
      (!(['@', '%', ';', '\n'].contains c) && (c != 'i' || t.head?.any (· != 'n')) && calm t) := rfl

theorem head_of_marked {c : Char} {t : Text} (h : marked (c :: t)) : c = '@' ∨ c = '%' := by
  have hsigil : ∀ m ∈ markers, m.head? = some '@' ∨ m.head? = some '%' := by decide
  obtain ⟨m, hm, h⟩ := List.any_eq_true.mp h
  obtain ⟨rest, he⟩ := Text.startsWith_iff.mp h
  rcases hsigil m hm with hs | hs
  · obtain ⟨m, rfl⟩ := List.head?_eq_some_iff.mp hs
    exact .inl (List.cons.inj he).1
  · obtain ⟨m, rfl⟩ := List.head?_eq_some_iff.mp hs
    exact .inr (List.cons.inj he).1

/-- How residue can begin. -/
theorem head_of_begins {c : Char} {t : Text} (h : begins (c :: t)) :
    c = '@' ∨ c = '%' ∨ c = 'i' ∧ t.head? = some 'n' := by
  rw [begins, Bool.or_eq_true] at h
  rcases h with h | h
  · exact (head_of_marked h).imp_right .inl
  · rw [isSome_castLiteralAt?, Option.any_eq_true] at h
    obtain ⟨rest, hrest, -⟩ := h
    have he : c :: t = 'i' :: 'n' :: ("ttoptr" ++ rest) := Text.stripPrefix?_eq_some_iff.mp hrest
    obtain ⟨rfl, rfl⟩ := List.cons.inj he
    exact .inr (.inr ⟨rfl, rfl⟩)

private theorem not_begins_of_calm {c : Char} {t : Text} (h : calm (c :: t)) (u : Text) :
    begins (visible (c :: (t ++ u))) = false := by
  rw [calm_cons, Bool.and_eq_true, Bool.and_eq_true] at h
  obtain ⟨⟨hplain, hi⟩, -⟩ := h
  rw [Bool.eq_false_iff]
  intro hb
  rw [visible_cons] at hb
  split at hb
  · exact absurd hb (by decide +kernel)
  · rcases head_of_begins hb with rfl | rfl | ⟨rfl, hn⟩
    · exact absurd hplain (by decide)
    · exact absurd hplain (by decide)
    · cases t with
      | nil => exact absurd hi (by decide)
      | cons d t =>
        rw [List.cons_append, visible_cons] at hn
        split at hn
        · cases hn
        · obtain rfl : d = 'n' := by simpa using hn
          exact Bool.false_ne_true hi

theorem calm_append {t u : Text} (ht : calm t) (hu : calm u) : calm (t ++ u) := by
  induction t with
  | nil => exact hu
  | cons c t ih =>
    rw [calm_cons, Bool.and_eq_true, Bool.and_eq_true] at ht
    obtain ⟨⟨hplain, hi⟩, ht⟩ := ht
    rw [List.cons_append, calm_cons, hplain, ih ht, Bool.true_and, Bool.and_true]
    cases t with
    | nil =>
      have hne : (c != 'i') = true := by simpa using hi
      rw [hne, Bool.true_or]
    | cons d t => exact hi

private theorem calm_of_forall {t : Text} (h : ∀ c ∈ t, c ∉ ['@', '%', ';', '\n', 'i']) : calm t := by
  induction t with
  | nil => exact calm_nil
  | cons c t ih =>
    have hc := h c List.mem_cons_self
    have hsplit : c ∉ ['@', '%', ';', '\n'] ∧ c ≠ 'i' := by simpa [and_assoc] using hc
    have hi : (c != 'i') = true := bne_iff_ne.mpr hsplit.2
    rw [calm_cons, ih fun c hm => h c (List.mem_cons_of_mem _ hm), hi, Bool.true_or]
    simpa using hsplit.1

/-- Calm text in front can be left out. -/
theorem shows_calm_append {t : Text} (h : calm t) (u : Text) : Shows (t ++ u) ↔ Shows u := by
  induction t with
  | nil => rfl
  | cons c t ih =>
    have hbegins := not_begins_of_calm h u
    rw [calm_cons, Bool.and_eq_true, Bool.and_eq_true] at h
    have hlive : liveAfter true [c] = true := by
      refine liveAfter_of_notMem fun hm => ?_
      rw [List.mem_singleton] at hm
      rw [← hm] at h
      exact absurd h.1.1 (by decide)
    have hcons := showsFrom_append true [c] (t ++ u)
    rw [hlive, List.singleton_append] at hcons
    rw [List.cons_append, ← ih h.2, Shows, hcons]
    constructor
    · rintro (⟨x, y, he, hy, -, hb⟩ | hshows)
      · obtain ⟨rfl, rfl⟩ : x = [] ∧ y = [c] := by
          rcases List.append_eq_singleton_iff.mp he.symm with hxy | hxy
          · exact hxy
          · exact absurd hxy.2 hy
        rw [List.singleton_append, hbegins] at hb
        cases hb
      · exact hshows
    · exact .inr

theorem not_shows_of_calm {t : Text} (h : calm t) : ¬ Shows t := by
  intro hshows
  rw [← List.append_nil t, shows_calm_append h] at hshows
  exact not_shows_nil hshows

theorem ShowsFrom.shows {live : Bool} {t : Text} (h : ShowsFrom live t) : Shows t := by
  obtain ⟨before, after, rfl, hlive, hbegins⟩ := h
  exact ⟨before, after, rfl, liveAfter_mono (fun _ => rfl) before hlive, hbegins⟩

/-- Calm text at the end can be left out if it is a tail. -/
theorem shows_append_calm (t : Text) {u : Text} (h : calm u) (htail : Tail u) :
    Shows (t ++ u) ↔ Shows t := by
  have hnone : ∀ live v, calm v → ¬ ShowsFrom live v := fun live v hv hs => not_shows_of_calm hv hs.shows
  have hcongr : ∀ y, y ≠ [] → begins (visible (y ++ u)) = begins (visible (y ++ [])) :=
    fun y hy => begins_visible_append hy (htail.sameFront .nil)
  have hnil := showsFrom_append true t []
  rw [List.append_nil] at hnil
  rw [Shows, Shows, showsFrom_append, hnil, or_iff_left (hnone _ u h), or_iff_left (hnone _ [] rfl)]
  constructor
  · rintro ⟨x, y, he, hy, hx, hb⟩
    exact ⟨x, y, he, hy, hx, hcongr y hy ▸ hb⟩
  · rintro ⟨x, y, he, hy, hx, hb⟩
    exact ⟨x, y, he, hy, hx, (hcongr y hy).symm ▸ hb⟩

/-! ### Symbols -/

/-- An address has a blank before its end, and nothing but its type before that. -/
theorem exists_blank_of_castRest {t : Text} (h : castRest t) :
    ∃ before c after, t = before ++ c :: after ∧ Text.isBlank c ∧ after ≠ [] ∧
      ∀ d ∈ before, Text.isBlank d ∨ d ∈ ("(i64" : Text) := by
  -- after the type there is a run of blanks, and then a run of digits
  have hnumber : ∀ u, castNumber u → ∃ c after, u = c :: after ∧ Text.isBlank c ∧ after ≠ [] := by
    intro u hu
    rw [castNumber, Option.any_eq_true] at hu
    obtain ⟨⟨blanks, u'⟩, hblanks, hu⟩ := hu
    rw [Option.any_eq_true] at hu
    obtain ⟨⟨digits, u''⟩, hdigits, -⟩ := hu
    obtain ⟨rfl, hne⟩ := Token.append_eq_of_run? hblanks
    obtain ⟨rfl, hdigitsNe⟩ := Token.append_eq_of_run? hdigits
    obtain ⟨c, blanks, rfl⟩ := List.exists_cons_of_ne_nil hne
    refine ⟨c, _, rfl, ?_, by simp [hdigitsNe]⟩
    by_contra hc
    rw [Text.run?, List.cons_append, List.takeWhile_cons, if_neg hc] at hblanks
    cases hblanks
  have hstart : ∀ u : Text, ∃ blanks, u = blanks ++ u.trimStart ∧ ∀ d ∈ blanks, Text.isBlank d := fun u =>
    ⟨u.takeWhile Text.isBlank, List.takeWhile_append_dropWhile.symm, fun d hd => List.mem_takeWhile_imp hd⟩
  have hbracket : ∀ u : Text, ∃ bracket, u = bracket ++ (u.stripPrefix? "(").getD u ∧
      ∀ d ∈ bracket, d ∈ ("(i64" : Text) := by
    intro u
    cases hb : u.stripPrefix? "(" with
    | none => exact ⟨[], rfl, by simp⟩
    | some v => exact ⟨"(", Text.stripPrefix?_eq_some_iff.mp hb, by simp⟩
  rw [castRest, Option.any_eq_true] at h
  obtain ⟨u, hu, hcast⟩ := h
  obtain ⟨c, after, rfl, hc, hafter⟩ := hnumber u hcast
  obtain ⟨blanks, ht, hblanks⟩ := hstart t
  obtain ⟨bracket, ht', hbrackets⟩ := hbracket t.trimStart
  obtain ⟨blanks', ht'', hblanks'⟩ := hstart ((t.trimStart.stripPrefix? "(").getD t.trimStart)
  rw [Text.stripPrefix?_eq_some_iff.mp hu] at ht''
  rw [ht''] at ht'
  rw [ht'] at ht
  refine ⟨blanks ++ (bracket ++ (blanks' ++ "i64")), c, after, by simpa using ht, hc, hafter, fun d hd => ?_⟩
  simp only [List.mem_append] at hd
  rcases hd with hd | hd | hd | hd
  · exact .inl (hblanks d hd)
  · exact .inr (hbrackets d hd)
  · exact .inl (hblanks' d hd)
  · exact .inr (List.mem_cons_of_mem _ hd)

/-- A word with a blank behind it is residue by its name only. -/
theorem begins_word_iff {word : Text} (h : ∀ c ∈ word, Text.isBlank c = false) :
    begins (word ++ " ") ↔ marked word := by
  have hcast : (Line.castLiteralAt? (word ++ " ")).isSome = false := by
    rw [Bool.eq_false_iff]
    intro hs
    rw [isSome_castLiteralAt?, Option.any_eq_true] at hs
    obtain ⟨rest, hrest, hcast⟩ := hs
    obtain ⟨before, c, after, rfl, hc, hafter, -⟩ := exists_blank_of_castRest hcast
    have he := Text.stripPrefix?_eq_some_iff.mp hrest
    -- the blank is not the last character, so it belongs to the word
    obtain ⟨after, d, rfl⟩ := (List.eq_nil_or_concat after).resolve_left hafter
    have he' : word ++ [' '] = ("inttoptr" ++ before ++ c :: after) ++ [d] := by
      simpa using he
    have hword := (List.append_inj' he' rfl).1
    have hfree := h c (by simp [hword])
    rw [hc] at hfree
    cases hfree
  rw [begins, hcast, Bool.or_false, marked, marked, List.any_eq_true, List.any_eq_true]
  have hblank : ∀ m ∈ markers, ' ' ∉ m := by decide
  constructor
  · rintro ⟨m, hm, hstart⟩
    obtain ⟨rest, he⟩ := Text.startsWith_iff.mp hstart
    refine ⟨m, hm, Text.startsWith_iff.mpr ?_⟩
    rcases List.append_eq_append_iff.mp he with ⟨mid, rfl, hmid⟩ | ⟨mid, rfl, -⟩
    · cases mid with
      | nil => exact ⟨[], by simp⟩
      | cons c mid =>
        have hc : ' ' = c := (List.cons.inj hmid).1
        exact absurd (List.mem_append_right _ (hc ▸ List.mem_cons_self)) (hblank _ hm)
    · exact ⟨mid, rfl⟩
  · rintro ⟨m, hm, hstart⟩
    obtain ⟨rest, rfl⟩ := Text.startsWith_iff.mp hstart
    exact ⟨m, hm, Text.startsWith_iff.mpr ⟨rest ++ " ", by simp⟩⟩

/-- Within a symbol, a name that is residue begins at the sigil only. -/
theorem eq_nil_of_marked {name x y : Text} (hname : Name.Plain name) (he : Name.symbol name = x ++ y)
    (hy : y ≠ []) (h : marked y) : x = [] := by
  obtain ⟨tail, hsymbol, htail⟩ := hname.exists_symbol_eq
  obtain ⟨d, y, rfl⟩ := List.exists_cons_of_ne_nil hy
  cases x with
  | nil => rfl
  | cons c x =>
    rw [hsymbol] at he
    have hd : d ∈ tail := by simp [(List.cons.inj he).2]
    rcases head_of_marked h with rfl | rfl
    · exact absurd (htail _ hd) (by decide)
    · exact absurd (htail _ hd) (by decide)

/-- Residue shows in a line that begins with a symbol if the symbol is residue, or behind it. -/
theorem shows_symbol_append {name : Text} (hname : Name.Plain name) (u : Text) :
    Shows (Name.symbol name ++ ' ' :: '=' :: u) ↔
      marked (Name.symbol name) ∨ Shows (' ' :: '=' :: u) := by
  have hchars := hname.forall_mem_symbol
  have hlive : liveAfter true (Name.symbol name) :=
    liveAfter_of_notMem fun hm => (hchars ';' hm).2.1 rfl
  -- behind the symbol there is a blank, and then a tail
  have hcut : ∀ x y, Name.symbol name = x ++ y → y ≠ [] →
      (begins (visible (y ++ ' ' :: '=' :: u)) ↔ marked y) := by
    intro x y he hy
    have hy' : ∀ c ∈ y, c ∈ Name.symbol name := fun c hc => by simp [he, hc]
    have hfront : SameFront (' ' :: '=' :: u) " " :=
      (Tail.sameFront (.stop u (by decide)) .nil).cons ' '
    rw [begins_visible_append hy hfront, visible_append_of_forall
      fun c hc => (hchars c (hy' c hc)).2]
    exact begins_word_iff fun c hc => (hchars c (hy' c hc)).1
  rw [Shows, showsFrom_append, hlive]
  refine or_congr_left ?_
  constructor
  · rintro ⟨x, y, he, hy, -, hbegins⟩
    have hmarked := (hcut x y he hy).mp hbegins
    obtain rfl := eq_nil_of_marked hname he hy hmarked
    rw [he]
    exact hmarked
  · intro hmarked
    have hne : Name.symbol name ≠ [] := by
      obtain ⟨tail, hsymbol, -⟩ := hname.exists_symbol_eq
      rw [hsymbol]
      exact List.cons_ne_nil _ _
    exact ⟨[], Name.symbol name, rfl, hne, rfl, (hcut [] _ rfl hne).mpr hmarked⟩

end Residue

open Residue

/-! ### Constants -/

theorem calm_decimal (n : Nat) : calm (Text.decimal n) := by
  refine calm_of_forall fun c hc => ?_
  have hdigit := Nat.isDigit_of_mem_toDigits (by decide) (by decide) hc
  have hnone : ∀ c ∈ ['@', '%', ';', '\n', 'i'], c.isDigit = false :=
    Text.forall_mem_of_all (by decide)
  intro hm
  rw [hnone c hm] at hdigit
  cases hdigit

private theorem calm_hexUpper (width n : Nat) : calm (Text.hexUpper width n) := by
  induction width generalizing n with
  | zero => rfl
  | succ width ih =>
    have hdigit : ∀ n < 16, calm [Text.upperDigit n] := by decide
    exact calm_append (ih _) (hdigit _ (Nat.mod_lt _ (by decide)))

private theorem calm_decimalInt (i : Int) : calm (Text.decimalInt i) := by
  cases i with
  | ofNat n => exact calm_decimal n
  | negSucc n => exact calm_append (show calm "-" by decide) (calm_decimal _)

namespace Constant

/-- The end of the lines of a variable. -/
theorem calm_align (n : Nat) : calm (", align " ++ Text.decimal n) :=
  calm_append (by decide) (calm_decimal n)

/-- **Residue in the line that defines a variable**: its symbol is residue, or its initial value shows
some. -/
theorem isSelfContained_definition_iff {k : Constant} (htype : calm k.type) {name : Text}
    (hname : Name.Plain name) :
    isSelfContained (k.definition name) ↔
      marked (Name.symbol name) = false ∧ isSelfContained k.initial := by
  have hline : k.definition name = Name.symbol name ++ ' ' :: '=' :: (" global " ++ k.type ++ " " ++
      (k.initial ++ (", align " ++ Text.decimal k.align))) := by
    simp [definition]
  have hfront : calm (" = global " ++ k.type ++ " ") :=
    calm_append (calm_append (by decide) htype) (by decide)
  have hrest : Shows (' ' :: '=' :: (" global " ++ k.type ++ " " ++
      (k.initial ++ (", align " ++ Text.decimal k.align)))) ↔ Shows k.initial := by
    refine (shows_calm_append hfront _).trans (shows_append_calm _ (calm_align _) ?_)
    exact .stop _ (by decide)
  rw [isSelfContained_iff, isSelfContained_iff, hline, shows_symbol_append hname, hrest, not_or,
    Bool.not_eq_true]

/-- **Residue in the line that declares a variable**: its symbol is residue. -/
theorem isSelfContained_declaration_iff {k : Constant} (htype : calm k.type) {name : Text}
    (hname : Name.Plain name) :
    isSelfContained (k.declaration name) ↔ marked (Name.symbol name) = false := by
  have hline : k.declaration name = Name.symbol name ++ ' ' :: '=' :: (" external global " ++ k.type ++
      (", align " ++ Text.decimal k.align)) := by
    simp [declaration]
  have hcalm : calm (" = external global " ++ k.type ++ (", align " ++ Text.decimal k.align)) :=
    calm_append (calm_append (by decide) htype) (calm_align _)
  have hrest : ¬ Shows (' ' :: '=' :: (" external global " ++ k.type ++
      (", align " ++ Text.decimal k.align))) := not_shows_of_calm hcalm
  rw [isSelfContained_iff, hline, shows_symbol_append hname, or_iff_left hrest, Bool.not_eq_true]

end Constant

namespace Value

/-- The static form of a value needs nothing of the host. -/
def Free : Value → Prop
  | .pointer address => address = 0
  | .bytes _ content => isSelfContained (Constant.escape content)
  | .string content => isSelfContained (Constant.escape content.encode)
  | _ => True

theorem calm_type {v : Value} {k : Constant} (h : v.constant? = some k) : calm k.type := by
  have hbytes : ∀ content, calm (Constant.ofBytes content).type := fun content =>
    calm_append (calm_append (by decide) (calm_decimal _)) (by decide)
  cases v with
  | int bits value =>
    rw [constant?] at h
    split at h
    · cases h
    · cases h
      -- the letter in front of the digits begins no address
      obtain ⟨d, ds, hd⟩ := List.exists_cons_of_ne_nil (Nat.toDigits_ne_nil (n := bits) (b := 10))
      have hdigits : calm (d :: ds) := hd ▸ calm_decimal bits
      have hne : d ≠ 'n' := by
        rintro rfl
        have hdigit : 'n'.isDigit := Nat.isDigit_of_mem_toDigits (n := bits) (b := 10) (by decide) (by decide)
          (hd ▸ List.mem_cons_self)
        exact absurd hdigit (by decide)
      rw [Text.decimal, hd]
      change calm ('i' :: d :: ds) = true
      rw [calm_cons, hdigits]
      simp [hne]
  | bool value => cases h; rfl
  | float32 pattern => cases h; rfl
  | float64 pattern => cases h; rfl
  | pointer address => cases h; rfl
  | bytes _ content => cases h; exact hbytes content
  | string content => cases h; exact hbytes _
  | function _ => cases h
  | type _ => cases h
  | object _ => cases h

private theorem castRest_i64 (t : Text) : castRest (" (i64" ++ t) = castNumber t := by
  have hblank : Text.isBlank ' ' = true ∧ Text.isBlank '(' = false ∧ Text.isBlank 'i' = false := by decide
  have hstart : Text.trimStart (" (i64" ++ t) = "(i64" ++ t := by
    simp [Text.trimStart, hblank]
  have hbracket : Text.stripPrefix? ("(i64" ++ t) "(" = some ("i64" ++ t) :=
    Text.stripPrefix?_eq_some_iff.mpr (by simp)
  have hopen : Text.trimStart ("i64" ++ t) = "i64" ++ t := by
    simp [Text.trimStart, hblank]
  have htype : Text.stripPrefix? ("i64" ++ t) "i64" = some t :=
    Text.stripPrefix?_eq_some_iff.mpr rfl
  rw [castRest, hstart, hbracket, Option.getD_some, hopen, htype, Option.any_some]

private theorem castNumber_decimal (n : Nat) : castNumber (" " ++ (Text.decimal n ++ " to ptr)")) := by
  have hblanks : Text.run? Text.isBlank (" " ++ (Text.decimal n ++ " to ptr)")) =
      some ((" " : Text), Text.decimal n ++ " to ptr)") := by
    refine Text.run?_append (by decide) (Text.forall_mem_of_all (by decide)) fun c hc => ?_
    rw [Text.decimal, List.head?_append_of_ne_nil _ Nat.toDigits_ne_nil] at hc
    exact Name.isBlank_of_isPlain (Name.plain_decimal n c (List.mem_of_mem_head? hc))
  have hdigits : Text.run? Text.isDecimal (Text.decimal n ++ " to ptr)") =
      some (Text.decimal n, (" to ptr)" : Text)) := by
    refine Text.run?_append Nat.toDigits_ne_nil (fun c hc => ?_) fun c hc => ?_
    · rw [Text.isDecimal, Nat.isDigit_of_mem_toDigits (by decide) (by decide) hc, Bool.true_or]
    · obtain rfl : ' ' = c := Option.some.inj hc
      decide +kernel
  have hto : ((Text.run? Text.isBlank " to ptr)").any fun r =>
      (Text.stripPrefix? r.2 "to").any Text.atWordEnd) = true := by decide +kernel
  rw [castNumber, hblanks, Option.any_some, hdigits, Option.any_some]
  exact hto

/-- A pointer that is not null is an address of the host. -/
theorem shows_pointer (n : Nat) : Shows ("inttoptr (i64 " ++ Text.decimal n ++ " to ptr)") := by
  have htext : ("inttoptr (i64 " ++ Text.decimal n ++ " to ptr)" : Text) =
      "inttoptr" ++ (" (i64" ++ (" " ++ (Text.decimal n ++ " to ptr)"))) := by simp
  have hcast : begins ("inttoptr" ++ (" (i64" ++ (" " ++ (Text.decimal n ++ " to ptr)")))) := by
    have hkeyword : ∀ t : Text, Text.stripPrefix? ("inttoptr" ++ t) "inttoptr" = some t :=
      fun t => Text.stripPrefix?_eq_some_iff.mpr rfl
    rw [begins, isSome_castLiteralAt?, hkeyword, Option.any_some, castRest_i64, castNumber_decimal,
      Bool.or_true]
  have hplain : ∀ c ∈ Text.decimal n, c ≠ ';' ∧ c ≠ '\n' := by
    intro c hc
    have hc := Name.plain_decimal n c hc
    constructor
    all_goals
      rintro rfl
      exact absurd hc (by decide)
  refine ⟨[], _, (List.nil_append _).symm, rfl, ?_⟩
  rw [List.append_assoc, visible_append_of_forall (Text.forall_mem_of_all (by decide)),
    visible_append_of_forall hplain, ← List.append_assoc]
  exact htext ▸ hcast

/-- An array of bytes shows what its bytes show. -/
theorem isSelfContained_ofBytes (content : List UInt8) :
    isSelfContained (Constant.ofBytes content).initial ↔ isSelfContained (Constant.escape content) := by
  rw [Constant.ofBytes]
  cases content with
  | nil => exact iff_of_true (by decide +kernel) (by decide +kernel)
  | cons b content =>
    have hquoted : Shows ("c\"" ++ Constant.escape (b :: content) ++ "\"") ↔
        Shows (Constant.escape (b :: content)) := by
      rw [List.append_assoc, shows_calm_append (by decide)]
      exact shows_append_calm _ (by decide) (.stop _ (by decide))
    rw [isSelfContained_iff, isSelfContained_iff]
    exact not_congr hquoted

/-- The initial value needs nothing of the host if and only if the value does not. -/
theorem isSelfContained_initial_iff {v : Value} {k : Constant} (h : v.constant? = some k) :
    isSelfContained k.initial ↔ v.Free := by
  have hcalm : ∀ {t : Text}, calm t → (isSelfContained t ↔ True) := fun ht =>
    iff_of_true ((isSelfContained_iff _).mpr (not_shows_of_calm ht)) trivial
  cases v with
  | int bits value =>
    rw [constant?] at h
    split at h
    · cases h
    · cases h
      exact hcalm (calm_decimalInt value)
  | bool value =>
    cases h
    cases value <;> exact hcalm rfl
  | float32 pattern =>
    cases h
    exact hcalm (calm_append (by decide) (calm_hexUpper _ _))
  | float64 pattern =>
    cases h
    exact hcalm (calm_append (by decide) (calm_hexUpper _ _))
  | pointer address =>
    cases h
    rw [Free]
    by_cases hzero : address = 0
    · exact iff_of_true (by rw [if_pos hzero]; decide +kernel) hzero
    · rw [if_neg hzero, isSelfContained_iff]
      exact iff_of_false (fun hn => hn (shows_pointer _)) hzero
  | bytes _ content =>
    cases h
    exact isSelfContained_ofBytes content
  | string content =>
    cases h
    exact isSelfContained_ofBytes content.encode
  | function _ => cases h
  | type _ => cases h
  | object _ => cases h

end Value

end Freestanding
