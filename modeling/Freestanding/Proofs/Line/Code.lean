import Freestanding.Name
import Freestanding.Proofs.Line.Values
import Freestanding.Region

/-!
# What the code of a line names

Names and strings in quotes and comments are no code.  This module looks for something at every place of
a text that is read as code, and so finds the local values that an instruction has as operands.  Together
with the value that it defines, this is all that matters for telling whether values are defined once, and
defined at all.

A value has two spellings, with and without quotes.  Values are compared by the one that is written for
their names.

## Main definitions

* `Line.readsFrom` — what is read at the places of code.
* `Name.canonical` — the spelling by which values are compared.
* `Line.definitions`, `Line.operands` — the value that a line defines, and those that it uses.

## Main results

* `Line.readsFrom_value_append` — what is read from a value on.
* `Line.definitions_of_assigned?` — a line defines the value that it assigns.
* `Line.readsFrom_noValues_append`, `Line.readsFrom_isValue_append` — reading values, piece by piece.
* `Line.of_define` — the operands of a definition stand behind the equals sign.
-/

namespace Freestanding

open Region

/-! ### Places of code -/

namespace Line

variable {α : Type}

/-- What is read at the places of code of a text that starts in the given mode. -/
def readsFrom (f : Text → Option α) : Mode → Text → List α
  | _, [] => []
  | mode, c :: t => (if mode = .code then f (c :: t) else none).toList ++ readsFrom f (mode.next c) t

variable {f : Text → Option α} {rest : Text}

theorem readsFrom_cons {c : Char} (hquote : c ≠ '"') (hcomment : c ≠ ';') :
    readsFrom f .code (c :: rest) = (f (c :: rest)).toList ++ readsFrom f .code rest := by
  rw [readsFrom, if_pos rfl, Mode.next, if_neg hquote, if_neg hcomment]

/-- Text in which nothing is read, and which does not end the code. -/
theorem readsFrom_append {s : Text} (hs : ∀ c ∈ s, c ≠ '"' ∧ c ≠ ';')
    (hf : ∀ x y, s = x ++ y → y ≠ [] → f (y ++ rest) = none) :
    readsFrom f .code (s ++ rest) = readsFrom f .code rest := by
  induction s with
  | nil => rfl
  | cons c s ih =>
    obtain ⟨hc, hs⟩ := List.forall_mem_cons.mp hs
    have hnone := hf [] (c :: s) rfl (List.cons_ne_nil _ _)
    rw [List.cons_append] at hnone
    rw [List.cons_append, readsFrom_cons hc.1 hc.2, hnone,
      ih hs fun x y he hy => hf (c :: x) y (by rw [he]; rfl) hy]
    rfl

private theorem readsFrom_quoted {name : Text} (hname : '"' ∉ name) :
    readsFrom f .quoted (name ++ '"' :: rest) = readsFrom f .code rest := by
  induction name with
  | nil => rfl
  | cons c name ih =>
    rw [List.mem_cons, not_or] at hname
    have hmode : Mode.quoted.next c = .quoted := if_neg fun he => hname.1 he.symm
    rw [List.cons_append, readsFrom, if_neg nofun, hmode, ih hname.2]
    rfl

/-- **What is read from a value on**: within the value nothing is read. -/
theorem readsFrom_value_append {token : Text} (h : Token.IsValue token) (hquote : ∀ u, f ('"' :: u) = none)
    (hname : ∀ name, name ≠ [] → name.all Token.isNameChar → f (name ++ rest) = none) :
    readsFrom f .code (token ++ rest) = (f (token ++ rest)).toList ++ readsFrom f .code rest := by
  obtain ⟨u, name, rfl, hspells⟩ := h.exists_spells
  rw [List.cons_append, readsFrom_cons (by decide) (by decide)]
  refine congrArg _ ?_
  cases hspells with
  | bare hne hall =>
    refine readsFrom_append (fun c hc => ?_) fun x y he hy => ?_
    · have hchar := List.all_eq_true.mp hall c hc
      exact ⟨fun he => absurd hchar (by rw [he]; decide), fun he => absurd hchar (by rw [he]; decide)⟩
    · rw [he, List.all_append, Bool.and_eq_true] at hall
      exact hname y hy hall.2
  | quoted hnot =>
    rw [List.cons_append, List.append_assoc, readsFrom, if_pos rfl, hquote]
    exact readsFrom_quoted hnot

end Line

/-! ### Spellings of values -/

/-- The spelling by which values are compared: quotes only where the name needs them. -/
def Name.canonical (token : Text) : Text :=
  if '"' ∈ token then Name.value (Name.bare token) else token

theorem Name.canonical_value {name : Text} (h : '"' ∉ name) : canonical (value name) = value name := by
  rw [canonical, bare_value h, ite_self]

theorem Token.isValue_value {name : Text} (h : '"' ∉ name) : IsValue (Name.value name) := by
  have hread : read? '%' (Name.value name ++ []) = some (Name.value name, []) :=
    (Name.isToken_write '%' h).read?_append_iff.mpr fun c hc => by cases hc
  rwa [List.append_nil] at hread

/-! ### Definitions and operands -/

namespace Line

/-- The value that a line defines, and what stands behind the equals sign. -/
def define? (line : Text) : Option (Text × Text) :=
  (Token.read? '%' line.trimStart).bind fun (token, t) =>
    (Text.stripPrefix? t.trimStart "=").map fun rest => (token, rest)

/-- The value that a line defines. -/
def definitions (line : Text) : List Text :=
  ((define? line).map fun d => Name.canonical d.1).toList

/-- The value at the start of a text. -/
def valueAt? (t : Text) : Option Text :=
  (Token.read? '%' t).map fun x => Name.canonical x.1

/-- The values that a line uses. -/
def operands (line : Text) : List Text :=
  readsFrom valueAt? .code (((define? line).map Prod.snd).getD line.trimStart)

variable {line token rest : Text}

theorem define?_eq_some {blanks : Text} (h : line.trimStart = token ++ (blanks ++ (" =" ++ rest)))
    (htoken : Token.IsValue token) (hblanks : ∀ c ∈ blanks, Text.isBlank c) :
    define? line = some (token, rest) := by
  have hread : Token.read? '%' (token ++ (blanks ++ (" =" ++ rest))) = some (token, blanks ++ (" =" ++ rest)) := by
    refine htoken.read?_append fun c hc => ?_
    -- what follows is a blank
    have hblank : Text.isBlank c := by
      cases blanks with
      | nil => rw [← Option.some.inj hc]; decide
      | cons d blanks => exact Option.some.inj hc ▸ hblanks d List.mem_cons_self
    exact Token.isNameChar_of_isBlank hblank
  have htrim : Text.trimStart (blanks ++ (" =" ++ rest)) = "=" ++ rest := by
    rw [Text.trimStart, List.dropWhile_append_of_pos hblanks]
    rfl
  rw [define?, h, hread, Option.bind_some]
  dsimp only
  rw [htrim, Text.stripPrefix?_append]
  rfl

private theorem define?_eq_none (h : ∀ u, line.trimStart ≠ '%' :: u) : define? line = none := by
  rw [define?, Option.bind_eq_none_iff]
  intro x hx
  obtain ⟨u, hu⟩ := Token.exists_cons_of_read? hx
  exact absurd hu (h u)

/-- A line defines the value that it assigns. -/
theorem definitions_of_assigned? (h : assigned? line = some token) :
    definitions line = [Name.canonical token] := by
  obtain ⟨blanks, rest, hline, hblanks⟩ := exists_of_assigned? h
  have hsplit : line.takeWhile Text.isBlank ++ line.trimStart = line := List.takeWhile_append_dropWhile
  have htrim : line.trimStart = token ++ (blanks ++ (" =" ++ (' ' :: rest))) :=
    List.append_cancel_left (hsplit.trans hline)
  rw [definitions, define?_eq_some htrim (isValue_of_assigned? h) hblanks]
  rfl

/-- A line of the form `<value> = …` defines the value, and its operands stand behind the equals sign. -/
theorem of_define {lit more : Text} (h : line.trimStart = token ++ (lit ++ rest))
    (hlit : Text.stripPrefix? lit " =" = some more) (htoken : Token.IsValue token) :
    definitions line = [Name.canonical token] ∧ operands line = readsFrom valueAt? .code (more ++ rest) := by
  rw [Text.stripPrefix?_eq_some_iff.mp hlit, List.append_assoc, ← List.nil_append (_ ++ (more ++ rest))] at h
  have hdefine := define?_eq_some h htoken nofun
  rw [definitions, operands, hdefine]
  exact ⟨rfl, rfl⟩

/-- Other lines define nothing. -/
theorem of_not_define (h : ∀ u, line.trimStart ≠ '%' :: u) :
    definitions line = [] ∧ operands line = readsFrom valueAt? .code line.trimStart := by
  rw [definitions, operands, define?_eq_none h]
  exact ⟨rfl, rfl⟩

/-- There are no operands in text without sigils. -/
theorem valueAt?_eq_none {c : Char} (h : c ≠ '%') (t : Text) : valueAt? (c :: t) = none := by
  rw [valueAt?, Option.map_eq_none_iff, Option.eq_none_iff_forall_ne_some]
  intro x hx
  obtain ⟨u, hu⟩ := Token.exists_cons_of_read? hx
  exact h (List.cons.inj hu).1

/-- Text in which no value is read, and which does not end the code. -/
def noValues (t : Text) : Bool :=
  t.all fun c => c != '"' && c != ';' && c != '%'

/-- Text that ends a value before it. -/
def endsValue (t : Text) : Bool :=
  t.head?.any (!Token.isNameChar ·)

theorem endsValue_append {s : Text} (h : endsValue s) (t : Text) : endsValue (s ++ t) := by
  cases s with
  | nil => cases h
  | cons c s => exact h

theorem readsFrom_noValues_append {s : Text} (hs : noValues s) (rest : Text) :
    readsFrom valueAt? .code (s ++ rest) = readsFrom valueAt? .code rest := by
  have hchar : ∀ c ∈ s, (c ≠ '"' ∧ c ≠ ';') ∧ c ≠ '%' := by
    intro c hc
    simpa using List.all_eq_true.mp hs c hc
  refine readsFrom_append (fun c hc => (hchar c hc).1) fun x y he hy => ?_
  obtain ⟨c, y, rfl⟩ := List.exists_cons_of_ne_nil hy
  exact valueAt?_eq_none (hchar c (by rw [he]; simp)).2 _

theorem readsFrom_noValues {s : Text} (hs : noValues s) : readsFrom valueAt? .code s = [] := by
  have := readsFrom_noValues_append hs []
  rwa [List.append_nil] at this

theorem readsFrom_valueAt?_eq_nil {t : Text} (h : '%' ∉ t) (mode : Mode) : readsFrom valueAt? mode t = [] := by
  induction t generalizing mode with
  | nil => rfl
  | cons c t ih =>
    rw [List.mem_cons, not_or] at h
    rw [readsFrom, valueAt?_eq_none (Ne.symm h.1), ite_self, ih h.2]
    rfl

/-- A value that is used. -/
theorem readsFrom_valueAt?_value (h : Token.read? '%' (token ++ rest) = some (token, rest)) :
    readsFrom valueAt? .code (token ++ rest) = Name.canonical token :: readsFrom valueAt? .code rest := by
  have hname : ∀ name : Text, name ≠ [] → name.all Token.isNameChar → valueAt? (name ++ rest) = none := by
    intro name hne hall
    obtain ⟨c, name, rfl⟩ := List.exists_cons_of_ne_nil hne
    rw [List.all_cons, Bool.and_eq_true] at hall
    exact valueAt?_eq_none (fun he => absurd hall.1 (by rw [he]; decide)) _
  rw [readsFrom_value_append (Token.isValue_of_read? h) (valueAt?_eq_none (by decide)) hname, valueAt?, h]
  rfl

theorem readsFrom_isValue_append (h : Token.IsValue token) (hrest : endsValue rest) :
    readsFrom valueAt? .code (token ++ rest) = Name.canonical token :: readsFrom valueAt? .code rest :=
  readsFrom_valueAt?_value (h.read?_append fun c hc => by simpa [endsValue, hc] using hrest)

end Line

end Freestanding
