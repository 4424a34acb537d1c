import Freestanding.Proofs.Name.Plain
import Freestanding.Proofs.Token.Joining
import Mathlib.Data.Set.Function

/-!
# Names survive being written

A name may be any text: it may start with a digit or a sigil, hold blanks and line feeds, or be empty.  As
long as it holds no quotes it can be written as a symbol and as a value, and what is written is one token
that gives the name back.  Three things have to agree on this: when a name is put in quotes, how far a token
is read, and what is taken off a token to get at its name.

## Main definitions

* `Name.Faithful` — a text is one token wherever it stands by itself, and its name is the given one.

## Main results

* `Name.isToken_write`, `Name.bare_write` — **a name that is written is one token, and gives the name
  back.**
* `Name.quoting_faithful` — names and mangled names as symbols and as values.
-/

namespace Freestanding.Name

open Token

variable {sigil : Char} {name : Text}

/-- The name of a token is a part of it. -/
theorem bare_isInfix (token : Text) : bare token <:+: token :=
  (Text.dropWhileEnd_isPrefix _ _).isInfix.trans
    ((List.dropWhile_suffix _).trans (List.dropWhile_suffix _)).isInfix

/-- Only sigils and quotes are taken off. -/
theorem mem_bare {token : Text} {c : Char} (hsigil : c ≠ '@' ∧ c ≠ '%') (hquote : c ≠ '"') (h : c ∈ token) :
    c ∈ bare token :=
  Text.mem_dropWhileEnd (by simpa using hquote)
    (Text.mem_dropWhile (by simpa using hquote) (Text.mem_dropWhile (by simpa using hsigil) h))

/-- A name without quotes is spelled by what is written for it. -/
theorem exists_write_eq (sigil : Char) (h : '"' ∉ name) :
    ∃ u, write sigil name = sigil :: u ∧ Spells ('@' :: u) name := by
  unfold write
  split
  · next hid =>
    refine ⟨name, rfl, ?_⟩
    cases name with
    | nil => cases hid
    | cons c name =>
      simp only [isIdentifier, Bool.and_eq_true] at hid
      refine .bare (by simp) ?_
      rw [List.all_cons, hid.1.1, hid.2]
      rfl
  · exact ⟨_, rfl, .quoted h⟩

/-- **Writing a name keeps the name.** -/
theorem bare_write (hsigil : sigil = '@' ∨ sigil = '%') (h : '"' ∉ name) : bare (write sigil name) = name := by
  obtain ⟨u, he, hspells⟩ := exists_write_eq sigil h
  have hbare : bare (sigil :: u) = bare ('@' :: u) := by
    rcases hsigil with rfl | rfl <;> rfl
  rw [he, hbare, hspells.bare_eq]

theorem bare_symbol (h : '"' ∉ name) : bare (symbol name) = name :=
  bare_write (.inl rfl) h

theorem bare_value (h : '"' ∉ name) : bare (value name) = name :=
  bare_write (.inr rfl) h

theorem isToken_write (sigil : Char) (h : '"' ∉ name) : IsToken sigil (write sigil name) := by
  obtain ⟨u, he, hspells⟩ := exists_write_eq sigil h
  rw [he]
  cases hspells with
  | bare hne hname => exact .inr ⟨name, hne, List.all_eq_true.mp hname, rfl⟩
  | quoted hname => exact .inl ⟨name, hname, rfl⟩

/-- The text is one token that gives the name back.  It is read as a whole exactly where no character behind
it continues it, and in a longer text it is one piece of the cut exactly if, besides, no quotes that are left
open before it are closed in it or behind it. -/
structure Faithful (sigil : Char) (token name : Text) : Prop where
  /-- It is a token. -/
  isToken : IsToken sigil token
  /-- Its name is the name. -/
  bare_eq : bare token = name
  /-- Where it is read. -/
  read_iff : ∀ after, read? sigil (token ++ after) = some (token, after) ↔
    ∀ c, after.head? = some c → ¬ Continues sigil token c
  /-- Where it is found. -/
  segments_iff : ∀ before after,
    segments sigil (before ++ (token ++ after)) = segments sigil before ++ .token token :: segments sigil after ↔
      (∀ c, after.head? = some c → ¬ Continues sigil token c) ∧ (LeavesOpen sigil before → '"' ∉ token ++ after)

private theorem faithful_write (hsigil : sigil = '@' ∨ sigil = '%') (h : '"' ∉ name) :
    Faithful sigil (write sigil name) name := by
  have htoken := isToken_write sigil h
  refine ⟨htoken, bare_write hsigil h, fun after => htoken.read?_append_iff, fun before after => ?_⟩
  apply htoken.segments_eq_iff
  · rcases hsigil with rfl | rfl <;> decide
  · rcases hsigil with rfl | rfl <;> decide

private theorem quote_notMem_mangle (p : ScopePath) (name : Text) : '"' ∉ p.mangle name :=
  (ScopePath.plain_mangle p name).notMem (by decide)

/-- **Names survive being written.**  Every name without quotes is written as a symbol and as a value that
is one token and gives the name back; so different names are written differently.  The mangled name of any
member of any scope is such a name. -/
theorem quoting_faithful :
    (∀ name, '"' ∉ name → Faithful '@' (symbol name) name ∧ Faithful '%' (value name) name) ∧
    Set.InjOn symbol {name | '"' ∉ name} ∧ Set.InjOn value {name | '"' ∉ name} ∧
    ∀ (p : ScopePath) (name : Text), Faithful '@' (symbol (p.mangle name)) (p.mangle name) ∧
      Faithful '%' (value (p.mangle name)) (p.mangle name) := by
  have hfaithful : ∀ name, '"' ∉ name → Faithful '@' (symbol name) name ∧ Faithful '%' (value name) name :=
    fun _ h => ⟨faithful_write (.inl rfl) h, faithful_write (.inr rfl) h⟩
  refine ⟨hfaithful, ?_, ?_, fun p name => hfaithful _ (quote_notMem_mangle p name)⟩
  · have hinverse : Set.LeftInvOn bare symbol {name | '"' ∉ name} := fun _ h => bare_symbol h
    exact hinverse.injOn
  · have hinverse : Set.LeftInvOn bare value {name | '"' ∉ name} := fun _ h => bare_value h
    exact hinverse.injOn

/-- A name that looks like two tokens and the start of a third. -/
def crowded : Text :=
  "5 @f%x\n@"

/-- It is written in quotes, so that not even a letter continues it, and it is found behind a complete symbol
but not behind quotes that are left open. -/
theorem quoting_faithful_crowded : '"' ∉ crowded ∧ bare (symbol crowded) = crowded ∧
    segments '@' ("@\"a b\"" ++ (symbol crowded ++ "z")) =
      [.token "@\"a b\"", .token "@\"5 @f%x\n@\"", .gap 'z'] ∧
    segments '@' ("@\"a b" ++ (symbol crowded ++ "z")) ≠
      segments '@' "@\"a b" ++ .token (symbol crowded) :: segments '@' "z" := by
  have hquote : '"' ∉ crowded := by decide
  obtain ⟨hsymbol, -⟩ := quoting_faithful.1 crowded hquote
  refine ⟨hquote, hsymbol.bare_eq, ?_, ?_⟩
  · refine ((hsymbol.segments_iff _ _).mpr ⟨fun c _ => not_continues_quoted hquote c, fun hopen => ?_⟩).trans ?_
    · exact absurd hopen (by decide)
    · decide
  · intro hcut
    exact absurd (((hsymbol.segments_iff _ _).mp hcut).2 (by decide)) (by decide)

end Freestanding.Name
