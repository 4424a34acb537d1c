import Freestanding.Text.Basic

/-!
# Tokens

A global symbol is written `@name` and a local value `%name`; a name of other characters than those of
a bare name stands in double quotes.  This module reads such tokens off a text.  A bare token extends
as far as it can, a quoted one to the next quote, and a sigil that starts no token is ordinary text.

## Main definitions

* `Token.read?` — the token at the start of a text.
* `Token.segments` — a text cut into tokens and the characters between them.
* `Token.all` — the tokens of a text in order.
* `Token.named?` — the token at the start of a text, unless it names nothing.

## Main results

* `Token.append_eq_of_read?` — reading a token splits the text.
* `Token.segments_cons` — the cut, character by character.
* `Token.flatten_segments` — cutting loses nothing.
-/

namespace Freestanding.Token

/-- A character of a bare name. -/
def isNameChar (c : Char) : Bool :=
  c.isAlphanum || c == '-' || c == '$' || c == '.' || c == '_'

/-- The name up to the next quote, and what follows the quote. -/
def quotedName? (t : Text) : Option (Text × Text) :=
  match t.dropWhile (· != '"') with
  | [] => none
  | _ :: rest => some (t.takeWhile (· != '"'), rest)

/-- The token with the given sigil at the start of a text, and what follows it. -/
def read? (sigil : Char) : Text → Option (Text × Text)
  | [] => none
  | c :: t =>
    if c = sigil then
      match t with
      | '"' :: u => (quotedName? u).map fun (name, rest) => (c :: '"' :: (name ++ ['"']), rest)
      | _ => (Text.run? isNameChar t).map fun (name, rest) => (c :: name, rest)
    else none

/-- The token at the start of a text, where a pair of quotes with nothing between is no token. -/
def named? (sigil : Char) (t : Text) : Option (Text × Text) :=
  (read? sigil t).filter fun (token, _) => token != [sigil, '"', '"']

private theorem append_eq_of_quotedName? {t name rest : Text} (h : quotedName? t = some (name, rest)) :
    name ++ '"' :: rest = t := by
  unfold quotedName? at h
  split at h
  · cases h
  · rename_i c tail hd
    obtain ⟨rfl, rfl⟩ : t.takeWhile (· != '"') = name ∧ tail = rest := by simpa using h
    have hc : c = '"' := by
      have := List.head?_dropWhile_not (· != '"') t
      simpa [hd] using this
    rw [hc] at hd
    rw [← hd, List.takeWhile_append_dropWhile]

theorem append_eq_of_run? {p : Char → Bool} {t name rest : Text}
    (h : Text.run? p t = some (name, rest)) : name ++ rest = t ∧ name ≠ [] := by
  unfold Text.run? at h
  split at h
  · cases h
  · rename_i c cs ht
    obtain ⟨rfl, rfl⟩ : c :: cs = name ∧ t.dropWhile p = rest := by simpa using h
    exact ⟨by rw [← ht, List.takeWhile_append_dropWhile], by simp⟩

/-- A token and what follows it make up the text that was read. -/
theorem append_eq_of_read? {sigil : Char} {t token rest : Text}
    (h : read? sigil t = some (token, rest)) : token ++ rest = t ∧ token ≠ [] := by
  unfold read? at h
  split at h
  · cases h
  · rename_i c t
    split at h
    · split at h
      · rename_i u
        obtain ⟨⟨name, after⟩, hq, he⟩ := Option.map_eq_some_iff.mp h
        obtain ⟨rfl, rfl⟩ : c :: '"' :: (name ++ ['"']) = token ∧ after = rest := by simpa using he
        simp [← append_eq_of_quotedName? hq]
      · obtain ⟨⟨name, after⟩, hr, he⟩ := Option.map_eq_some_iff.mp h
        obtain ⟨rfl, rfl⟩ : c :: name = token ∧ after = rest := by simpa using he
        simp [← (append_eq_of_run? hr).1]
    · cases h

/-! ### Cutting a text into tokens -/

/-- A piece of a text that has been cut into tokens. -/
inductive Segment
  /-- A character that belongs to no token. -/
  | gap (c : Char)
  /-- A token. -/
  | token (t : Text)
  deriving DecidableEq, Repr

/-- The characters of a segment. -/
def Segment.text : Segment → Text
  | .gap c => [c]
  | .token t => t

/-- The token of a segment, if it is one. -/
def Segment.token? : Segment → Option Text
  | .gap _ => none
  | .token t => some t

/-- The segments of a text whose first `skip` characters belong to a token that has been read. -/
def segmentsAfter (sigil : Char) : (skip : Nat) → Text → List Segment
  | _, [] => []
  | k + 1, _ :: t => segmentsAfter sigil k t
  | 0, c :: t =>
    match read? sigil (c :: t) with
    | some (token, _) => .token token :: segmentsAfter sigil (token.length - 1) t
    | none => .gap c :: segmentsAfter sigil 0 t

/-- A text cut into the tokens of a sigil, found from left to right, and the characters between. -/
def segments (sigil : Char) (t : Text) : List Segment :=
  segmentsAfter sigil 0 t

private theorem segmentsAfter_eq_segments_drop (sigil : Char) (k : Nat) (t : Text) :
    segmentsAfter sigil k t = segments sigil (t.drop k) := by
  induction k generalizing t with
  | zero => rfl
  | succ k ih =>
    cases t with
    | nil => simp [segments, segmentsAfter]
    | cons c t => simpa [segmentsAfter] using ih t

@[simp] theorem segments_nil (sigil : Char) : segments sigil [] = [] := by
  simp [segments, segmentsAfter]

/-- At each position either a token is taken off the text or one character. -/
theorem segments_cons (sigil c : Char) (t : Text) :
    segments sigil (c :: t) =
      match read? sigil (c :: t) with
      | some (token, rest) => .token token :: segments sigil rest
      | none => .gap c :: segments sigil t := by
  rw [segments, segmentsAfter]
  split
  · rename_i token rest h
    obtain ⟨heq, hne⟩ := append_eq_of_read? h
    obtain ⟨d, token, rfl⟩ := List.exists_cons_of_ne_nil hne
    obtain ⟨rfl, rfl⟩ : d = c ∧ token ++ rest = t := by simpa using heq
    simp [segmentsAfter_eq_segments_drop]
  · rfl

/-- The segments of a text are its characters again. -/
theorem flatten_segments (sigil : Char) (t : Text) :
    (segments sigil t).flatMap Segment.text = t := by
  induction hn : t.length using Nat.strongRecOn generalizing t with
  | ind n ih =>
    cases t with
    | nil => simp
    | cons c t =>
      rw [segments_cons]
      split
      · rename_i token rest h
        obtain ⟨heq, hne⟩ := append_eq_of_read? h
        have hlt : rest.length < n := by
          have := congrArg List.length heq
          have := List.length_pos_iff.mpr hne
          simp at *
          omega
        rw [List.flatMap_cons, ih _ hlt rest rfl, Segment.text, heq]
      · rw [List.flatMap_cons, ih _ (by simp at hn; omega) t rfl, Segment.text]
        rfl

/-- The tokens of a text, from left to right. -/
def all (sigil : Char) (t : Text) : List Text :=
  (segments sigil t).filterMap Segment.token?

/-- The global symbols mentioned in a text, from left to right. -/
def globals (t : Text) : List Text :=
  all '@' t

/-- The local values mentioned in a text, from left to right. -/
def locals (t : Text) : List Text :=
  all '%' t

end Freestanding.Token
