import Freestanding.Proofs.Listing.NewNames
import Freestanding.Proofs.Listing.Page

/-!
# Lines and definitions under new names

The lines of a listing and its definitions stand under new names in the file that is printed.  Read again,
each is of the same kind as before, and what it is about has the new name.

## Main definitions

* `TopLevel.Reads` — a line that is read as it stands.

## Main results

* `Definition.Delimited.rename` — a definition under new names is delimited.
* `TopLevel.Reads.rename_constant`, `TopLevel.Reads.rename_declaration` — **a line under new names is read
  as a line about the new name.**
-/

namespace Freestanding

open Token

/-! ### Definitions -/

theorem Text.rename_append_of_notMem (r : Renaming) {before : Text} (h : '@' ∉ before) (after : Text) :
    Text.rename r (before ++ after) = before ++ Text.rename r after := by
  induction before with
  | nil => rfl
  | cons c before ih =>
    obtain ⟨hc, h⟩ := List.ne_and_not_mem_of_not_mem_cons h
    rw [List.cons_append, Text.rename_cons r hc.symm, ih h]
    rfl

/-- **A definition under new names is delimited.** -/
theorem Definition.Delimited.rename {name header body : Text} (h : Delimited name header body) {r : Renaming}
    (hr : r.Gentle) (hfirst : NamedFirst header) :
    Delimited (r.apply name) (header.rename r) (body.rename r) where
  line := (hr.respelled header).notMem (.inr rfl) h.line
  defines := by
    rw [Text.congr_of_front (isDefineLine_append_cons (by decide +kernel)) (hr.respelled header).front_eq]
    exact h.defines
  brace := (hr.respelled header).getLast?_brace h.brace
  named := hr.nameIn?_rename hfirst h.named
  broken := by
    obtain ⟨blanks, rest, hbody, hblanks⟩ := h.broken
    refine ⟨blanks, Text.rename r rest, ?_, hblanks⟩
    have hsigil : '@' ∉ blanks := fun hmem => absurd (hblanks _ hmem).1 (by decide)
    rw [hbody, Text.rename_append_of_notMem r hsigil, Text.rename_cons r (by decide)]
  calm := by
    rw [((hr.respelled body).append_right _).opens_eq]
    exact h.calm
  closed := by
    rw [(hr.respelled body).scan_eq]
    exact h.closed

/-! ### Lines -/

namespace TopLevel

/-- The line is read as it stands: it is one line, nothing is trimmed off, and it is of the given kind. -/
structure Reads (line : Text) (k : TopLevel) : Prop where
  /-- It is one line. -/
  single : '\n' ∉ line
  /-- Nothing is trimmed off. -/
  trim_eq : line.trim = line
  /-- It is of the kind. -/
  ofTrimmed?_eq : ofTrimmed? line = some k

variable {line symbol : Text} {k : TopLevel} {r : Renaming}

theorem Reads.ofLine?_eq (h : Reads line k) : ofLine? line = some k := by
  rw [ofLine?, h.trim_eq, h.ofTrimmed?_eq]

/-- A line that starts a definition is not kept. -/
theorem ofTrimmed?_of_isDefineLine (h : Definition.isDefineLine line) : ofTrimmed? line = none := by
  unfold Definition.isDefineLine at h
  split at h
  · next rest hrest =>
    rw [Text.stripPrefix?_eq_some_iff.mp hrest]
    rfl
  · cases h

theorem Reads.legible (h : Reads line k) : Piece.Legible (.line line) := by
  refine .line h.single ?_
  rw [Bool.eq_false_iff]
  intro hdefine
  have hnone := ofTrimmed?_of_isDefineLine hdefine
  rw [h.ofTrimmed?_eq] at hnone
  cases hnone

/-- What a line is kept as. -/
inductive KeptAs (line : Text) : TopLevel → Prop
  /-- A line about the target machine stands for itself, -/
  | target : KeptAs line (.target line)
  /-- so does an attribute group, -/
  | attributes : KeptAs line (.attributes line)
  /-- and metadata. -/
  | metadata : KeptAs line (.metadata line)
  /-- A declaration stands under its symbol. -/
  | declaration (symbol : Text) (hstart : line.startsWith "declare ")
      (hname : Definition.nameIn? line = some symbol) (hservice : isService (Name.bare symbol) = false) :
      KeptAs line (.declaration symbol line)
  /-- An address stands under its symbol, -/
  | address (symbol : Text) (a : UInt64) : KeptAs line (.address symbol a)
  /-- and so does a constant. -/
  | constant (symbol value : Text) (hassign : assignment? line = some (symbol, value))
      (haddress : Line.address? value = none) : KeptAs line (.constant symbol line)

theorem keptAs_of_ofTrimmed? (h : ofTrimmed? line = some k) : KeptAs line k := by
  unfold ofTrimmed? at h
  split at h
  · cases h
  · split at h
    · obtain rfl := Option.some.inj h
      exact .target
    · split at h
      · next hstart =>
        rw [Option.bind_eq_bind, Option.bind_eq_some_iff] at h
        obtain ⟨symbol, hname, h⟩ := h
        split at h
        · cases h
        · next hservice =>
          obtain rfl := Option.some.inj h
          exact .declaration symbol hstart hname (by simpa using hservice)
      · split at h
        · obtain rfl := Option.some.inj h
          exact .attributes
        · split at h
          · obtain rfl := Option.some.inj h
            exact .metadata
          · rw [Option.bind_eq_bind, Option.bind_eq_some_iff] at h
            obtain ⟨⟨symbol, value⟩, hassign, h⟩ := h
            dsimp only at h
            split at h
            · obtain rfl := Option.some.inj h
              exact .address symbol _
            · next haddress =>
              obtain rfl := Option.some.inj h
              exact .constant symbol value hassign haddress

/-- A line under new names is still one line with nothing to trim off. -/
theorem Reads.rename (h : Reads line k) (hr : r.Gentle) {k' : TopLevel}
    (hk : ofTrimmed? (line.rename r) = some k') : Reads (line.rename r) k' := by
  have hresp := hr.respelled line
  refine ⟨hresp.notMem (.inr rfl) h.single, ?_, hk⟩
  have htrim := h.trim_eq
  exact Text.trim_eq_self (hresp.head?_solid (htrim ▸ Text.head?_trim line))
    (hresp.getLast?_solid (htrim ▸ Text.getLast?_trim line))

/-- **A declaration under new names declares the new name.** -/
theorem Reads.rename_declaration (h : Reads line (.declaration symbol line)) (hr : r.Gentle)
    (hfirst : Definition.NamedFirst line) (hservice : isService (Name.bare (r.apply symbol)) = false) :
    Reads (line.rename r) (.declaration (r.apply symbol) (line.rename r)) := by
  refine h.rename hr ?_
  obtain ⟨hstart, hname⟩ : line.startsWith "declare " ∧ Definition.nameIn? line = some symbol := by
    have hkept := keptAs_of_ofTrimmed? h.ofTrimmed?_eq
    cases hkept with
    | declaration _ hstart hname _ => exact ⟨hstart, hname⟩
  have hstart' : Text.startsWith (line.rename r) "declare " := by
    obtain ⟨rest, rfl⟩ := Text.startsWith_iff.mp hstart
    rw [Text.rename_append_of_notMem r (by decide)]
    exact Text.startsWith_iff.mpr ⟨_, rfl⟩
  rw [ofTrimmed?_of_declare hstart', hr.nameIn?_rename hfirst hname, Option.bind_some, hservice]
  rfl

private theorem trimStart_rename (hr : r.Gentle) (t : Text) :
    (t.rename r).trimStart = t.trimStart.rename r := by
  have hsplit : t.takeWhile Text.isBlank ++ t.trimStart = t := List.takeWhile_append_dropWhile
  have hblanks : ∀ c ∈ t.takeWhile Text.isBlank, Text.isBlank c := fun c hc => List.mem_takeWhile_imp hc
  have hsigil : '@' ∉ t.takeWhile Text.isBlank := fun hmem => absurd (hblanks _ hmem) (by decide)
  have hrename : t.rename r = t.takeWhile Text.isBlank ++ t.trimStart.rename r := by
    rw [← Text.rename_append_of_notMem r hsigil, hsplit]
  rw [hrename, Text.trimStart, List.dropWhile_append_of_pos hblanks]
  exact Text.dropWhile_eq_self ((hr.respelled _).head?_solid (Text.head?_trimStart t))

theorem assignment?_eq_some_iff {value : Text} : assignment? line = some (symbol, value) ↔
    ∃ rest assigned : Text, named? '@' line = some (symbol, rest) ∧ rest.trimStart = '=' :: assigned ∧
      assigned.trimStart = value ∧ value ≠ [] := by
  unfold assignment?
  rw [Option.bind_eq_bind, Option.bind_eq_some_iff]
  constructor
  · intro h
    obtain ⟨⟨token, rest⟩, hnamed, h⟩ := h
    rw [Option.bind_eq_bind, Option.bind_eq_some_iff] at h
    obtain ⟨assigned, hassigned, h⟩ := h
    split at h
    · cases h
    · next hne =>
      obtain ⟨rfl, rfl⟩ := Prod.mk.inj (Option.some.inj h)
      exact ⟨rest, assigned, hnamed, Text.stripPrefix?_eq_some_iff.mp hassigned, rfl, hne⟩
  · intro h
    obtain ⟨rest, assigned, hnamed, hassigned, rfl, hne⟩ := h
    refine ⟨(symbol, rest), hnamed, ?_⟩
    rw [Option.bind_eq_bind, Option.bind_eq_some_iff]
    refine ⟨assigned, Text.stripPrefix?_eq_some_iff.mpr hassigned, ?_⟩
    split
    · next hnil => exact absurd hnil hne
    · rfl

/-- **An assignment under new names assigns to the new name.** -/
theorem assignment?_rename (hr : r.Gentle) {value : Text} (h : assignment? line = some (symbol, value)) :
    assignment? (line.rename r) = some (r.apply symbol, value.rename r) := by
  obtain ⟨rest, assigned, hnamed, hassigned, rfl, hne⟩ := assignment?_eq_some_iff.mp h
  have hread := (Option.filter_eq_some_iff.mp hnamed).1
  have hnew := hr.named_apply (named_of_named? hnamed).2
  have hrest : (rest.rename r).trimStart = '=' :: assigned.rename r := by
    rw [trimStart_rename hr, hassigned, Text.rename_cons r (by decide)]
  -- what follows the symbol is a blank or the equality sign
  have hend : ∀ c, (rest.rename r).head? = some c → isNameChar c = false := by
    intro c hc
    obtain ⟨tail, he⟩ := List.head?_eq_some_iff.mp hc
    by_cases hblank : Text.isBlank c
    · exact isNameChar_of_isBlank hblank
    · rw [he, Text.trimStart, List.dropWhile_cons_of_neg hblank] at hrest
      rw [(List.cons.inj hrest).1]
      decide
  refine assignment?_eq_some_iff.mpr ⟨rest.rename r, assigned.rename r, ?_, hrest, trimStart_rename hr _, ?_⟩
  · rw [Text.rename_of_read? r hread]
    exact hnew.named?_append hend
  · intro hnil
    exact hne ((hr.respelled _).eq_nil_iff.mp hnil)

/-- **A constant under new names defines the new name.** -/
theorem Reads.rename_constant (h : Reads line (.constant symbol line)) (hr : r.Gentle) :
    Reads (line.rename r) (.constant (r.apply symbol) (line.rename r)) := by
  refine h.rename hr ?_
  have hkept := keptAs_of_ofTrimmed? h.ofTrimmed?_eq
  cases hkept with
  | constant _ value hassign haddress =>
    rw [ofTrimmed?_of_assignment (assignment?_rename hr hassign), (hr.respelled value).address?_eq, haddress]

/-- The symbol of a constant has a name. -/
theorem Reads.named_constant (h : Reads line (.constant symbol line)) : Named symbol := by
  have hkept := keptAs_of_ofTrimmed? h.ofTrimmed?_eq
  cases hkept with
  | constant _ value hassign _ =>
    obtain ⟨rest, assigned, hnamed, -⟩ := assignment?_eq_some_iff.mp hassign
    exact (named_of_named? hnamed).2

end TopLevel

end Freestanding
