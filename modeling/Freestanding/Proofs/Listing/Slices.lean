import Freestanding.Proofs.Listing.NewNames
import Freestanding.Proofs.Listing.Page
import Freestanding.Proofs.Token.Joining

/-!
# Definitions as parts of a dump

A definition of a dump is a part of its text: a line that ends with an opening brace, and all that follows
up to the partner of the brace.  Braces in quotes and comments do not count.  The listing of a function
has these parts, with the new names of symbols: first the function itself, then all others with compiled
names in their order.  A name is compiled if its number has 64 bits, and a definition with a larger number is
left out.

New names are given to header and body apart.  This is the same as giving them to the part of the dump,
unless a quoted symbol begins in the header and ends in the body.

## Main definitions

* `CompiledName.Of`, `IsCompiled` — compiled names, said by their spelling.
* `Definition.Slices`, `Definition.Sliceable` — a definition as a part of a dump, and dumps all of whose
  definitions are such parts.
* `Text.LeavesOpen` — a quoted symbol begins in a text and does not end there.
* `Listing.SelfFirst` — a listing of the parts of a dump.

## Main results

* `CompiledName.of_iff` — compiled names are those that can be read.
* `Definition.Slices.read_eq` — such parts are read.
* `Text.rename_append_of_closed` — new names for two texts.
* `Listing.ofDump_slices` — **the listing of a dump has the parts of the dump, the function first.**
-/

namespace Freestanding

open Token

/-! ### Compiled names -/

namespace CompiledName

variable {symbol stem : Text}

/-- The symbol is spelled `julia_<stem>_<digits>`, with a number of 64 bits. -/
def Of (symbol stem : Text) : Prop :=
  stem ≠ [] ∧ '\n' ∉ stem ∧ ∃ digits n, Name.bare symbol = "julia_" ++ (stem ++ '_' :: digits) ∧
    Text.toNat? digits = some n ∧ n < UInt64.size

/-- **Compiled names are those that can be read.** -/
theorem of_iff : Of symbol stem ↔ (parse? symbol).map CompiledName.stem = some stem := by
  rw [Option.map_eq_some_iff]
  constructor
  · intro ⟨hne, hline, digits, n, hbare, hn, hlt⟩
    obtain ⟨hdigits, hall, hvalue⟩ := Text.toNat?_eq_some_iff.mp hn
    refine ⟨⟨stem, n.toUInt64⟩, parse?_eq_some_iff.mpr ⟨hne, hline, digits, hbare, hdigits, hall, ?_⟩, rfl⟩
    exact hvalue.trans (UInt64.toNat_ofNat_of_lt' hlt).symm
  · rintro ⟨c, hc, rfl⟩
    obtain ⟨hne, hline, digits, hbare, hword⟩ := parse?_eq_some_iff.mp hc
    exact ⟨hne, hline, digits, c.counter.toNat, hbare, Text.toNat?_eq_some_iff.mpr hword, c.counter.toNat_lt_size⟩

instance (symbol stem : Text) : Decidable (Of symbol stem) :=
  decidable_of_iff _ of_iff.symm

end CompiledName

/-- The symbol is a compiled name. -/
def IsCompiled (symbol : Text) : Prop :=
  ∃ stem, CompiledName.Of symbol stem

theorem isCompiled_iff {symbol : Text} : IsCompiled symbol ↔ (CompiledName.parse? symbol).isSome := by
  simp only [IsCompiled, CompiledName.of_iff, Option.isSome_iff_exists, Option.map_eq_some_iff]
  constructor
  · exact fun ⟨_, c, hc, _⟩ => ⟨c, hc⟩
  · exact fun ⟨c, hc⟩ => ⟨c.stem, c, hc, rfl⟩

instance (symbol : Text) : Decidable (IsCompiled symbol) :=
  decidable_of_iff _ isCompiled_iff.symm

/-! ### Definitions -/

namespace Definition

variable {dump : Text} {x : Nat × Text} {d : Definition}

/-- The lines of a dump that start definitions, each with its place. -/
def defineLines (dump : Text) : List (Nat × Text) :=
  (placedLines dump).filter fun x => isDefineLine x.2

/-- The part of a dump that a definition covers. -/
def slice (dump : Text) (d : Definition) : Text :=
  (dump.drop d.start).take (d.stop - d.start)

/-- The text of a definition. -/
def text (d : Definition) : Text :=
  Listing.functionText d.header d.body

/-- A line starts a definition that is a part of the dump. -/
structure Slices (dump : Text) (x : Nat × Text) (d : Definition) : Prop where
  /-- The definition starts with the line -/
  start_eq : d.start = x.1
  /-- and is as long as its text, -/
  stop_eq : d.stop = d.start + d.text.length
  /-- which stands there in the dump. -/
  slice_eq : d.slice dump = d.text
  /-- The header is the line without blanks at its end, -/
  header_eq : x.2.trimEnd = d.header
  /-- and its last character is the opening brace. -/
  brace : d.header.getLast? = some '\x7b'
  /-- The closing brace is the partner of the opening one. -/
  closed : Region.scan '\x7b' '\x7d' (.code, 1) d.body = some (.code, 1)
  /-- The name has at least one character -/
  named : Named d.name
  /-- and is the first symbol of the header. -/
  first : ∃ rest, Text.first? (read? '@') d.header = some (d.name, '(' :: rest)

/-- Each line that starts a definition starts one that is a part of the dump. -/
def Sliceable (dump : Text) : Prop :=
  ∀ x ∈ defineLines dump, ∃ d, Slices dump x d

/-- The first symbol of a line names it, if a parameter list follows. -/
theorem nameIn?_of_first? {line name rest : Text} (hname : Named name)
    (h : Text.first? (read? '@') line = some (name, '(' :: rest)) : nameIn? line = some name := by
  obtain ⟨before, after, rfl, hread, hbefore⟩ := Text.first?_eq_some_iff.mp h
  refine Text.first?_eq_some_iff.mpr ⟨before, after, rfl, ?_, fun x y he hy => ?_⟩
  · rw [← (append_eq_of_read? hread).1]
    exact calledName?_append hname rest
  · exact calledName?_eq_none (hbefore x y he hy)

namespace Slices

/-- **A definition that is a part of the dump is read.** -/
theorem read_eq (h : Slices dump x d) (function : Text) : read function dump x.1 x.2 = .ok d := by
  obtain ⟨rest, hfirst⟩ := h.first
  have hstop : d.stop = x.1 + (Listing.functionText d.header d.body).length := h.start_eq ▸ h.stop_eq
  have hslice : (dump.drop x.1).take d.text.length = d.text := by
    have hslice := h.slice_eq
    rwa [slice, h.stop_eq, Nat.add_sub_cancel_left, h.start_eq] at hslice
  have hdrop : dump.drop x.1 = d.text ++ (dump.drop x.1).drop d.text.length := by
    conv_lhs => rw [← List.take_append_drop d.text.length (dump.drop x.1), hslice]
  rw [read_eq_of_drop h.header_eq h.brace (nameIn?_of_first? h.named hfirst) h.closed hdrop, ← hstop, ← h.start_eq]

/-- The body goes on in the next line. -/
theorem exists_body_eq (h : Slices dump x d) (hx : x ∈ defineLines dump) :
    ∃ blanks rest, d.body = blanks ++ '\n' :: rest ∧ ∀ c ∈ blanks, Text.isBlank c := by
  obtain ⟨-, -, blanks, rest, -, -, -, hblanks, hbody, -⟩ :=
    exists_of_read (List.mem_of_mem_filter hx) (h.read_eq [])
  exact ⟨blanks, rest, hbody, fun c hc => (hblanks c hc).1⟩

end Slices

/-- **The parts of a dump are the definitions that are read**, if their names come first. -/
theorem slices_iff (hx : x ∈ placedLines dump) (function : Text) :
    Slices dump x d ↔ read function dump x.1 x.2 = .ok d ∧ NamedFirst d.header := by
  constructor
  · intro h
    obtain ⟨rest, hfirst⟩ := h.first
    refine ⟨h.read_eq function, fun name hname => ⟨rest, ?_⟩⟩
    rw [nameIn?_of_first? h.named hfirst] at hname
    rw [hfirst, Option.some.inj hname]
  · intro ⟨hread, hfirst⟩
    obtain ⟨hheader, hbrace, hname, hstart, hstop, -⟩ := read_eq_ok hread
    obtain ⟨before, after, -, -, hdump, hbefore, -, -, -, -, hclosed⟩ := exists_of_read hx hread
    have hlen : d.stop = d.start + d.text.length := by
      have hpos : 0 < d.header.length := List.length_pos_of_mem (List.mem_of_getLast? hbrace)
      have htext : d.text.length = d.header.length + d.body.length + 1 := by
        rw [text, Listing.functionText, List.length_append, List.length_append]
        rfl
      omega
    have hslice : d.slice dump = d.text := by
      rw [slice, hlen, Nat.add_sub_cancel_left, hstart, ← hbefore, hdump, List.drop_left]
      exact List.take_left
    exact ⟨hstart, hlen, hslice, hheader, hbrace, hclosed, named_of_nameIn? hname, hfirst _ hname⟩

instance (dump : Text) : Decidable (Sliceable dump) :=
  decidable_of_iff ((defineLines dump).all fun x =>
      match read [] dump x.1 x.2 with
      | .ok d => decide (NamedFirst d.header)
      | .error _ => false) <| by
    rw [List.all_eq_true]
    refine forall₂_congr fun x hx => ?_
    simp only [slices_iff (List.mem_of_mem_filter hx) []]
    cases read [] dump x.1 x.2 <;> simp

/-- **All definitions of a dump are read, if they are parts of it.** -/
theorem Sliceable.exists_all (h : Sliceable dump) :
    ∃ ds, List.Forall₂ (Slices dump) (defineLines dump) ds ∧ ∀ function, all function dump = .ok ds := by
  have hlines : ∀ xs : List (Nat × Text), (∀ x ∈ xs, ∃ d, Slices dump x d) →
      ∃ ds, List.Forall₂ (Slices dump) xs ds := by
    intro xs h
    induction xs with
    | nil => exact ⟨[], .nil⟩
    | cons x xs ih =>
      obtain ⟨d, hd⟩ := h x List.mem_cons_self
      obtain ⟨ds, hds⟩ := ih fun y hy => h y (List.mem_cons_of_mem x hy)
      exact ⟨d :: ds, .cons hd hds⟩
  obtain ⟨ds, hds⟩ := hlines _ h
  exact ⟨ds, hds, fun function => Except.mapM_eq_ok_iff.mpr (hds.imp fun _ _ hd => hd.read_eq function)⟩

end Definition

/-! ### New names for two texts -/

/-- A quoted symbol begins in the text and does not end there. -/
def Text.LeavesOpen (t : Text) : Prop :=
  [.gap '@', .gap '"'] <:+: segments '@' t

instance (t : Text) : Decidable t.LeavesOpen :=
  inferInstanceAs (Decidable (_ <:+: _))

/-- **New names for two texts, unless a symbol begins in the one and ends in the other.** -/
theorem Text.rename_append_of_closed (r : Renaming) {d : Char} {t u : Text} (hname : isNameChar d = false)
    (hquote : d ≠ '"') (hopen : LeavesOpen t → '"' ∉ d :: u) :
    rename r (t ++ d :: u) = rename r t ++ rename r (d :: u) := by
  rw [rename, segments_append_of_closed (by decide) hname hquote hopen, List.flatMap_append]
  rfl

namespace Definition.Slices

variable {dump : Text} {x : Nat × Text} {d : Definition}

/-- A character that continues no symbol begins the body. -/
theorem exists_body_eq_cons (h : Slices dump x d) (hx : x ∈ defineLines dump) :
    ∃ c rest, d.body = c :: rest ∧ isNameChar c = false ∧ c ≠ '"' := by
  obtain ⟨blanks, rest, hbody, hblanks⟩ := h.exists_body_eq hx
  cases blanks with
  | nil => exact ⟨_, _, hbody, by decide, by decide⟩
  | cons c blanks =>
    have hblank := hblanks c List.mem_cons_self
    exact ⟨c, _, hbody, isNameChar_of_isBlank hblank, fun he => absurd (he ▸ hblank) (by decide)⟩

/-- **New names for a part of a dump**, unless a symbol begins in the header and ends in the body. -/
theorem rename_slice_eq (h : Slices dump x d) (hx : x ∈ defineLines dump) (r : Renaming)
    (hopen : d.header.LeavesOpen → '"' ∉ d.body) :
    (d.slice dump).rename r = Listing.functionText (d.header.rename r) (d.body.rename r) := by
  obtain ⟨c, rest, hbody, hname, hquote⟩ := h.exists_body_eq_cons hx
  have hend : (d.body ++ ['\x7d']).rename r = d.body.rename r ++ ['\x7d'] :=
    Text.rename_append_of_closed r (by decide) (by decide) fun _ => by decide
  have hheader : (d.header ++ (d.body ++ ['\x7d'])).rename r =
      d.header.rename r ++ (d.body ++ ['\x7d']).rename r := by
    rw [hbody] at hopen ⊢
    refine Text.rename_append_of_closed r hname hquote fun hleaves => ?_
    change '"' ∉ (c :: rest) ++ ['\x7d']
    rw [List.mem_append, not_or]
    exact ⟨hopen hleaves, by decide⟩
  have htext : d.text = d.header ++ (d.body ++ ['\x7d']) := List.append_assoc _ _ _
  rw [h.slice_eq, htext, hheader, hend]
  exact (List.append_assoc _ _ _).symm

/-- A symbol that begins in the one and ends in the other hides the symbols between. -/
example : Text.rename ((∅ : Renaming).insert "@f" "@g") ("section \"a@\" \x7b" ++ "call @f ; \"") ≠
    Text.rename ((∅ : Renaming).insert "@f" "@g") "section \"a@\" \x7b" ++
      Text.rename ((∅ : Renaming).insert "@f" "@g") "call @f ; \"" := by
  decide +kernel

end Definition.Slices

namespace Listing

open Definition CompiledName

variable {target : Target} {dump : Text}

/-! ### The function first -/

/-- A definition is the function if its name has the stem. -/
theorem own?_eq_none_iff {name symbol : Text} :
    ((CompiledName.parse? symbol).filter (·.stem == name)) = none ↔ ¬ Of symbol name := by
  rw [of_iff]
  cases CompiledName.parse? symbol with
  | none => simp
  | some c => simp [Option.filter]

theorem filter_isCompiled (ds : List Definition) :
    (ds.filter fun d => IsCompiled d.name) = ds.filter fun d => (CompiledName.parse? d.name).isSome :=
  List.filter_congr fun d _ => by simp [isCompiled_iff]

theorem selfFirst?_eq_none_iff {name : Text} {ds : List Definition} :
    selfFirst? name ds = none ↔ ∀ d ∈ ds, ¬ Of d.name name := by
  simp only [selfFirst?, Option.map_eq_none_iff, Cut.first?_eq_none_iff, ← filter_isCompiled, own?_eq_none_iff,
    List.mem_filter, decide_eq_true_eq]
  exact ⟨fun h d hd hof => h d ⟨hd, name, hof⟩ hof, fun h d hd => h d hd.1⟩

/-- **The first definition with the stem comes first, and all others keep their order.** -/
theorem exists_of_selfFirst? {name : Text} {ds helpers : List Definition} {own : Definition}
    (h : selfFirst? name ds = some (own, helpers)) :
    ∃ before after, helpers = before ++ after ∧ (ds.filter fun d => IsCompiled d.name) = before ++ own :: after ∧
      Of own.name name ∧ ∀ d ∈ before, ¬ Of d.name name := by
  obtain ⟨c, hc, he⟩ := Option.map_eq_some_iff.mp h
  obtain ⟨rfl, rfl⟩ := Prod.mk.inj he
  obtain ⟨happend, hread, hbefore⟩ := Cut.append_eq_of_first? hc
  refine ⟨c.before, c.after, rfl, by rw [filter_isCompiled, happend], ?_, ?_⟩
  · by_contra hnot
    rw [own?_eq_none_iff.mpr hnot] at hread
    cases hread
  · exact fun d hd => own?_eq_none_iff.mp (hbefore d hd)

/-! ### New names -/

/-- A compiled name is no entry of the constant pool. -/
theorem poolSymbol?_eq_none_of_isCompiled {symbol : Text} (h : IsCompiled symbol) :
    target.poolSymbol? symbol = none := by
  obtain ⟨stem, -, -, digits, n, hbare, -⟩ := h
  have hcounter : TopLevel.poolCounter? (Name.bare symbol) = none := by
    rw [Option.eq_none_iff_forall_ne_some]
    intro counter hcounter
    obtain ⟨mark, hname, -⟩ := TopLevel.eq_of_poolCounter? hcounter
    rw [hbare] at hname
    exact absurd (List.cons.inj hname).1 (by decide)
  rw [Target.poolSymbol?, hcounter]
  rfl

/-- What a listing has of a dump. -/
structure SelfFirst (target : Target) (dump : Text) (own : Definition) (helpers : List Definition) (l : Listing) :
    Prop where
  /-- The function gets its output name, -/
  apply_own : (dumpRenaming target dump).apply own.name = target.symbol
  /-- each entry of the constant pool its own one, -/
  apply_constant : ∀ symbol line, symbol ≠ own.name → .constant symbol line ∈ keptLines target dump →
    (dumpRenaming target dump).apply symbol = (target.poolSymbol? symbol).getD symbol
  /-- and all other symbols stay. -/
  apply_other : ∀ symbol, symbol ≠ own.name → (∀ line, .constant symbol line ∉ keptLines target dump) →
    (dumpRenaming target dump).apply symbol = symbol
  /-- There are as many headers as bodies, -/
  length_eq : l.headers.length = l.bodies.length
  /-- those of the definitions with new names, the function first. -/
  headers_eq : l.headers = (own :: helpers).map fun d => d.header.rename (dumpRenaming target dump)
  bodies_eq : l.bodies = (own :: helpers).map fun d => d.body.rename (dumpRenaming target dump)
  /-- The function is defined under its output name, which takes the place of the first symbol of its header. -/
  defines : ∃ front behind : Text, own.header = front ++ (own.name ++ '(' :: behind) ∧
    Text.first? (read? '@') own.header = some (own.name, '(' :: behind) ∧
    ∃ header, l.headers.head? = some header ∧
      header = front ++ (target.symbol ++ '(' :: behind.rename (dumpRenaming target dump)) ∧
      (Named target.symbol → '@' ∉ front → nameIn? header = some target.symbol)
  /-- Each text is a part of the dump with new names, unless a quoted symbol begins in the header and may end in
  the body. -/
  texts : List.Forall₂ (fun d text => (d.header.LeavesOpen → '"' ∉ d.body) →
    text = (d.slice dump).rename (dumpRenaming target dump)) (own :: helpers) l.functionTexts

/-- An entry of the constant pool gets its new name. -/
theorem apply_renamesFor_of_mem {own symbol line : Text} {constants : List (Text × Text)} (hne : symbol ≠ own)
    (hmem : (symbol, line) ∈ constants) :
    (renamesFor target own constants).apply symbol = (target.poolSymbol? symbol).getD symbol := by
  rcases (renamesFor target own constants).apply_cases symbol with ⟨hnone, happly⟩ | hsome
  · rw [happly]
    cases hpool : target.poolSymbol? symbol with
    | none => rfl
    | some new =>
      have hnew : symbol ∈ renamesFor target own constants :=
        mem_renamesFor (.inr ⟨by rw [hpool]; rfl, line, hmem⟩)
      rw [Renaming.getElem?_of_mem hnew] at hnone
      cases hnone
  · rcases getElem?_renamesFor_cases hsome with ⟨he, -⟩ | ⟨hpool, -⟩
    · exact absurd he hne
    · rw [hpool]
      rfl

/-- A symbol that is neither the function nor a constant stays. -/
theorem apply_renamesFor_of_notMem {own symbol : Text} {constants : List (Text × Text)} (hne : symbol ≠ own)
    (hnot : ∀ line, (symbol, line) ∉ constants) : (renamesFor target own constants).apply symbol = symbol := by
  rcases (renamesFor target own constants).apply_cases symbol with ⟨-, happly⟩ | hsome
  · exact happly
  · rcases getElem?_renamesFor_cases hsome with ⟨he, -⟩ | ⟨-, line, hline⟩
    · exact absurd he hne
    · exact absurd hline (hnot line)

theorem mem_constants_iff {symbol line : Text} {lines : List TopLevel} :
    (symbol, line) ∈ lines.filterMap TopLevel.constant? ↔ .constant symbol line ∈ lines := by
  rw [List.mem_filterMap]
  constructor
  · rintro ⟨k, hk, he⟩
    cases k <;> cases he
    exact hk
  · exact fun h => ⟨_, h, rfl⟩

/-- The first symbol of a header gets its new name, and what precedes it stays. -/
theorem exists_rename_eq {name header rest : Text} (h : Text.first? (read? '@') header = some (name, '(' :: rest))
    (r : Renaming) : ∃ front, header = front ++ (name ++ '(' :: rest) ∧
      header.rename r = front ++ (r.apply name ++ '(' :: rest.rename r) := by
  obtain ⟨front, after, rfl, hread, hfront⟩ := Text.first?_eq_some_iff.mp h
  refine ⟨front, by rw [(append_eq_of_read? hread).1], ?_⟩
  rw [Text.rename_append r hfront, Text.rename_of_read? r hread, Text.rename_cons r (by decide)]

/-- A header is read as the definition of the symbol in front of the parameter list. -/
theorem nameIn?_append {front symbol : Text} (hfront : '@' ∉ front) (hsymbol : Named symbol) (rest : Text) :
    nameIn? (front ++ (symbol ++ '(' :: rest)) = some symbol := by
  refine Text.first?_eq_some_iff.mpr ⟨front, _, rfl, calledName?_append hsymbol rest, fun x y he hy => ?_⟩
  obtain ⟨c, y, rfl⟩ := List.exists_cons_of_ne_nil hy
  refine calledName?_eq_none (read?_of_ne (fun hc => hfront ?_) _)
  rw [he, hc]
  exact List.mem_append_right x List.mem_cons_self

variable {ds helpers : List Definition} {own : Definition}

/-- **The listing made of the parts of a dump.** -/
theorem selfFirst_ofParts (hds : List.Forall₂ (Slices dump) (defineLines dump) ds)
    (hdefs : definitionsOf target dump = ds) (hself : selfFirst? target.name ds = some (own, helpers)) :
    SelfFirst target dump own helpers (ofParts target own helpers (topLevels dump ds) dump) := by
  have hr : dumpRenaming target dump =
      renamesFor target own.name ((keptLines target dump).filterMap TopLevel.constant?) := by
    rw [dumpRenaming, hdefs, hself]
  have hkept : topLevels dump ds = keptLines target dump := by rw [← topLevels_eq_keptLines, hdefs]
  have hslices : ∀ d ∈ own :: helpers, IsCompiled d.name ∧ ∃ x ∈ defineLines dump, Slices dump x d := by
    intro d hd
    have hd := List.mem_filter.mp ((selfFirst?_perm hself).mem_iff.mp hd)
    exact ⟨isCompiled_iff.mpr hd.2, hds.exists_of_mem hd.1⟩
  obtain ⟨hown, x, -, hslice⟩ := hslices own List.mem_cons_self
  obtain ⟨behind, hfirst⟩ := hslice.first
  have happly : (dumpRenaming target dump).apply own.name = target.symbol := by
    rw [hr]
    exact apply_renamesFor_own (poolSymbol?_eq_none_of_isCompiled hown)
  have hheaders : (ofParts target own helpers (topLevels dump ds) dump).headers =
      (own :: helpers).map fun d => d.header.rename (dumpRenaming target dump) := by
    rw [hr, ← hkept]
    exact List.map_map
  have hbodies : (ofParts target own helpers (topLevels dump ds) dump).bodies =
      (own :: helpers).map fun d => d.body.rename (dumpRenaming target dump) := by
    rw [hr, ← hkept]
    exact List.map_map
  have htexts : (ofParts target own helpers (topLevels dump ds) dump).functionTexts = (own :: helpers).map fun d =>
      functionText (d.header.rename (dumpRenaming target dump)) (d.body.rename (dumpRenaming target dump)) := by
    rw [functionTexts, hheaders, hbodies, List.zipWith_map, List.zipWith_self]
  exact {
    apply_own := happly
    apply_constant := by
      intro symbol line hne hmem
      rw [hr]
      exact apply_renamesFor_of_mem hne (mem_constants_iff.mpr hmem)
    apply_other := by
      intro symbol hne hnot
      rw [hr]
      exact apply_renamesFor_of_notMem hne fun line hmem => hnot line (mem_constants_iff.mp hmem)
    length_eq := by rw [hheaders, hbodies, List.length_map, List.length_map]
    headers_eq := hheaders
    bodies_eq := hbodies
    defines := by
      obtain ⟨front, hheader, hrename⟩ := exists_rename_eq hfirst (dumpRenaming target dump)
      rw [happly] at hrename
      refine ⟨front, behind, hheader, hfirst, own.header.rename _, by rw [hheaders]; rfl, hrename, ?_⟩
      intro hsymbol hfront
      rw [hrename]
      exact nameIn?_append hfront hsymbol _
    texts := by
      rw [htexts, List.forall₂_map_right_iff, List.forall₂_same]
      intro d hd hopen
      obtain ⟨-, x, hx, hslice⟩ := hslices d hd
      exact (hslice.rename_slice_eq hx _ hopen).symm }

/-- **The listing of a dump has the parts of the dump, the function first.** -/
theorem ofDump_slices (target : Target) (h : Sliceable dump) :
    ∃ ds, List.Forall₂ (Slices dump) (defineLines dump) ds ∧
      (ofDump target dump = .error (.functionNotFound target.name) ↔ ∀ d ∈ ds, ¬ Of d.name target.name) ∧
      ((∃ d ∈ ds, Of d.name target.name) → ∃ before own after l,
        (ds.filter fun d => IsCompiled d.name) = before ++ own :: after ∧
        Of own.name target.name ∧ (∀ d ∈ before, ¬ Of d.name target.name) ∧
        ofDump target dump = .ok l ∧ SelfFirst target dump own (before ++ after) l) := by
  obtain ⟨ds, hds, hall⟩ := h.exists_all
  refine ⟨ds, hds, ?_⟩
  rw [← selfFirst?_eq_none_iff]
  cases hself : selfFirst? target.name ds with
  | none =>
    have hnone := selfFirst?_eq_none_iff.mp hself
    refine ⟨iff_of_true ?_ rfl, fun ⟨d, hd, hof⟩ => absurd hof (hnone d hd)⟩
    simp only [ofDump, hall, bind, Except.bind, hself]
    rfl
  | some x =>
    obtain ⟨own, helpers⟩ := x
    have hok := ofDump_eq_ok (hall target.name) hself
    refine ⟨iff_of_false (by rw [hok]; simp) (by simp), fun _ => ?_⟩
    obtain ⟨before, after, rfl, hcompiled, hown, hbefore⟩ := exists_of_selfFirst? hself
    have hdefs : definitionsOf target dump = ds := by rw [definitionsOf, hall]
    exact ⟨before, own, after, _, hcompiled, hown, hbefore, hok, selfFirst_ofParts hds hdefs hself⟩

/-- A dump with a helper before the function, a wrapper, and another function of the same name behind.  There
are braces within quotes, comments and types, and blanks behind an opening brace. -/
def overloadedDump : Text :=
  "@\"_j_const#1\" = constant [1 x i8] c\"\x7d\"\n" ++
  "define void @julia_g_2() \x7b\n  call void @julia_f_1(ptr @\"\x7b\")\n  ret void\n\x7d\n" ++
  "define \x7b i64, ptr \x7d @julia_f_1(ptr @\"_j_const#1\") \x7b \t\n  ret ptr @\"_j_const#1\" ; \x7d\n\x7d\n" ++
  "define void @jfptr_f_3() \x7b\n  unreachable\n\x7d\n" ++
  "define void @\"julia_f_4\"() \x7b\n  ret void\n\x7d"

/-- The entry point is taken from it. -/
def overloadedTarget : Target where
  name := "f"
  external := "Main_f"
  isEntry := true

/-- The texts that are taken from it. -/
def overloadedTexts : List Text :=
  ["define \x7b i64, ptr \x7d @main(ptr @_j_const_f_1) \x7b \t\n  ret ptr @_j_const_f_1 ; \x7d\n\x7d",
    "define void @julia_g_2() \x7b\n  call void @main(ptr @\"\x7b\")\n  ret void\n\x7d",
    "define void @\"julia_f_4\"() \x7b\n  ret void\n\x7d"]

/-- The listing of the dump: the function under its output name, the helper, and the other function. -/
theorem ofDump_slices_overloadedDump : Sliceable overloadedDump ∧
    (ofDump overloadedTarget overloadedDump).map functionTexts = .ok overloadedTexts ∧
    ∃ ds, List.Forall₂ (Slices overloadedDump) (defineLines overloadedDump) ds ∧
      ∃ before own after l, (ds.filter fun d => IsCompiled d.name) = before ++ own :: after ∧
        Of own.name "f" ∧ (∀ d ∈ before, ¬ Of d.name "f") ∧
        ofDump overloadedTarget overloadedDump = .ok l ∧
        SelfFirst overloadedTarget overloadedDump own (before ++ after) l := by
  obtain ⟨hslices, htexts⟩ : Sliceable overloadedDump ∧
      (ofDump overloadedTarget overloadedDump).map functionTexts = .ok overloadedTexts := by decide +kernel
  obtain ⟨ds, hds, hnone, hsome⟩ := ofDump_slices overloadedTarget hslices
  refine ⟨hslices, htexts, ds, hds, hsome ?_⟩
  by_contra hnot
  push Not at hnot
  rw [hnone.mpr hnot] at htexts
  cases htexts

/-- A dump whose one definition has a number of 65 bits. -/
def hugeDump : Text :=
  "define void @julia_f_18446744073709551616() \x7b\n  ret void\n\x7d\n"

/-- The definition is spelled like a compiled one, but it is not found. -/
theorem hugeDump_not_found : Sliceable hugeDump ∧
    (defineLines hugeDump).map (fun x => (nameIn? x.2).map Name.bare) =
      [some ("julia_" ++ ("f" ++ '_' :: "18446744073709551616".toList))] ∧
    ("18446744073709551616".toList).all Char.isDigit ∧
    ofDump { name := "f", external := "f" } hugeDump = .error (.functionNotFound "f") := by
  obtain ⟨hslices, hname, htexts⟩ : Sliceable hugeDump ∧
      (defineLines hugeDump).map (fun x => (nameIn? x.2).map Name.bare) =
        [some ("julia_" ++ ("f" ++ '_' :: "18446744073709551616".toList))] ∧
      (ofDump { name := "f", external := "f" } hugeDump).map functionTexts =
        .error (.functionNotFound "f") := by decide +kernel
  refine ⟨hslices, hname, by decide, ?_⟩
  cases h : ofDump { name := "f", external := "f" } hugeDump with
  | ok l =>
    rw [h] at htexts
    cases htexts
  | error e =>
    rw [h] at htexts
    rw [Except.error.inj htexts]

end Listing

end Freestanding
