import Freestanding.Proofs.Listing.Reread

/-!
# Reading back what has been printed

The file of a listing is itself a dump.  Taken from an orderly dump for a function that keeps its compiled
name, a listing is found again in its own file: the same definitions, constants, declarations, attribute
groups, target lines and metadata, whatever comment stands above them.  Only the symbols that stood for
run-time addresses are gone, since their lines are not printed.

## Main definitions

* `Listing.Orderly` — dumps in which definitions do not start inside one another and lines are named by
  their first symbol.
* `Listing.Rereadable` — listings all of whose parts can be told apart in their file.
* `Listing.pieces` — the pieces of the file.

## Main results

* `Listing.rereadable_ofDump` — a listing of an orderly dump is rereadable.
* `Listing.Rereadable.ofDump_render` — what is read from the file of a rereadable listing.
* `Listing.ofDump_render_eq` — **a listing is read back from its file.**
-/

namespace Freestanding

open Definition TopLevel

/-- The line for which a kept line stands; none for a symbol that stands for an address. -/
def TopLevel.text? : TopLevel → Option Text
  | .target line | .declaration _ line | .attributes line | .metadata line | .constant _ line => some line
  | .address _ _ => none

/-- The definition under new names. -/
def Definition.rename (r : Renaming) (d : Definition) : Definition :=
  { d with name := r.apply d.name, header := d.header.rename r, body := d.body.rename r }

/-! ### Orderly dumps -/

namespace Listing

/-- The dump can be cut into its parts without doubt: no line inside a definition starts another one, and
the lines that define or declare a function are named by the first symbol in them. -/
structure Orderly (target : Target) (dump : Text) : Prop where
  /-- No definition starts inside another. -/
  apart : ∀ d ∈ definitionsOf target dump, ∀ x ∈ placedLines dump,
    isDefineLine x.2 → d.covers x.1 → x.1 = d.start
  /-- The first symbol of a definition is its name. -/
  defined : ∀ d ∈ definitionsOf target dump, NamedFirst d.header
  /-- The first symbol of a declaration is the one that it declares. -/
  declared : ∀ line ∈ outside target dump, line.startsWith "declare " → NamedFirst line

instance (target : Target) (dump : Text) : Decidable (Orderly target dump) :=
  decidable_of_iff
    ((∀ d ∈ definitionsOf target dump, ∀ x ∈ placedLines dump, isDefineLine x.2 → d.covers x.1 → x.1 = d.start) ∧
      (∀ d ∈ definitionsOf target dump, NamedFirst d.header) ∧
      ∀ line ∈ outside target dump, line.startsWith "declare " → NamedFirst line)
    ⟨fun h => ⟨h.1, h.2.1, h.2.2⟩, fun h => ⟨h.apart, h.defined, h.declared⟩⟩

/-- The listing consists of the given definitions and of lines that are read as they stand, and no
constant is an entry of the constant pool. -/
structure Rereadable (target : Target) (own : Definition) (helpers : List Definition) (l : Listing) : Prop where
  /-- The headers are those of the definitions, -/
  headers_eq : l.headers = (own :: helpers).map header
  /-- and so are the bodies. -/
  bodies_eq : l.bodies = (own :: helpers).map body
  /-- The definitions can be told apart. -/
  delimited : ∀ d ∈ own :: helpers, Delimited d.name d.header d.body
  /-- They have compiled names. -/
  compiled : ∀ d ∈ own :: helpers, (CompiledName.parse? d.name).isSome
  /-- The first one is the function, -/
  stem_eq : (CompiledName.parse? own.name).map CompiledName.stem = some target.name
  /-- under its output name. -/
  name_eq : own.name = target.symbol
  /-- All lines are read as they stand. -/
  targets : ∀ line ∈ l.targets, Reads line (.target line)
  constants : ∀ x ∈ l.constants.toList, Reads x.2 (.constant x.1 x.2)
  declarations : ∀ x ∈ l.declarations.toList, Reads x.2 (.declaration x.1 x.2)
  attributes : ∀ line ∈ l.attributes, Reads line (.attributes line)
  metadata : ∀ line ∈ l.metadata, Reads line (.metadata line)
  /-- No constant gets another name. -/
  poolSymbol?_eq : ∀ x ∈ l.constants.toList, target.poolSymbol? x.1 = none
  /-- No global variables are declared, -/
  externals_eq : l.externals = ∅
  /-- and no layouts are known. -/
  layouts_eq : l.layouts = ∅

/-! ### Listings of orderly dumps -/

variable {target : Target} {dump : Text} {l : Listing} {own : Definition} {helpers : List Definition}

theorem selfFirst?_cases {name : Text} {definitions : List Definition}
    (h : selfFirst? name definitions = some (own, helpers)) :
    (∀ d ∈ own :: helpers, d ∈ definitions ∧ (CompiledName.parse? d.name).isSome) ∧
      (CompiledName.parse? own.name).map CompiledName.stem = some name := by
  constructor
  · intro d hd
    exact List.mem_filter.mp ((selfFirst?_perm h).mem_iff.mp hd)
  · rw [selfFirst?, Option.map_eq_some_iff] at h
    obtain ⟨c, hc, he⟩ := h
    obtain ⟨rfl, -⟩ := Prod.mk.inj he
    obtain ⟨-, hread, -⟩ := Cut.append_eq_of_first? hc
    obtain ⟨hparse, hstem⟩ := Option.filter_eq_some_iff.mp hread
    rw [hparse, Option.map_some, beq_iff_eq.mp hstem]

/-- The function comes first if all definitions have compiled names and the first one has its stem. -/
theorem selfFirst?_cons {name : Text} (hcompiled : ∀ d ∈ own :: helpers, (CompiledName.parse? d.name).isSome)
    (hstem : (CompiledName.parse? own.name).map CompiledName.stem = some name) :
    selfFirst? name (own :: helpers) = some (own, helpers) := by
  obtain ⟨c, hparse, rfl⟩ := Option.map_eq_some_iff.mp hstem
  rw [selfFirst?, List.filter_eq_self.mpr hcompiled]
  simp [Cut.first?, hparse, Option.filter]

theorem ofDump_eq_of_selfFirst? (hself : selfFirst? target.name (definitionsOf target dump) = some (own, helpers))
    (h : ofDump target dump = .ok l) :
    Definition.all target.name dump = .ok (definitionsOf target dump) ∧
      l = ofParts target own helpers (keptLines target dump) dump := by
  obtain ⟨own', helpers', hall, hself', hl⟩ := exists_selfFirst?_of_ofDump h
  obtain ⟨rfl, rfl⟩ := Prod.mk.inj (Option.some.inj (hself.symm.trans hself'))
  exact ⟨hall, hl⟩

/-- The lines outside all definitions are read as they stand. -/
theorem reads_of_mem_keptLines {k : TopLevel} {line : Text} (h : k ∈ keptLines target dump)
    (hline : k.text? = some line) : line ∈ outside target dump ∧ Reads line k := by
  obtain ⟨line', hmem, hk⟩ := List.mem_filterMap.mp h
  obtain rfl : line' = line := by
    have hkept := keptAs_of_ofTrimmed? hk
    cases hkept with
    | address => cases hline
    | target => exact Option.some.inj hline
    | attributes => exact Option.some.inj hline
    | metadata => exact Option.some.inj hline
    | declaration => exact Option.some.inj hline
    | constant => exact Option.some.inj hline
  refine ⟨hmem, ?_, ?_, hk⟩
  · obtain ⟨x, hx, rfl⟩ := List.mem_map.mp hmem
    obtain ⟨-, -, -, -, hsingle, -⟩ := exists_of_mem_placed (List.mem_filter.mp hx).1
    intro hmem
    exact hsingle (Text.mem_of_mem_trim hmem)
  · obtain ⟨x, -, rfl⟩ := List.mem_map.mp hmem
    exact Text.trim_trim x.2

/-- The definitions of an orderly dump are delimited. -/
theorem Orderly.delimited (h : Orderly target dump)
    (hall : Definition.all target.name dump = .ok (definitionsOf target dump)) {d : Definition}
    (hd : d ∈ definitionsOf target dump) : Delimited d.name d.header d.body := by
  obtain ⟨⟨place, line⟩, hx, hread⟩ := (Except.mapM_eq_ok_iff.mp hall).exists_of_mem hd
  obtain ⟨hplace, hdefine⟩ := List.mem_filter.mp hx
  exact delimited_of_read hplace hdefine hread (h.apart d hd)

theorem named_of_mem_constants {x : Text × Text} (hx : x ∈ (keptLines target dump).filterMap constant?) :
    Token.Named x.1 := by
  obtain ⟨k, hk, hkx⟩ := List.mem_filterMap.mp hx
  cases k <;> cases hkx
  exact (reads_of_mem_keptLines hk rfl).2.named_constant

/-! ### The parts under their new names -/

/-- The name of a pool entry is not that of a service. -/
theorem isService_poolName (target : Target) (counter : Text) : isService (target.poolName counter) = false := by
  obtain ⟨middle, he, -⟩ := target.exists_poolName_eq counter
  rw [he]
  rfl

/-- A function that is no service is none under its new name. -/
theorem isService_apply_renamesFor (hkeeps : target.Keeps own.name) (constants : List (Text × Text))
    {symbol : Text} (hsymbol : Token.Named symbol) (h : isService (Name.bare symbol) = false) :
    isService (Name.bare ((renamesFor target own.name constants).apply symbol)) = false := by
  rcases bare_apply_renamesFor hkeeps constants symbol with hbare | hpool
  · rw [hbare, h]
  · rw [Target.poolSymbol?, Option.map_eq_some_iff] at hpool
    obtain ⟨counter, hcounter, hnew⟩ := hpool
    obtain ⟨name, -, hspells⟩ := hsymbol
    rw [hspells.bare_eq] at hcounter
    obtain ⟨-, -, -, hdigits⟩ := eq_of_poolCounter? hcounter
    rw [← hnew, (target.spells_poolName hdigits).2.bare_eq]
    exact isService_poolName target counter

/-- A compiled name is a compiled name under its new name. -/
theorem parse?_apply_renamesFor (hkeeps : target.Keeps own.name) (constants : List (Text × Text))
    {symbol : Text} (h : (CompiledName.parse? symbol).isSome) :
    CompiledName.parse? ((renamesFor target own.name constants).apply symbol) = CompiledName.parse? symbol := by
  rcases bare_apply_renamesFor hkeeps constants symbol with hbare | hpool
  · rw [CompiledName.parse?, hbare]
    rfl
  · -- compiled names and those of pool entries start differently
    obtain ⟨c, hc⟩ := Option.isSome_iff_exists.mp h
    obtain ⟨digits, hbare, -⟩ := CompiledName.bare_eq_of_parse? hc
    rw [Target.poolSymbol?, hbare] at hpool
    cases hpool

private theorem keeps_of_selfFirst? (horderly : Orderly target dump)
    (hself : selfFirst? target.name (definitionsOf target dump) = some (own, helpers))
    (h : ofDump target dump = .ok l) (hentry : target.isEntry = false)
    (hexternal : target.external = Name.bare own.name) : target.Keeps own.name := by
  obtain ⟨hall, -⟩ := ofDump_eq_of_selfFirst? hself h
  obtain ⟨hmem, -⟩ := selfFirst?_cases hself
  obtain ⟨hown, hcompiled⟩ := hmem own List.mem_cons_self
  exact ⟨hentry, hexternal, named_of_nameIn? (horderly.delimited hall hown).named, hcompiled⟩

section

variable (hkeeps : target.Keeps own.name)
  (hself : selfFirst? target.name (definitionsOf target dump) = some (own, helpers))

include hself in
theorem dumpRenaming_eq : dumpRenaming target dump =
    renamesFor target own.name ((keptLines target dump).filterMap constant?) := by
  rw [dumpRenaming, hself]

include hkeeps hself in
theorem gentle_dumpRenaming : (dumpRenaming target dump).Gentle := by
  rw [dumpRenaming_eq hself]
  exact gentle_renamesFor hkeeps fun _ => named_of_mem_constants

/-- A line that is listed as it stands is read as it stands. -/
theorem reads_of_mem_filterMap {part? : TopLevel → Option Text} {make : Text → TopLevel}
    (hpart : ∀ k line, part? k = some line → k = make line ∧ k.text? = some line) {line : Text}
    (hline : line ∈ (keptLines target dump).filterMap part?) : Reads line (make line) := by
  obtain ⟨k, hk, hkline⟩ := List.mem_filterMap.mp hline
  obtain ⟨rfl, htext⟩ := hpart k line hkline
  exact (reads_of_mem_keptLines hk htext).2

include hkeeps hself in
/-- A constant is read under its new name, which is not that of a pool entry. -/
theorem reads_of_mem_constants (h : ofDump target dump = .ok l) {x : Text × Text}
    (hx : x ∈ l.constants.toList) : Reads x.2 (.constant x.1 x.2) ∧ target.poolSymbol? x.1 = none := by
  obtain ⟨symbol, line, hk, h₁, h₂⟩ :=
    exists_of_getElem?_constants h (Std.ExtTreeMap.mem_toList_iff_getElem?_eq_some.mp hx)
  have hconstant : (symbol, line) ∈ (keptLines target dump).filterMap constant? :=
    List.mem_filterMap.mpr ⟨_, hk, rfl⟩
  have hnone := poolSymbol?_apply_renamesFor hkeeps (fun _ => named_of_mem_constants) hconstant
  rw [← dumpRenaming_eq hself] at hnone
  rw [← h₁, ← h₂]
  exact ⟨(reads_of_mem_keptLines hk rfl).2.rename_constant (gentle_dumpRenaming hkeeps hself), hnone⟩

include hkeeps hself in
/-- A declaration is read under its new name. -/
theorem reads_of_mem_declarations (horderly : Orderly target dump) (h : ofDump target dump = .ok l)
    {x : Text × Text} (hx : x ∈ l.declarations.toList) : Reads x.2 (.declaration x.1 x.2) := by
  obtain ⟨symbol, line, hk, h₁, h₂⟩ :=
    exists_of_getElem?_declarations h (Std.ExtTreeMap.mem_toList_iff_getElem?_eq_some.mp hx)
  obtain ⟨hline, hreads⟩ := reads_of_mem_keptLines hk rfl
  have hkept := keptAs_of_ofTrimmed? hreads.ofTrimmed?_eq
  cases hkept with
  | declaration _ hstart hname hservice =>
    have hnew := isService_apply_renamesFor hkeeps ((keptLines target dump).filterMap constant?)
      (named_of_nameIn? hname) hservice
    rw [← dumpRenaming_eq hself] at hnew
    rw [← h₁, ← h₂]
    exact hreads.rename_declaration (gentle_dumpRenaming hkeeps hself) (horderly.declared line hline hstart) hnew

include hkeeps hself in
/-- A definition under new names is one that can be told apart, and its name is that of the same compiled
function. -/
theorem delimited_rename_of_mem (horderly : Orderly target dump) (h : ofDump target dump = .ok l)
    {d : Definition} (hd : d ∈ own :: helpers) :
    Delimited (d.rename (dumpRenaming target dump)).name (d.rename (dumpRenaming target dump)).header
        (d.rename (dumpRenaming target dump)).body ∧
      CompiledName.parse? (d.rename (dumpRenaming target dump)).name = CompiledName.parse? d.name := by
  obtain ⟨hall, -⟩ := ofDump_eq_of_selfFirst? hself h
  obtain ⟨hmem, -⟩ := selfFirst?_cases hself
  obtain ⟨hdef, hcompiled⟩ := hmem d hd
  refine ⟨(horderly.delimited hall hdef).rename (gentle_dumpRenaming hkeeps hself)
    (horderly.defined d hdef), ?_⟩
  rw [dumpRenaming_eq hself]
  exact parse?_apply_renamesFor hkeeps ((keptLines target dump).filterMap constant?) hcompiled

include hkeeps hself in
/-- **A listing of an orderly dump is rereadable.** -/
theorem rereadable_ofDump (horderly : Orderly target dump) (h : ofDump target dump = .ok l) :
    ∃ r, Rereadable target (own.rename r) (helpers.map (Definition.rename r)) l := by
  obtain ⟨-, hl⟩ := ofDump_eq_of_selfFirst? hself h
  obtain ⟨hmem, hstem⟩ := selfFirst?_cases hself
  have hdefs : ∀ d' ∈ own.rename (dumpRenaming target dump) ::
        helpers.map (Definition.rename (dumpRenaming target dump)),
      Delimited d'.name d'.header d'.body ∧ (CompiledName.parse? d'.name).isSome := by
    intro d' hd'
    rw [← List.map_cons] at hd'
    obtain ⟨d, hd, rfl⟩ := List.mem_map.mp hd'
    obtain ⟨hdelimited, hparse⟩ := delimited_rename_of_mem hkeeps hself horderly h hd
    exact ⟨hdelimited, hparse ▸ (hmem d hd).2⟩
  have hown := (delimited_rename_of_mem hkeeps hself horderly h (List.mem_cons_self (a := own))).2
  refine ⟨dumpRenaming target dump, {
    headers_eq := ?_, bodies_eq := ?_, name_eq := ?_, stem_eq := hown ▸ hstem
    delimited := fun d' hd' => (hdefs d' hd').1, compiled := fun d' hd' => (hdefs d' hd').2
    targets := ?_, attributes := ?_, metadata := ?_
    constants := fun x hx => (reads_of_mem_constants hkeeps hself h hx).1
    declarations := fun x hx => reads_of_mem_declarations hkeeps hself horderly h hx
    poolSymbol?_eq := fun x hx => (reads_of_mem_constants hkeeps hself h hx).2
    externals_eq := by rw [hl]; rfl
    layouts_eq := by rw [hl]; rfl }⟩
  · rw [hl, dumpRenaming_eq hself, ← List.map_cons, List.map_map]
    exact List.map_map
  · rw [hl, dumpRenaming_eq hself, ← List.map_cons, List.map_map]
    exact List.map_map
  · rw [dumpRenaming_eq hself]
    exact apply_renamesFor_own (hkeeps.poolSymbol?_eq_none rfl)
  all_goals
    rw [hl]
    exact fun line => reads_of_mem_filterMap fun k line hk => by cases k <;> cases hk; exact ⟨rfl, rfl⟩

end

/-! ### The file as pieces -/

/-- The pieces of a part of the file: an empty line before the items, if there are any. -/
def sectionPieces : (items : List Piece) → List Piece
  | [] => []
  | items => .line [] :: items

/-- The items of the parts of the file. -/
def items (l : Listing) (definitions : List Definition) : List (List Piece) :=
  [l.targets.map .line, l.constants.values.map .line, l.externals.values.map .line,
    definitions.map fun d => .definition d.name d.header d.body, l.declarations.values.map .line,
    l.attributes.map .line, l.metadata.map .line]

/-- The pieces of the file of a listing with the given definitions. -/
def pieces (l : Listing) (definitions : List Definition) (comment : Text) : List Piece :=
  (comment.printedLines.map fun line => ';' :: ' ' :: line).map .line ++
    (l.items definitions).flatMap sectionPieces

private theorem file_sectionPieces (items : List Piece) :
    Piece.file (sectionPieces items) = renderSection (items.map Piece.text) := by
  cases items with
  | nil => rfl
  | cons p items =>
    rw [sectionPieces, Piece.file_cons]
    · simp [Piece.text, Piece.file, renderSection, List.flatMap_map]
    · simp

theorem filterMap_sectionPieces {β : Type} {f : Piece → Option β} (hf : f (.line []) = none)
    (items : List Piece) : (sectionPieces items).filterMap f = items.filterMap f := by
  cases items with
  | nil => rfl
  | cons p items =>
    rw [sectionPieces, List.filterMap_cons_none hf]
    simp

private theorem mem_sectionPieces {p : Piece} {items : List Piece} (h : p ∈ sectionPieces items) :
    p = .line [] ∨ p ∈ items := by
  cases items with
  | nil => cases h
  | cons q items => exact List.mem_cons.mp h

/-- The lines of the file, read again. -/
def printed (l : Listing) : List TopLevel :=
  l.targets.map .target ++ (l.constants.toList.map fun x => .constant x.1 x.2) ++
    (l.declarations.toList.map fun x => .declaration x.1 x.2) ++ l.attributes.map .attributes ++
    l.metadata.map .metadata

/-- A comment is not kept. -/
theorem ofLine?_comment (t : Text) : ofLine? (';' :: t) = none := by
  have hstart : Text.trimStart (';' :: t) = ';' :: t := List.dropWhile_cons_of_neg (by decide)
  obtain ⟨blanks, hsplit, hblanks⟩ := Text.exists_trimEnd_append (';' :: t)
  rw [ofLine?, Text.trim, hstart]
  cases hend : Text.trimEnd (';' :: t) with
  | nil => rfl
  | cons c u =>
    rw [hend] at hsplit
    obtain ⟨rfl, -⟩ := List.cons.inj hsplit
    simp [ofTrimmed?, Text.startsWith]

@[simp] theorem values_empty : (∅ : Std.ExtTreeMap Text Text).values = [] := by
  simp [Std.ExtTreeMap.values_eq_map_snd_toList]

/-- The definitions among the pieces. -/
theorem filterMap_definition? (l : Listing) (ds : List Definition) (comment : Text) :
    (l.pieces ds comment).filterMap Piece.definition? = ds.map fun d => (d.name, d.header, d.body) := by
  have hlines : ∀ ls : List Text, (ls.map Piece.line).filterMap Piece.definition? = [] := by
    intro ls
    rw [List.filterMap_map]
    exact List.filterMap_eq_nil_iff.mpr fun _ _ => rfl
  have hdefs : (ds.map fun d => Piece.definition d.name d.header d.body).filterMap Piece.definition? =
      ds.map fun d => (d.name, d.header, d.body) := by
    rw [List.filterMap_map]
    exact congrFun (List.filterMap_eq_map (f := fun d : Definition => (d.name, d.header, d.body))) _
  have hsection := filterMap_sectionPieces (f := Piece.definition?) rfl
  simp only [pieces, items, List.flatMap_cons, List.flatMap_nil, List.filterMap_append, hsection, hdefs, hlines,
    List.nil_append, List.append_nil]

namespace Rereadable

/-- **The file of a listing is made of its pieces.** -/
theorem render_eq (hl : Rereadable target own helpers l) (comment : Text) :
    l.render comment = Piece.file (l.pieces (own :: helpers) comment) := by
  have htexts : l.functionTexts = (own :: helpers).map fun d => functionText d.header d.body := by
    rw [functionTexts, hl.headers_eq, hl.bodies_eq, List.zipWith_map, List.zipWith_self]
  have hlines : ∀ ls : List Text, (ls.map Piece.line).map Piece.text = ls := by
    intro ls
    rw [List.map_map]
    exact List.map_id ls
  have hparts : (l.items (own :: helpers)).map (List.map Piece.text) = l.parts := by
    rw [items, parts, htexts]
    simp only [List.map_cons, List.map_nil, hlines, List.map_map]
    rfl
  have hcomment : Piece.file ((comment.printedLines.map fun line => ';' :: ' ' :: line).map .line) =
      renderComment comment := by
    rw [Piece.file, List.flatMap_map, List.flatMap_map]
    rfl
  have hsections : Piece.file ((l.items (own :: helpers)).flatMap sectionPieces) = l.parts.flatMap renderSection := by
    rw [Piece.file, List.flatMap_assoc, ← hparts, List.flatMap_map]
    exact List.flatMap_congr fun items _ => file_sectionPieces items
  rw [pieces, Piece.file_append, hcomment, hsections, render]

theorem legible (hl : Rereadable target own helpers l) (comment : Text) :
    ∀ p ∈ l.pieces (own :: helpers) comment, p.Legible := by
  intro p hp
  rcases List.mem_append.mp hp with hp | hp
  · obtain ⟨comment, hcomment, rfl⟩ := List.mem_map.mp hp
    obtain ⟨line, hline, rfl⟩ := List.mem_map.mp hcomment
    refine .line ?_ rfl
    simp [Text.notMem_of_mem_printedLines hline]
  · obtain ⟨items, hitems, hp⟩ := List.mem_flatMap.mp hp
    rcases mem_sectionPieces hp with rfl | hp
    · exact .line (by simp) rfl
    · simp only [Listing.items, List.mem_cons, List.not_mem_nil, or_false] at hitems
      rcases hitems with rfl | rfl | rfl | rfl | rfl | rfl | rfl
      · obtain ⟨line, hline, rfl⟩ := List.mem_map.mp hp
        exact (hl.targets line hline).legible
      · obtain ⟨line, hline, rfl⟩ := List.mem_map.mp hp
        rw [Std.ExtTreeMap.values_eq_map_snd_toList] at hline
        obtain ⟨x, hx, rfl⟩ := List.mem_map.mp hline
        exact (hl.constants x hx).legible
      · rw [hl.externals_eq, values_empty] at hp
        cases hp
      · obtain ⟨d, hd, rfl⟩ := List.mem_map.mp hp
        exact .definition (hl.delimited d hd)
      · obtain ⟨line, hline, rfl⟩ := List.mem_map.mp hp
        rw [Std.ExtTreeMap.values_eq_map_snd_toList] at hline
        obtain ⟨x, hx, rfl⟩ := List.mem_map.mp hline
        exact (hl.declarations x hx).legible
      · obtain ⟨line, hline, rfl⟩ := List.mem_map.mp hp
        exact (hl.attributes line hline).legible
      · obtain ⟨line, hline, rfl⟩ := List.mem_map.mp hp
        exact (hl.metadata line hline).legible

/-- What is kept of the lines among the pieces. -/
theorem filterMap_line? (hl : Rereadable target own helpers l) (comment : Text) :
    ((l.pieces (own :: helpers) comment).filterMap Piece.line?).filterMap ofLine? = l.printed := by
  have hkept : ∀ {α : Type} (xs : List α) (line : α → Text) (k : α → TopLevel),
      (∀ x ∈ xs, Reads (line x) (k x)) →
        ((xs.map line).map Piece.line).filterMap (fun p => p.line?.bind ofLine?) = xs.map k := by
    intro α xs line k hk
    rw [List.map_map, List.filterMap_map]
    exact (List.filterMap_congr fun x hx => (hk x hx).ofLine?_eq).trans (congrFun List.filterMap_eq_map xs)
  have hlines : ∀ (ls : List Text) (k : Text → TopLevel), (∀ line ∈ ls, Reads line (k line)) →
      (ls.map Piece.line).filterMap (fun p => p.line?.bind ofLine?) = ls.map k := by
    intro ls k hk
    have := hkept ls id k hk
    rwa [List.map_id] at this
  have hcomments : ((comment.printedLines.map fun line => ';' :: ' ' :: line).map Piece.line).filterMap
      (fun p => p.line?.bind ofLine?) = [] := by
    rw [List.map_map, List.filterMap_map]
    exact List.filterMap_eq_nil_iff.mpr fun line _ => ofLine?_comment _
  have hdefs : ((own :: helpers).map fun d => Piece.definition d.name d.header d.body).filterMap
      (fun p => p.line?.bind ofLine?) = [] := by
    rw [List.filterMap_map]
    exact List.filterMap_eq_nil_iff.mpr fun _ _ => rfl
  have hexternals : (l.externals.values.map Piece.line).filterMap (fun p => p.line?.bind ofLine?) = [] := by
    rw [hl.externals_eq, values_empty]
    rfl
  have hconstants := hkept l.constants.toList Prod.snd _ hl.constants
  have hdeclarations := hkept l.declarations.toList Prod.snd _ hl.declarations
  rw [← Std.ExtTreeMap.values_eq_map_snd_toList] at hconstants hdeclarations
  have hsection := filterMap_sectionPieces (f := fun p => p.line?.bind ofLine?) rfl
  rw [List.filterMap_filterMap]
  simp only [pieces, items, printed, List.flatMap_cons, List.flatMap_nil, List.filterMap_append, hsection,
    hcomments, hlines _ _ hl.targets, hconstants, hexternals, hdefs, hdeclarations, hlines _ _ hl.attributes,
    hlines _ _ hl.metadata, List.nil_append, List.append_nil, List.append_assoc]

end Rereadable

/-! ### Reading the file -/

theorem rename_eq_self {r : Renaming} (h : ∀ token, r.apply token = token) (t : Text) : t.rename r = t := by
  have hsegment : ∀ seg, r.segment seg = seg.text := by
    intro seg
    cases seg with
    | gap c => rfl
    | token t => exact h t
  rw [Text.rename, funext hsegment, Token.flatten_segments]

private theorem renameDeclarations_eq_self {r : Renaming} (h : ∀ token, r.apply token = token)
    (m : Std.ExtTreeMap Text Text) : renameDeclarations r m = m := by
  simp only [renameDeclarations, h, rename_eq_self h]
  exact m.foldl_insert_toList

section Printed

variable (l)

private theorem printed_targets : l.printed.filterMap target? = l.targets := by
  simp [printed, target?, List.filterMap_map, Function.comp_def]

private theorem printed_constants : l.printed.filterMap constant? = l.constants.toList := by
  simp [printed, constant?, List.filterMap_map, Function.comp_def]

private theorem printed_declarations : l.printed.filterMap declaration? = l.declarations.toList := by
  simp [printed, declaration?, List.filterMap_map, Function.comp_def]

private theorem printed_attributes : l.printed.filterMap attributes? = l.attributes := by
  simp [printed, attributes?, List.filterMap_map, Function.comp_def]

private theorem printed_metadata : l.printed.filterMap metadata? = l.metadata := by
  simp [printed, metadata?, List.filterMap_map, Function.comp_def]

private theorem printed_addresses : l.printed.filterMap address? = [] := by
  simp [printed, address?, List.filterMap_map, Function.comp_def]

end Printed

/-- No symbol of a rereadable listing gets another name when its file is read. -/
theorem Rereadable.apply_renamesFor (hl : Rereadable target own helpers l) (token : Text) :
    (renamesFor target own.name l.constants.toList).apply token = token := by
  rcases (renamesFor target own.name l.constants.toList).apply_cases token with ⟨-, h⟩ | h
  · exact h
  · rcases getElem?_renamesFor_cases h with ⟨rfl, h⟩ | ⟨hpool, line, hline⟩
    · rw [h, hl.name_eq]
    · rw [hl.poolSymbol?_eq _ hline] at hpool
      cases hpool

/-- What is read from the file of a rereadable listing. -/
theorem Rereadable.ofDump_render (hl : Rereadable target own helpers l) (comment : Text) :
    ∃ own' helpers', own'.name = own.name ∧ (own' :: helpers').map header = l.headers ∧
      (own' :: helpers').map body = l.bodies ∧
      ofDump target (l.render comment) = .ok (ofParts target own' helpers' l.printed (l.render comment)) := by
  have hfile := hl.render_eq comment
  have hall := Piece.all_file target.name (hl.legible comment)
  have hlines := Piece.topLevels_file (hl.legible comment)
  have hparts := Piece.map_definitionsFrom 0 (l.pieces (own :: helpers) comment)
  rw [← hfile] at hall hlines
  rw [hl.filterMap_line? comment] at hlines
  rw [filterMap_definition?] at hparts
  generalize Piece.definitionsFrom 0 (l.pieces (own :: helpers) comment) = ds at hall hlines hparts
  cases ds with
  | nil => cases hparts
  | cons own' helpers' =>
    have hpart : ∀ {α : Type} (f : Text × Text × Text → α),
        (own' :: helpers').map (fun d => f (d.name, d.header, d.body)) =
          (own :: helpers).map fun d => f (d.name, d.header, d.body) := by
      intro α f
      have := congrArg (List.map f) hparts
      rwa [List.map_map, List.map_map] at this
    have hnames : (own' :: helpers').map name = (own :: helpers).map name := hpart (·.1)
    have hown : own'.name = own.name := (List.cons.inj hnames).1
    have hcompiled : ∀ d' ∈ own' :: helpers', (CompiledName.parse? d'.name).isSome := by
      intro d' hd'
      have hmem : d'.name ∈ (own :: helpers).map name := hnames ▸ List.mem_map_of_mem hd'
      obtain ⟨d, hd, he⟩ := List.mem_map.mp hmem
      exact he ▸ hl.compiled d hd
    refine ⟨own', helpers', hown, ?_, ?_, ?_⟩
    · rw [hl.headers_eq]
      exact hpart (·.2.1)
    · rw [hl.bodies_eq]
      exact hpart (·.2.2)
    · rw [← hlines]
      exact ofDump_eq_ok hall (selfFirst?_cons hcompiled (hown ▸ hl.stem_eq))

/-- **A listing is read back from its file.**  Only the symbols that stand for addresses are gone, and the
file is the new dump. -/
theorem ofDump_render_eq (horderly : Orderly target dump)
    (hself : selfFirst? target.name (definitionsOf target dump) = some (own, helpers))
    (hentry : target.isEntry = false) (hexternal : target.external = Name.bare own.name)
    (h : ofDump target dump = .ok l) (comment : Text) :
    ofDump target (l.render comment) = .ok { l with addresses := {}, dump := l.render comment } := by
  have hkeeps := keeps_of_selfFirst? horderly hself h hentry hexternal
  obtain ⟨r, hl⟩ := rereadable_ofDump hkeeps hself horderly h
  obtain ⟨own', helpers', hname, hheaders, hbodies, hread⟩ := hl.ofDump_render comment
  have hsame : ∀ token, (renamesFor target own'.name l.constants.toList).apply token = token := by
    rw [hname]
    exact hl.apply_renamesFor
  have htexts : ∀ ts : List Text, ts.map (Text.rename (renamesFor target own'.name l.constants.toList)) = ts := by
    intro ts
    rw [funext (rename_eq_self hsame)]
    exact List.map_id ts
  rw [hread, ofParts, Listing.rename]
  simp only [printed_targets, printed_constants, printed_declarations, printed_attributes, printed_metadata,
    printed_addresses, List.foldl_nil, hheaders, hbodies, htexts, hsame, rename_eq_self hsame,
    renameDeclarations_eq_self hsame, Std.ExtTreeMap.foldl_insert_toList, hl.externals_eq, hl.layouts_eq]

/-- The lines of a dump with a helper before the function, a pool entry, a run-time address, lines of all
other kinds, and closing braces within quotes and comments. -/
def sampleLines : List Text :=
  ["target triple = \"x\"", "@\"_j_const#1\" = constant [1 x i8] c\"\x7d\"",
    "@a = constant ptr inttoptr (i64 8 to ptr)",
    "define void @julia_g_2() \x7b", "  ret void", "\x7d",
    "define ptr @\"julia_f_1\"() \x7b", "  ret ptr @\"_j_const#1\" ; \x7d", "\x7d",
    "declare void @h() #0", "attributes #0 = \x7b nounwind \x7d", "!0 = !\x7b\x7d", ""]

/-- The dump. -/
def sampleDump : Text :=
  Text.unlines sampleLines

/-- The function of the dump, under the name that it has there. -/
def sampleTarget : Target :=
  { name := "f", external := "julia_f_1" }

/-- The helper. -/
def sampleHelper : Definition where
  name := "@julia_g_2"
  header := "define void @julia_g_2() \x7b"
  body := "\n  ret void\n"
  start := 101
  stop := 140

/-- The function itself. -/
def sampleFunction : Definition where
  name := "@\"julia_f_1\""
  header := "define ptr @\"julia_f_1\"() \x7b"
  body := "\n  ret ptr @\"_j_const#1\" ; \x7d\n"
  start := 141
  stop := 198

/-- The lines outside the definitions, and what they are. -/
def sampleParts : List TopLevel :=
  [.target "target triple = \"x\"", .constant "@\"_j_const#1\"" "@\"_j_const#1\" = constant [1 x i8] c\"\x7d\"",
    .address "@a" 8, .declaration "@h" "declare void @h() #0", .attributes "attributes #0 = \x7b nounwind \x7d",
    .metadata "!0 = !\x7b\x7d"]

theorem placedLines_sampleDump : placedLines sampleDump = placed 0 sampleLines :=
  placedLines_unlines (by decide +kernel) (by decide)

theorem topLevels_sampleDump : Definition.all sampleTarget.name sampleDump = .ok [sampleHelper, sampleFunction] ∧
    topLevels sampleDump [sampleHelper, sampleFunction] = sampleParts := by
  rw [Definition.all, topLevels, placedLines_sampleDump]
  unfold sampleLines sampleHelper sampleFunction sampleParts
  repeat rw [Text.toList_literal]
  decide +kernel

private theorem orderly_sampleDump : definitionsOf sampleTarget sampleDump = [sampleHelper, sampleFunction] ∧
    Orderly sampleTarget sampleDump := by
  have hdefs : definitionsOf sampleTarget sampleDump = [sampleHelper, sampleFunction] := by
    rw [definitionsOf, topLevels_sampleDump.1]
  refine ⟨hdefs, ?_, ?_, ?_⟩
  · rw [hdefs, placedLines_sampleDump]
    unfold sampleLines sampleHelper sampleFunction
    repeat rw [Text.toList_literal]
    decide +kernel
  · rw [hdefs]
    decide +kernel
  · rw [outside, hdefs, placedLines_sampleDump]
    unfold sampleLines sampleHelper sampleFunction
    repeat rw [Text.toList_literal]
    decide +kernel

/-- The listing of such a dump is read back from its file, with the pool entry under its new name. -/
theorem ofDump_render_eq_sampleDump : Orderly sampleTarget sampleDump ∧
    ∃ l, ofDump sampleTarget sampleDump = .ok l ∧
      l.targets = (["target triple = \"x\""] : List Text) ∧
      l.constants.toList =
        ([("@_j_const_f_1", "@_j_const_f_1 = constant [1 x i8] c\"\x7d\"")] : List (Text × Text)) ∧
      l.headers = (["define ptr @julia_f_1() \x7b", "define void @julia_g_2() \x7b"] : List Text) ∧
      l.bodies = (["\n  ret ptr @_j_const_f_1 ; \x7d\n", "\n  ret void\n"] : List Text) ∧
      l.declarations.toList = ([("@h", "declare void @h() #0")] : List (Text × Text)) ∧
      l.attributes = (["attributes #0 = \x7b nounwind \x7d"] : List Text) ∧
      l.metadata = (["!0 = !\x7b\x7d"] : List Text) ∧
      ofDump sampleTarget (l.render "f") = .ok { l with addresses := {}, dump := l.render "f" } := by
  obtain ⟨hall, hlines⟩ := topLevels_sampleDump
  have hself : selfFirst? sampleTarget.name [sampleHelper, sampleFunction] =
      some (sampleFunction, [sampleHelper]) := by decide +kernel
  obtain ⟨hdefs, horderly⟩ := orderly_sampleDump
  have hlisting := ofDump_eq_ok hall hself
  rw [hlines] at hlisting
  refine ⟨horderly, _, hlisting, ?_, ?_, ?_, ?_, ?_, ?_, ?_,
    ofDump_render_eq horderly (hdefs ▸ hself) rfl (by decide +kernel) hlisting "f"⟩
  all_goals
    unfold sampleFunction sampleHelper sampleParts sampleTarget
    repeat rw [Text.toList_literal]
    rfl

end Listing

end Freestanding
