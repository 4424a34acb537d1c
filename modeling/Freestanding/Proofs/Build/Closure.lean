import Freestanding.Proofs.Program.Assembly
import Mathlib.Control.Monad.Basic

/-!
# Symbols that are left open

An output file should define or declare every symbol that its code mentions.  Lines of the dump are
dropped on the way, though: declarations of the host's services, and symbols that stand for addresses.
Their uses are meant to be rewritten, or to be reported.  This module follows one function from its dump
to its output file, and tells which symbols the file provides, and how one that had a line in the dump
can come to be left open without a report.

It can: reports look for services by a list of their own, at symbols of objects only, and at one symbol
for each address.  Nor does linking look again at what it has renamed.

## Main definitions

* `Listing.Provides` — a symbol is defined or declared in a listing.
* `Passage` — the way of a function through all stages.
* `Passage.Kept` — a symbol that something kept or added on the way provides.
* `Passage.Lost` — how the line of a symbol was lost.
* `Passage.Closed` — the output file provides all symbols that had a line in the dump.

## Main results

* `Passage.provides_iff_kept` — the symbols that an output file provides.
* `Passage.closed_iff` — **when an output file is closed.**
* `Passage.shadowedPassage_not_closed` — a run without a report whose output file is not.
-/

namespace Freestanding

/-- A symbol is defined or declared in a listing. -/
def Listing.Provides (l : Listing) (t : Text) : Prop :=
  t ∈ l.constants ∨ t ∈ l.externals ∨ (∃ header ∈ l.headers, Definition.nameIn? header = some t) ∨
    t ∈ l.declarations

instance (l : Listing) (t : Text) : Decidable (l.Provides t) :=
  inferInstanceAs (Decidable (_ ∨ _ ∨ _ ∨ _))

/-- The way of a function from its dump to its output file.  The listing is taken from the dump, freed of
the collector and of the host's containers, judged to be self-contained, and linked together with other
functions, where every cell that it refers to has a variable. -/
structure Passage where
  /-- What is taken from the dump. -/
  target : Target
  /-- The dump. -/
  dump : Text
  /-- What to do about the collector. -/
  policy : Policy
  /-- The host's memory. -/
  heap : HeapImage
  /-- The function, for errors. -/
  function : Text
  /-- What names its empty instance. -/
  stem : Text
  /-- The listing that was taken from the dump. -/
  extracted : Listing
  /-- The listing after both passes. -/
  freed : Listing
  /-- What was done about the collector. -/
  collector : Collector.Tally
  /-- What was done about containers. -/
  containers : Container.Tally
  /-- The numbers of made-up variables. -/
  counters : Counters
  /-- The variables that are known. -/
  known : Bindings
  /-- The functions that are linked. -/
  functions : List CompiledRoutine
  /-- The program. -/
  program : Program
  /-- The position of the function among them. -/
  position : Nat
  /-- The function before linking. -/
  routine : CompiledRoutine
  /-- The function in the program. -/
  linked : CompiledRoutine
  ofDump_eq : Listing.ofDump target dump = .ok extracted
  freed_eq : extracted.Freed policy heap function stem freed collector containers
  verdict_eq : (Collector.verdict policy function freed).run.value = .ok none
  link_eq : (Program.link heap counters known functions).value.2 = .ok program
  routine_eq : functions[position]? = some routine
  listing_eq : routine.listing = freed
  linked_eq : program.functions[position]? = some linked
  resolved : ∀ a, .missingBinding routine.name a ∉ program.diagnostics

namespace Passage

variable (P : Passage)

/-- A line of the dump outside all definitions declares the symbol or assigns to it. -/
def HasLine (t : Text) : Prop :=
  ∃ line ∈ Listing.outside P.target P.dump, TopLevel.Introduces line t

/-- The lines of the dump that are kept. -/
def lines : List TopLevel :=
  Listing.keptLines P.target P.dump

/-- The new name that a symbol gets when the listing is taken from the dump. -/
def extractedName (s : Text) : Text :=
  (Listing.dumpRenaming P.target P.dump).apply s

/-- The variables of all cells. -/
def table : Bindings :=
  Program.table P.heap P.counters P.known P.functions

/-- The renaming of the function in the program. -/
def linkRenaming : Renaming :=
  Linker.renamingOf P.table (P.functions.map CompiledRoutine.toRoutine) P.freed

/-- The new name that a symbol gets when the function is linked. -/
def linkedName (s : Text) : Text :=
  P.linkRenaming.apply s

/-- The symbols that the output file provides, told from the dump and from what was done on the way. -/
inductive Kept : Text → Prop
  /-- A constant of the dump. -/
  | constant {s line : Text} (h : .constant s line ∈ P.lines) : Kept (P.extractedName s)
  /-- A declaration of the dump. -/
  | declaration {s line : Text} (h : .declaration s line ∈ P.lines) :
    Kept (P.linkedName (P.extractedName s))
  /-- The variable of a cell. -/
  | cell {a : UInt64} {b : Binding} (ha : a ∈ P.freed.addresses.cells) (hb : P.table[a]? = some b) :
    Kept b.symbol
  /-- A definition. -/
  | definition {header t : Text} (h : header ∈ P.extracted.headers)
    (ht : Definition.nameIn? (header.rename P.linkRenaming) = some t) : Kept t
  /-- The empty instance, for loads that were changed. -/
  | singleton (h : 0 < P.containers.dereferences) : Kept (Container.singletonSymbol P.stem)
  /-- An allocator, for allocations that were replaced. -/
  | malloc (h : 0 < P.collector.substituted ∨ 0 < P.containers.allocations) :
    Kept (P.linkedName "@malloc")
  /-- An allocator, for containers that have to be cleared. -/
  | calloc (h : 0 < P.containers.cleared) : Kept (P.linkedName "@calloc")

/-- How the line of a symbol was lost. -/
inductive Lost (t : Text) : Prop
  /-- It declares a service of the host, and the declaration was dropped.  The reports miss the service:
  they have no marker for it, or it shows in no line of code. -/
  | service {line : Text} (hline : line ∈ Listing.outside P.target P.dump)
    (h : TopLevel.Introduces line t) (hservice : TopLevel.isService (Name.bare t))
    (hmissed : ∀ marker ∈ Residue.callMarkers ++ Residue.frameMarkers, t.startsWith marker →
      ∀ text ∈ P.freed.functionTexts, ∀ line ∈ text.printedLines, ¬ Text.occurs t (Line.code line))
  /-- It makes the symbol stand for a container type. -/
  | container (h : P.freed.addresses.isContainer t)
  /-- It makes the symbol stand for an address for which an earlier symbol stands. -/
  | shadowed {a : UInt64} {t' : Text} (h : .address t a ∈ P.lines)
    (h' : (P.freed.addresses.part (Name.bare t))[a]? = some t') (hne : t' ≠ t)
  /-- It makes the symbol stand for an object, and the symbol comes into the code by linking only. -/
  | formed {a : UInt64} {body : Text} (h : P.freed.addresses.others[a]? = some t)
    (hbody : body ∈ P.freed.bodies) (hafter : t ∈ Token.globals (body.rename P.linkRenaming))
    (hbefore : t ∉ Token.globals body)
  /-- It makes the symbol stand for a cell, and the symbol is replaced by another one. -/
  | cell {a : UInt64} (h : P.freed.addresses.cells[a]? = some t) (hne : P.linkedName t ≠ t)
  /-- It is kept as a constant of another name. -/
  | constant {line : Text} (h : .constant t line ∈ P.lines) (hne : P.extractedName t ≠ t)
  /-- It is kept as a declaration of another name. -/
  | declaration {line : Text} (h : .declaration t line ∈ P.lines)
    (hne : P.linkedName (P.extractedName t) ≠ t)

/-! ### The output file -/

/-- The way of the function without the judgements on it. -/
def assembly : Assembly where
  __ := P

theorem linked_listing : P.linked.listing =
    { P.freed with externals := (Linker.referencesOf P.table P.freed).externals }.rename
      P.linkRenaming :=
  P.assembly.linked_listing

theorem mem_externals {t : Text} : t ∈ P.linked.listing.externals ↔
    ∃ a ∈ P.freed.addresses.cells, ∃ b, P.table[a]? = some b ∧ b.symbol = t :=
  P.assembly.mem_externals

theorem mem_declarations {t : Text} : t ∈ P.linked.listing.declarations ↔
    ∃ s ∈ P.freed.declarations, P.linkedName s = t :=
  P.assembly.mem_declarations

private theorem mem_headers {header : Text} : header ∈ P.linked.listing.headers ↔
    ∃ header' ∈ P.extracted.headers, header'.rename P.linkRenaming = header := by
  have heq : P.linked.listing.headers = P.extracted.headers.map (Text.rename P.linkRenaming) :=
    P.assembly.headers_eq
  rw [heq, List.mem_map]

/-- **The symbols that the output file provides**, told from the dump and from what was done on the
way. -/
theorem provides_iff_kept (t : Text) : P.linked.listing.Provides t ↔ P.Kept t := by
  constructor
  · rintro (h | h | ⟨header, h, ht⟩ | h)
    · rcases P.assembly.mem_constants.mp h with ⟨s, line, hs, rfl⟩ | ⟨hpos, rfl⟩
      · exact .constant hs
      · exact .singleton hpos
    · obtain ⟨a, ha, b, hb, rfl⟩ := P.mem_externals.mp h
      exact .cell ha hb
    · obtain ⟨header', h', rfl⟩ := P.mem_headers.mp h
      exact .definition h' ht
    · obtain ⟨s, hs, rfl⟩ := P.mem_declarations.mp h
      rcases P.assembly.mem_declarations_freed.mp hs with ⟨s, line, hline, rfl⟩ | ⟨hpos, rfl⟩ | ⟨hpos, rfl⟩
      · exact .declaration hline
      · exact .malloc hpos
      · exact .calloc hpos
  · have hdecl : ∀ s ∈ P.freed.declarations, P.linked.listing.Provides (P.linkedName s) :=
      fun s hs => .inr (.inr (.inr (P.mem_declarations.mpr ⟨s, hs, rfl⟩)))
    intro h
    cases h with
    | constant hs => exact .inl (P.assembly.mem_constants.mpr (.inl ⟨_, _, hs, rfl⟩))
    | declaration hs => exact hdecl _ (P.assembly.mem_declarations_freed.mpr (.inl ⟨_, _, hs, rfl⟩))
    | cell ha hb => exact .inr (.inl (P.mem_externals.mpr ⟨_, ha, _, hb, rfl⟩))
    | definition h ht => exact .inr (.inr (.inl ⟨_, P.mem_headers.mpr ⟨_, h, rfl⟩, ht⟩))
    | singleton hpos => exact .inl (P.assembly.mem_constants.mpr (.inr ⟨hpos, rfl⟩))
    | malloc hpos => exact hdecl _ (P.assembly.mem_declarations_freed.mpr (.inr (.inl ⟨hpos, rfl⟩)))
    | calloc hpos => exact hdecl _ (P.assembly.mem_declarations_freed.mpr (.inr (.inr ⟨hpos, rfl⟩)))

/-! ### Lines that are lost -/

theorem residue?_eq_none : P.freed.residue? = none := by
  have h := P.verdict_eq
  rw [Collector.verdict] at h
  split at h
  · assumption
  · -- a listing with residue is an error or a finding
    rename_i residue _
    by_cases hp : P.policy = .strict
    · exact absurd h (by simp [hp, bind, ExceptT.bind, ExceptT.mk, ExceptT.run, throw, throwThe,
        MonadExceptOf.throw, ExceptT.bindCont, pure])
    · exact absurd h (by simp [hp, bind, ExceptT.bind, ExceptT.mk, ExceptT.run, ExceptT.bindCont,
        pure, ExceptT.pure, Attempt.warn, ExceptT.lift, Logged.warn, Functor.map])

/-- Code that is judged to be self-contained shows no marker of the host's services. -/
theorem occurs_marker_eq_false {marker text line : Text}
    (hmarker : marker ∈ Residue.callMarkers ++ Residue.frameMarkers)
    (htext : text ∈ P.freed.functionTexts) (hline : line ∈ text.printedLines) :
    ¬ Text.occurs marker (Line.code line) := by
  have hnone := P.residue?_eq_none
  rw [Listing.residue?, Option.or_eq_none_iff, List.findSome?_eq_none_iff] at hnone
  have hcode : Residue.ofCode? (Line.code line) = none :=
    List.findSome?_eq_none_iff.mp (hnone.1 text htext) line hline
  rw [Residue.ofCode?] at hcode
  split at hcode
  · exact absurd hcode (by simp)
  · rename_i hcalls
    split at hcode
    · exact absurd hcode (by simp)
    · rename_i hframes
      rcases List.mem_append.mp hmarker with hmem | hmem
      · exact List.find?_eq_none.mp hcalls marker hmem
      · exact List.find?_eq_none.mp hframes marker hmem

/-- Code that is judged to be self-contained mentions no symbol of the table of objects. -/
theorem notMem_globals_of_others {a : UInt64} {t : Text} (h : P.freed.addresses.others[a]? = some t) :
    t ∉ P.freed.bodies.flatMap Token.globals := by
  intro ht
  have hnone := P.residue?_eq_none
  rw [Listing.residue?, Option.or_eq_none_iff, Option.or_eq_none_iff, Option.map_eq_none_iff,
    List.find?_eq_none] at hnone
  exact hnone.2.2 t ht (List.contains_iff_mem.mpr (Std.ExtTreeMap.mem_values_of_getElem? h))

/-- Every cell of the function has a variable, since none is reported. -/
theorem exists_variable {a : UInt64} (ha : a ∈ P.freed.addresses.cells) :
    ∃ b, P.table[a]? = some b := by
  obtain ⟨-, hsettled, -, -, hdiagnostics⟩ := Program.link_spec P.link_eq
  have hmem : P.routine ∈ P.functions := List.mem_of_getElem? P.routine_eq
  have hcells : a ∈ Linker.cellsOf P.routine := by
    rw [Linker.mem_cellsOf, P.listing_eq]
    exact ha
  have hres : Linker.Resolvable P.heap P.known a := by
    by_cases h : Linker.Resolvable P.heap P.known a
    · exact h
    · refine absurd ?_ (P.resolved a)
      obtain ⟨c, hc, rfl⟩ := List.mem_map.mp hcells
      rw [hdiagnostics]
      refine List.mem_flatMap.mpr ⟨P.routine, hmem, List.mem_map.mpr ⟨c, ?_, rfl⟩⟩
      exact List.mem_filter.mpr ⟨hc, by simpa using h⟩
  exact Std.ExtTreeMap.mem_iff_exists.mp
    (hsettled a (List.mem_flatMap.mpr ⟨P.routine, hmem, hcells⟩) hres)

/-- What takes the place of the symbol of a cell is provided. -/
theorem provides_linkedName_of_cell {a : UInt64} {t : Text}
    (h : P.freed.addresses.cells[a]? = some t) : P.linked.listing.Provides (P.linkedName t) := by
  have ha : (a, t) ∈ P.freed.addresses.cells.toList :=
    Std.ExtTreeMap.mem_toList_iff_getElem?_eq_some.mpr h
  have hname : P.linkedName t = (P.linkRenaming[t]?).getD t :=
    Std.ExtTreeMap.getD_eq_getD_getElem?
  rcases Linker.resolveCallees_cases (P.functions.map CompiledRoutine.toRoutine)
    P.freed.declarations.toList (Linker.referencesOf P.table P.freed).renames t with
      ⟨line, name, hline, -, -⟩ | ⟨-, heq⟩
  · -- the symbol is also declared, and its declaration goes along
    have hdecl : t ∈ P.freed.declarations := Std.ExtTreeMap.mem_of_mem_toList hline
    exact .inr (.inr (.inr (P.mem_declarations.mpr ⟨t, hdecl, rfl⟩)))
  · rcases Linker.References.renames_resolve_cases P.table P.freed.addresses.cells.toList
      { externals := P.freed.externals } t with ⟨c, hc, -, b, hb, hr⟩ | ⟨hnone, -⟩
    · have hsymbol : P.linkedName t = b.symbol := by
        rw [hname, linkRenaming, Linker.renamingOf, heq, Linker.referencesOf, hr]
        rfl
      rw [hsymbol]
      exact .inr (.inl (P.mem_externals.mpr ⟨c.1, Std.ExtTreeMap.mem_of_mem_toList hc, b, hb, rfl⟩))
    · obtain ⟨b, hb⟩ := P.exists_variable (Std.ExtTreeMap.mem_of_mem_toList ha)
      rw [hnone _ ha rfl] at hb
      exact absurd hb (by simp)

/-- Where the line of a symbol went that stands for an address. -/
theorem lost_of_address {t : Text} {a : UInt64}
    (ht : t ∈ P.linked.listing.bodies.flatMap Token.globals) (h : .address t a ∈ P.lines)
    (hopen : ¬ P.linked.listing.Provides t) : P.Lost t := by
  have hpart := Listing.mem_part_ofDump P.ofDump_eq h
  rw [← P.freed_eq.frame.2.1] at hpart
  obtain ⟨t', ht'⟩ := Std.ExtTreeMap.mem_iff_exists.mp hpart
  by_cases hne : t' = t
  · subst hne
    rw [AddressTable.part] at ht'
    split at ht'
    · -- a cell that linking left alone would be provided under the same symbol
      refine .cell ht' fun heq => hopen ?_
      have := P.provides_linkedName_of_cell ht'
      rwa [heq] at this
    · split at ht'
      · exact .container (List.contains_iff_mem.mpr (Std.ExtTreeMap.mem_values_of_getElem? ht'))
      · -- objects are looked for before linking, and the symbol is in the code after it
        obtain ⟨text, htext, hin⟩ := List.mem_flatMap.mp ht
        rw [P.linked_listing] at htext
        obtain ⟨body, hbody, rfl⟩ := List.mem_map.mp htext
        refine .formed ht' hbody hin fun hbefore => P.notMem_globals_of_others ht' ?_
        exact List.mem_flatMap.mpr ⟨body, hbody, hbefore⟩
  · exact .shadowed h ht' hne

/-- The line of a symbol that the output file does not provide was lost in one of seven ways. -/
theorem lost_of_open {t : Text} (ht : t ∈ P.linked.listing.bodies.flatMap Token.globals)
    (hline : P.HasLine t) (hopen : ¬ P.linked.listing.Provides t) : P.Lost t := by
  obtain ⟨line, hmem, hintro⟩ := hline
  have hkept : ∀ {l : TopLevel}, TopLevel.ofTrimmed? line = some l → l ∈ P.lines :=
    fun hl => List.mem_filterMap.mpr ⟨line, hmem, hl⟩
  rcases TopLevel.introduces_cases hintro with ⟨-, hservice⟩ | hdecl | hconst | ⟨a, haddr⟩
  · -- a service whose symbol starts with a marker would have been reported where it shows
    refine .service hmem hintro hservice ?_
    intro marker hmarker hstart text htext line hline hoccurs
    exact P.occurs_marker_eq_false hmarker htext hline (Text.occurs_of_startsWith hstart hoccurs)
  · refine .declaration (hkept hdecl) fun heq => hopen ?_
    have := (P.provides_iff_kept _).mpr (.declaration (hkept hdecl))
    rwa [heq] at this
  · refine .constant (hkept hconst) fun heq => hopen ?_
    have := (P.provides_iff_kept _).mpr (.constant (hkept hconst))
    rwa [heq] at this
  · exact P.lost_of_address ht (hkept haddr) hopen

/-- The output file is closed: it provides every symbol of its code that had a line in the dump. -/
def Closed : Prop :=
  ∀ t ∈ P.linked.listing.bodies.flatMap Token.globals, P.HasLine t → P.linked.listing.Provides t

/-- **When an output file is closed.**  It is so exactly if every symbol of its code whose line was lost
in one of the seven ways is provided by something else that was kept or added. -/
theorem closed_iff : P.Closed ↔
    ∀ t ∈ P.linked.listing.bodies.flatMap Token.globals, P.HasLine t → P.Lost t → P.Kept t := by
  constructor
  · intro h t ht hline _
    exact (P.provides_iff_kept t).mp (h t ht hline)
  · intro h t ht hline
    by_cases hopen : P.linked.listing.Provides t
    · exact hopen
    · exact (P.provides_iff_kept t).mpr (h t ht hline (P.lost_of_open ht hline hopen))

/-! ### An open symbol -/

/-- A dump in which two symbols stand for one object, and the code mentions the second one. -/
def shadowedDump : Text :=
  "@a = constant ptr inttoptr (i64 8 to ptr)\n" ++
  "@b = constant ptr inttoptr (i64 8 to ptr)\n" ++
  "define ptr @julia_f_1() \x7b\n  ret ptr @b\n\x7d\n"

/-- The one definition of the dump. -/
def shadowedDefinition : Definition where
  name := "@julia_f_1"
  header := "define ptr @julia_f_1() \x7b"
  body := "\n  ret ptr @b\n"
  start := 84
  stop := 124

/-- The function that is made of it. -/
def shadowedRoutine : Routine where
  handle := ⟨0⟩
  name := "f"
  mangled := "Main_f"
  arguments := []
  scope := ["Main"]
  isEntry := true
  overload := 0

/-- Its code: the table of objects has the first symbol only. -/
def shadowedListing : Listing :=
  .ofParts shadowedRoutine.target shadowedDefinition [] [.address "@a" 8, .address "@b" 8] shadowedDump

private theorem ofDump_shadowedDump :
    Listing.ofDump shadowedRoutine.target shadowedDump = .ok shadowedListing := by
  have hall : Definition.all shadowedRoutine.target.name shadowedDump =
      .ok [shadowedDefinition] := by decide +kernel
  have hself : Listing.selfFirst? shadowedRoutine.target.name [shadowedDefinition] =
      some (shadowedDefinition, []) := by decide +kernel
  have hlines : Listing.topLevels shadowedDump [shadowedDefinition] =
      [.address "@a" 8, .address "@b" 8] := by decide +kernel
  rw [Listing.ofDump_eq_ok hall hself, hlines, shadowedListing]

/-- Its way to the output file, alone and under the strict policy: no stage changes the code. -/
def shadowedPassage : Passage where
  target := shadowedRoutine.target
  dump := shadowedDump
  policy := .strict
  heap := {}
  function := shadowedRoutine.name
  stem := shadowedRoutine.outputName
  extracted := shadowedListing
  freed := shadowedListing
  collector := {}
  containers := {}
  counters := ∅
  known := ∅
  functions := [⟨shadowedRoutine, shadowedListing⟩]
  program := {
    units := .insert ∅ ["Main"] { scope := ["Main"], functions := [0] }
    functions := [Linker.linked ∅ [shadowedRoutine] ⟨shadowedRoutine, shadowedListing⟩] }
  position := 0
  routine := ⟨shadowedRoutine, shadowedListing⟩
  linked := Linker.linked ∅ [shadowedRoutine] ⟨shadowedRoutine, shadowedListing⟩
  ofDump_eq := ofDump_shadowedDump
  freed_eq := ⟨rfl, Container.lower_eq_self (by decide +kernel) (by decide +kernel)⟩
  verdict_eq := by
    have hnone : shadowedListing.residue? = none := by decide +kernel
    rw [Collector.verdict, hnone]
    rfl
  link_eq := rfl
  routine_eq := rfl
  listing_eq := rfl
  linked_eq := rfl
  resolved := by simp

/-- The second symbol is left open, and nothing is reported, because the table of objects has only the
first one. -/
theorem shadowedPassage_not_closed : ¬ shadowedPassage.Closed := by
  intro h
  have hline : shadowedPassage.HasLine "@b" :=
    ⟨"@b = constant ptr inttoptr (i64 8 to ptr)", by decide +kernel,
      .assigns "constant ptr inttoptr (i64 8 to ptr)" (by decide +kernel)⟩
  have hopen : ¬ shadowedPassage.linked.listing.Provides "@b" := by decide +kernel
  exact hopen (h "@b" (by decide +kernel) hline)

end Passage

end Freestanding
