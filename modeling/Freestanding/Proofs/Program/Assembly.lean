import Freestanding.Proofs.Listing.Lines
import Freestanding.Proofs.Listing.Passes
import Freestanding.Proofs.Program.Resolution

/-!
# From a dump to an output file

A function is taken from its dump, freed of the collector and of the host's containers, and linked
together with other functions.  Each stage has its own renaming and its own additions.  This module puts
them together, and tells the symbols of the output file from the dump and from what was done on the way.

## Main definitions

* `Assembly` — the way of a function from its dump into a program.
* `Assembly.extractedName`, `Assembly.linkedName` — the new names that symbols get on it.

## Main results

* `Assembly.linked_listing` — the listing at the end.
* `Assembly.mem_constants`, `Assembly.mem_externals`, `Assembly.mem_declarations`, `Assembly.headers_eq` —
  what it defines and declares.
* `Assembly.linkedName_eq` — linking renames cells and declared functions only.
-/

namespace Freestanding

/-- The way of a function from its dump into a program.  The listing is taken from the dump, freed of the
collector and of the host's containers, and linked together with other functions. -/
structure Assembly where
  /-- What is taken from the dump. -/
  target : Target
  /-- The dump. -/
  dump : Text
  /-- What to do about the collector. -/
  policy : Policy
  /-- The host's memory. -/
  heap : HeapImage
  /-- The function, for errors. -/
  function : Text
  /-- What names its empty instance. -/
  stem : Text
  /-- The listing that was taken from the dump. -/
  extracted : Listing
  /-- The listing after both passes. -/
  freed : Listing
  /-- What was done about the collector. -/
  collector : Collector.Tally
  /-- What was done about containers. -/
  containers : Container.Tally
  /-- The numbers of made-up variables. -/
  counters : Counters
  /-- The variables that are known. -/
  known : Bindings
  /-- The functions that are linked. -/
  functions : List CompiledRoutine
  /-- The program. -/
  program : Program
  /-- The position of the function among them. -/
  position : Nat
  /-- The function before linking. -/
  routine : CompiledRoutine
  /-- The function in the program. -/
  linked : CompiledRoutine
  ofDump_eq : Listing.ofDump target dump = .ok extracted
  freed_eq : extracted.Freed policy heap function stem freed collector containers
  link_eq : (Program.link heap counters known functions).value.2 = .ok program
  routine_eq : functions[position]? = some routine
  listing_eq : routine.listing = freed
  linked_eq : program.functions[position]? = some linked

namespace Assembly

variable (A : Assembly)

/-- The lines of the dump that are kept. -/
def lines : List TopLevel :=
  Listing.keptLines A.target A.dump

/-- The new name that a symbol gets when the listing is taken from the dump. -/
def extractedName (s : Text) : Text :=
  (Listing.dumpRenaming A.target A.dump).apply s

/-- The functions of the program. -/
def routines : List Routine :=
  A.functions.map CompiledRoutine.toRoutine

/-- The variables of all cells. -/
def table : Bindings :=
  Program.table A.heap A.counters A.known A.functions

/-- The renaming of the function in the program. -/
def linkRenaming : Renaming :=
  Linker.renamingOf A.table A.routines A.freed

/-- The new name that a symbol gets when the function is linked. -/
def linkedName (s : Text) : Text :=
  A.linkRenaming.apply s

/-! ### The output file -/

theorem linked_listing : A.linked.listing =
    { A.freed with externals := (Linker.referencesOf A.table A.freed).externals }.rename
      A.linkRenaming := by
  obtain ⟨-, -, -, hfunctions, -⟩ := Program.link_spec A.link_eq
  have h := A.linked_eq
  rw [hfunctions, List.getElem?_map, A.routine_eq] at h
  have hlinked : Linker.linked A.table A.routines A.routine = A.linked := Option.some.inj h
  rw [← hlinked, Linker.linked, A.listing_eq]
  rfl

theorem mem_constants {t : Text} : t ∈ A.linked.listing.constants ↔
    (∃ s line, .constant s line ∈ A.lines ∧ A.extractedName s = t) ∨
      0 < A.containers.dereferences ∧ t = Container.singletonSymbol A.stem := by
  rw [A.linked_listing]
  exact A.freed_eq.mem_constants.trans (or_congr_left (Listing.mem_constants_ofDump A.ofDump_eq))

theorem mem_externals {t : Text} : t ∈ A.linked.listing.externals ↔
    ∃ a ∈ A.freed.addresses.cells, ∃ b, A.table[a]? = some b ∧ b.symbol = t := by
  have hnone : A.freed.externals = ∅ :=
    A.freed_eq.frame.2.2.trans (Listing.externals_ofDump A.ofDump_eq)
  rw [A.linked_listing]
  refine (Linker.References.mem_externals_resolve _).trans ?_
  rw [hnone]
  constructor
  · rintro (h | ⟨c, hc, b, hb, ht⟩)
    · exact absurd h Std.ExtTreeMap.not_mem_empty
    · exact ⟨c.1, Std.ExtTreeMap.mem_of_mem_toList hc, b, hb, ht⟩
  · rintro ⟨a, ha, b, hb, ht⟩
    obtain ⟨old, hold⟩ := Std.ExtTreeMap.exists_mem_toList ha
    exact .inr ⟨(a, old), hold, b, hb, ht⟩

theorem mem_declarations_freed {t : Text} : t ∈ A.freed.declarations ↔
    (∃ s line, .declaration s line ∈ A.lines ∧ A.extractedName s = t) ∨
      (0 < A.collector.substituted ∨ 0 < A.containers.allocations) ∧ t = "@malloc" ∨
      0 < A.containers.cleared ∧ t = "@calloc" :=
  A.freed_eq.mem_declarations.trans (or_congr_left (Listing.mem_declarations_ofDump A.ofDump_eq))

theorem mem_declarations {t : Text} : t ∈ A.linked.listing.declarations ↔
    ∃ s ∈ A.freed.declarations, A.linkedName s = t := by
  rw [A.linked_listing]
  exact Listing.mem_renameDeclarations

theorem headers_eq : A.linked.listing.headers = A.extracted.headers.map (Text.rename A.linkRenaming) := by
  rw [A.linked_listing, ← A.freed_eq.frame.1]
  rfl

/-! ### New names -/

/-- A symbol that stands for no cell gets a new name if it is declared and its function is found. -/
theorem linkedName_eq {s : Text} (h : ∀ a : UInt64, A.freed.addresses.cells[a]? ≠ some s) :
    A.linkedName s = (((A.freed.declarations[s]?).bind (Callee.resolve? A.routines s)).map Name.symbol).getD s := by
  have hcells : (Linker.referencesOf A.table A.freed).renames[s]? = none := by
    rcases Linker.References.renames_resolve_cases A.table A.freed.addresses.cells.toList
      { externals := A.freed.externals } s with ⟨c, hc, rfl, -⟩ | ⟨-, hnone⟩
    · exact absurd (Std.ExtTreeMap.mem_toList_iff_getElem?_eq_some.mp hc) (h c.1)
    · exact hnone
  have hname : A.linkedName s = (A.linkRenaming[s]?).getD s := Std.ExtTreeMap.getD_eq_getD_getElem?
  rw [hname, linkRenaming, Linker.renamingOf]
  rcases Linker.resolveCallees_cases A.routines A.freed.declarations.toList
    (Linker.referencesOf A.table A.freed).renames s with ⟨line, name, hline, hres, hnew⟩ | ⟨hnone, hsame⟩
  · rw [hnew, Std.ExtTreeMap.mem_toList_iff_getElem?_eq_some.mp hline, Option.bind_some, hres]
    rfl
  · rw [hsame, hcells]
    cases hline : A.freed.declarations[s]? with
    | none => rfl
    | some line =>
      rw [Option.bind_some, hnone line (Std.ExtTreeMap.mem_toList_iff_getElem?_eq_some.mpr hline)]
      rfl

/-- The symbols of cells are those of lines of the dump. -/
theorem address_of_cell {a : UInt64} {s : Text} (h : A.freed.addresses.cells[a]? = some s) :
    .address s a ∈ A.lines ∧ Text.occurs "jl_global" (Name.bare s) := by
  rw [A.freed_eq.frame.2.1] at h
  exact Listing.address_of_getElem?_cells A.ofDump_eq h

/-- A symbol whose name neither tells a cell nor is a compiled one stays when the function is linked. -/
theorem linkedName_eq_self {s : Text} (hcell : Text.occurs "jl_global" (Name.bare s) = false)
    (hcompiled : CompiledName.parse? s = none) : A.linkedName s = s := by
  have hnone : ∀ line, Callee.resolve? A.routines s line = none := by
    intro line
    rw [Callee.resolve?, hcompiled]
    rfl
  have h : ∀ a : UInt64, A.freed.addresses.cells[a]? ≠ some s := by
    intro a ha
    rw [(A.address_of_cell ha).2] at hcell
    cases hcell
  rw [A.linkedName_eq h]
  cases A.freed.declarations[s]? with
  | none => rfl
  | some line =>
    rw [Option.bind_some, hnone line]
    rfl

end Assembly

end Freestanding
