import Freestanding.Listing.Dump
import Freestanding.Proofs.OrderedMap

/-!
# Where the lines of a dump go

A line outside all definitions that declares a function or assigns to a symbol is kept as a
declaration or as a constant, or it makes a symbol stand for an address, or it declares a service of the
host and is dropped.  Kept lines stand in the listing under the new names of their symbols.  A symbol
that stands for an address goes to one of three tables, unless an earlier one has the same address there.

## Main definitions

* `Listing.outside` — the lines of a dump outside all definitions.
* `TopLevel.Introduces` — a line declares a symbol or assigns to it.
* `AddressTable.part` — the table that the name of a symbol selects.
* `Listing.dumpRenaming` — the renaming that goes with a dump.

## Main results

* `TopLevel.introduces_cases` — where such a line goes.
* `Listing.mem_constants_ofDump`, `Listing.mem_declarations_ofDump` — the names of kept lines.
* `Listing.mem_part_ofDump` — an address that a symbol stands for is in its table.
* `Listing.selfFirst?_perm`, `Listing.headers_ofDump` — the definitions that are kept.
-/

namespace Freestanding

/-! ### Lines -/

namespace TopLevel

/-- A line declares a function or assigns to a symbol. -/
inductive Introduces (line symbol : Text) : Prop
  /-- It declares a function. -/
  | declares (h : line.startsWith "declare ") (hname : Definition.nameIn? line = some symbol)
  /-- It assigns to a symbol. -/
  | assigns (value : Text) (h : assignment? line = some (symbol, value))

theorem ofTrimmed?_of_declare {line : Text} (h : line.startsWith "declare ") :
    ofTrimmed? line = (Definition.nameIn? line).bind fun symbol =>
      if isService (Name.bare symbol) then none else some (.declaration symbol line) := by
  obtain ⟨rest, hrest⟩ := Option.isSome_iff_exists.mp h
  rw [Text.stripPrefix?_eq_some_iff] at hrest
  have hline : line = 'd' :: 'e' :: 'c' :: 'l' :: 'a' :: 'r' :: 'e' :: ' ' :: rest := hrest
  -- the tests that come before the one for declarations all fail at the first letters
  have hskip : (line.isEmpty || line.startsWith ";" || line.startsWith "source_filename") = false := by
    rw [hline]
    rfl
  have htarget : line.startsWith "target " = false := by
    rw [hline]
    rfl
  rw [ofTrimmed?, hskip, htarget, if_neg Bool.false_ne_true, if_neg Bool.false_ne_true, if_pos h]
  rfl

private theorem exists_cons_of_assignment? {line symbol value : Text}
    (h : assignment? line = some (symbol, value)) : ∃ rest, line = '@' :: rest := by
  rw [assignment?, Option.bind_eq_bind, Option.bind_eq_some_iff] at h
  obtain ⟨⟨token, rest⟩, htoken, -⟩ := h
  have hread := (Option.filter_eq_some_iff.mp htoken).1
  cases line with
  | nil => exact absurd hread (by simp [Token.read?])
  | cons c line =>
    by_cases hc : c = '@'
    · exact ⟨line, by rw [hc]⟩
    · exact absurd hread (by simp [Token.read?, hc])

theorem ofTrimmed?_of_assignment {line symbol value : Text}
    (h : assignment? line = some (symbol, value)) :
    ofTrimmed? line = match Line.address? value with
      | some a => some (.address symbol a)
      | none => some (.constant symbol line) := by
  obtain ⟨rest, rfl⟩ := exists_cons_of_assignment? h
  have hskip : ofTrimmed? ('@' :: rest) = (assignment? ('@' :: rest)).bind fun p =>
      match Line.address? p.2 with
      | some a => some (.address p.1 a)
      | none => some (.constant p.1 ('@' :: rest)) := rfl
  rw [hskip, h]
  rfl

/-- **Where a line goes that introduces a symbol.** -/
theorem introduces_cases {line symbol : Text} (h : Introduces line symbol) :
    (line.startsWith "declare " ∧ isService (Name.bare symbol)) ∨
    ofTrimmed? line = some (.declaration symbol line) ∨
    ofTrimmed? line = some (.constant symbol line) ∨
    ∃ a, ofTrimmed? line = some (.address symbol a) := by
  cases h with
  | declares h hname =>
    by_cases hs : isService (Name.bare symbol)
    · exact .inl ⟨h, hs⟩
    · refine .inr (.inl ?_)
      rw [ofTrimmed?_of_declare h, hname, Option.bind_some, if_neg hs]
  | assigns value h =>
    refine .inr (.inr ?_)
    rw [ofTrimmed?_of_assignment h]
    cases Line.address? value with
    | none => exact .inl rfl
    | some a => exact .inr ⟨a, rfl⟩

end TopLevel

/-! ### Tables of addresses -/

namespace AddressTable

/-- The table that the name of a symbol selects. -/
def part (t : AddressTable) (name : Text) : Std.ExtTreeMap UInt64 Text :=
  if Text.occurs "jl_global" name then t.cells
  else if Text.occurs "GenericMemory" name then t.containers
  else t.others

private theorem mem_part_enter_self (t : AddressTable) (symbol : Text) (a : UInt64) :
    a ∈ (t.enter symbol a).part (Name.bare symbol) := by
  rw [enter, part]
  generalize Text.occurs "jl_global" (Name.bare symbol) = isCell
  generalize Text.occurs "GenericMemory" (Name.bare symbol) = isContainer
  cases isCell <;> cases isContainer <;> simp

private theorem mem_part_enter {t : AddressTable} {a : UInt64} {name : Text} (h : a ∈ t.part name)
    (symbol : Text) (a' : UInt64) : a ∈ (t.enter symbol a').part name := by
  rw [part] at h ⊢
  rw [enter]
  -- the table of the entry and the table that is asked for are each one of three
  generalize Text.occurs "jl_global" (Name.bare symbol) = isCell
  generalize Text.occurs "GenericMemory" (Name.bare symbol) = isContainer
  generalize Text.occurs "jl_global" name = asksCell at h ⊢
  generalize Text.occurs "GenericMemory" name = asksContainer at h ⊢
  cases isCell <;> cases isContainer <;> cases asksCell <;> cases asksContainer <;> simp_all

/-- Entries never leave a table. -/
theorem mem_part_foldl_enter_of_mem (entries : List (Text × UInt64)) {t : AddressTable} {a : UInt64}
    {name : Text} (h : a ∈ t.part name) :
    a ∈ (entries.foldl (fun t x => t.enter x.1 x.2) t).part name := by
  induction entries generalizing t with
  | nil => exact h
  | cons e entries ih => exact ih (mem_part_enter h e.1 e.2)

/-- An address that a symbol stands for is in the table of the symbol. -/
theorem mem_part_foldl_enter {entries : List (Text × UInt64)} {symbol : Text} {a : UInt64}
    (h : (symbol, a) ∈ entries) (t : AddressTable) :
    a ∈ (entries.foldl (fun t x => t.enter x.1 x.2) t).part (Name.bare symbol) := by
  induction entries generalizing t with
  | nil => exact absurd h (by simp)
  | cons e entries ih =>
    rcases List.mem_cons.mp h with heq | hmem
    · -- from here on the address stays, whichever symbol it was entered for
      rw [← heq]
      exact mem_part_foldl_enter_of_mem entries (mem_part_enter_self t symbol a)
    · exact ih hmem _

/-- The table of cells has only symbols that stand for addresses, and their names say so. -/
theorem getElem?_cells_foldl_enter {entries : List (Text × UInt64)} {t : AddressTable} {a : UInt64}
    {symbol : Text} (h : (entries.foldl (fun t x => t.enter x.1 x.2) t).cells[a]? = some symbol) :
    t.cells[a]? = some symbol ∨
      (symbol, a) ∈ entries ∧ Text.occurs "jl_global" (Name.bare symbol) := by
  induction entries generalizing t with
  | nil => exact .inl h
  | cons e entries ih =>
    rcases ih h with hcell | ⟨hmem, hname⟩
    · unfold enter at hcell
      dsimp only at hcell
      split at hcell
      · next hname =>
        rw [Std.ExtTreeMap.getElem?_insertIfNew] at hcell
        split at hcell
        · next hcond =>
          obtain rfl := Std.LawfulEqOrd.eq_of_compare hcond.1
          obtain rfl := Option.some.inj hcell
          exact .inr ⟨List.mem_cons_self, hname⟩
        · exact .inl hcell
      · split at hcell
        · exact .inl hcell
        · exact .inl hcell
    · exact .inr ⟨List.mem_cons_of_mem e hmem, hname⟩

end AddressTable

/-- The places of the lines of a dump that is put together from them. -/
theorem Definition.placedLines_unlines {ls : List Text} (h : ∀ l ∈ ls, '\n' ∉ l) (hne : ls ≠ []) :
    placedLines (Text.unlines ls) = placed 0 ls := by
  rw [placedLines, Text.lines, Text.unlines, List.splitOn_intercalate '\n' h hne]

namespace Listing

/-! ### Tables of lines -/

/-- Declarations stand under the new names of their symbols. -/
theorem mem_renameDeclarations {r : Renaming} {m : Std.ExtTreeMap Text Text} {t : Text} :
    t ∈ renameDeclarations r m ↔ ∃ s ∈ m, r.apply s = t := by
  have hfold := Std.ExtTreeMap.mem_foldl_insert (fun x : Text × Text => r.apply x.1)
    (fun x => x.2.rename r) m.toList (∅ : Std.ExtTreeMap Text Text) t
  rw [renameDeclarations]
  refine hfold.trans ?_
  simp only [Std.ExtTreeMap.not_mem_empty, false_or]
  constructor
  · rintro ⟨x, hx, ht⟩
    exact ⟨x.1, Std.ExtTreeMap.mem_of_mem_toList hx, ht⟩
  · rintro ⟨s, hs, ht⟩
    obtain ⟨line, hline⟩ := Std.ExtTreeMap.exists_mem_toList hs
    exact ⟨(s, line), hline, ht⟩

/-! ### Dumps -/

/-- The definitions of a dump, if they can be read. -/
def definitionsOf (target : Target) (dump : Text) : List Definition :=
  match Definition.all target.name dump with
  | .ok definitions => definitions
  | .error _ => []

/-- The lines of a dump outside all definitions, with their ends trimmed. -/
def outside (target : Target) (dump : Text) : List Text :=
  ((Definition.placedLines dump).filter
    fun (place, _) => !(definitionsOf target dump).any (·.covers place)).map fun (_, line) => line.trim

/-- What is kept of these lines. -/
def keptLines (target : Target) (dump : Text) : List TopLevel :=
  (outside target dump).filterMap TopLevel.ofTrimmed?

/-- The definitions that are kept, the function first. -/
def keptDefinitions (target : Target) (dump : Text) : List Definition :=
  match selfFirst? target.name (definitionsOf target dump) with
  | some (own, helpers) => own :: helpers
  | none => []

/-- The new names that symbols get when the listing is taken from the dump. -/
def dumpRenaming (target : Target) (dump : Text) : Renaming :=
  match selfFirst? target.name (definitionsOf target dump) with
  | some (own, _) => renamesFor target own.name ((keptLines target dump).filterMap TopLevel.constant?)
  | none => ∅

variable {target : Target} {dump : Text} {l : Listing}

theorem topLevels_eq_keptLines (target : Target) (dump : Text) :
    topLevels dump (definitionsOf target dump) = keptLines target dump := by
  rw [keptLines, outside, List.filterMap_map]
  rfl

/-- The definitions that are kept, in some order, are those with compiled names. -/
theorem selfFirst?_perm {name : Text} {definitions helpers : List Definition} {own : Definition}
    (h : selfFirst? name definitions = some (own, helpers)) :
    (own :: helpers).Perm (definitions.filter fun d => (CompiledName.parse? d.name).isSome) := by
  rw [selfFirst?, Option.map_eq_some_iff] at h
  obtain ⟨c, hc, he⟩ := h
  obtain ⟨rfl, rfl⟩ := Prod.mk.inj he
  obtain ⟨happend, -, -⟩ := Cut.append_eq_of_first? hc
  rw [← happend]
  exact List.perm_middle.symm

/-- A listing that was taken from a dump is made of the definitions and the lines that are kept. -/
theorem exists_selfFirst?_of_ofDump (h : ofDump target dump = .ok l) :
    ∃ own helpers, Definition.all target.name dump = .ok (definitionsOf target dump) ∧
      selfFirst? target.name (definitionsOf target dump) = some (own, helpers) ∧
      l = ofParts target own helpers (keptLines target dump) dump := by
  rw [ofDump] at h
  cases hdefs : Definition.all target.name dump with
  | error e =>
    rw [hdefs] at h
    exact absurd h (by simp [bind, Except.bind])
  | ok definitions =>
    have hof : definitionsOf target dump = definitions := by rw [definitionsOf, hdefs]
    simp only [hdefs, bind, Except.bind] at h
    split at h
    · exact absurd h (by simp [throw, throwThe, MonadExceptOf.throw])
    · rename_i own helpers hself
      refine ⟨own, helpers, by rw [hof], by rw [hof, hself], ?_⟩
      rw [← topLevels_eq_keptLines, hof]
      exact (Except.ok.inj h).symm

theorem ofDump_eq (h : ofDump target dump = .ok l) :
    ∃ own helpers, l = ofParts target own helpers (keptLines target dump) dump ∧
      dumpRenaming target dump =
        renamesFor target own.name ((keptLines target dump).filterMap TopLevel.constant?) := by
  obtain ⟨own, helpers, -, hself, hl⟩ := exists_selfFirst?_of_ofDump h
  exact ⟨own, helpers, hl, by rw [dumpRenaming, hself]⟩

theorem ofDump_eq_ok {definitions : List Definition} {own : Definition} {helpers : List Definition}
    (hall : Definition.all target.name dump = .ok definitions)
    (hself : selfFirst? target.name definitions = some (own, helpers)) :
    ofDump target dump = .ok (ofParts target own helpers (topLevels dump definitions) dump) := by
  simp only [ofDump, hall, bind, Except.bind, hself]
  rfl

/-- A constant of a listing is one of the dump, and its line has the new names. -/
theorem exists_of_getElem?_constants (h : ofDump target dump = .ok l) {t value : Text}
    (ht : l.constants[t]? = some value) :
    ∃ s line, .constant s line ∈ keptLines target dump ∧ (dumpRenaming target dump).apply s = t ∧
      line.rename (dumpRenaming target dump) = value := by
  obtain ⟨own, helpers, rfl, hr⟩ := ofDump_eq h
  rw [hr]
  rcases Std.ExtTreeMap.getElem?_foldl_insert_cases _ _ ht with ht | ⟨x, hx, rfl, rfl⟩
  · exact absurd ht (by simp)
  · obtain ⟨line, hmem, hline⟩ := List.mem_filterMap.mp hx
    cases line <;> cases hline
    exact ⟨_, _, hmem, rfl, rfl⟩

/-- The constants of a listing are those of the dump under their new names. -/
theorem mem_constants_ofDump (h : ofDump target dump = .ok l) {t : Text} :
    t ∈ l.constants ↔ ∃ s line, .constant s line ∈ keptLines target dump ∧
      (dumpRenaming target dump).apply s = t := by
  constructor
  · intro ht
    obtain ⟨value, hvalue⟩ := Std.ExtTreeMap.mem_iff_exists.mp ht
    obtain ⟨s, line, hline, hs, -⟩ := exists_of_getElem?_constants h hvalue
    exact ⟨s, line, hline, hs⟩
  · rintro ⟨s, line, hline, ht⟩
    obtain ⟨own, helpers, rfl, hr⟩ := ofDump_eq h
    rw [hr] at ht
    refine (Std.ExtTreeMap.mem_foldl_insert _ _ _ ∅ t).mpr (.inr ⟨(s, line), ?_, ht⟩)
    exact List.mem_filterMap.mpr ⟨_, hline, rfl⟩

/-- A declaration of a listing is one of the dump, and its line has the new names. -/
theorem exists_of_getElem?_declarations (h : ofDump target dump = .ok l) {t value : Text}
    (ht : l.declarations[t]? = some value) :
    ∃ s line, .declaration s line ∈ keptLines target dump ∧ (dumpRenaming target dump).apply s = t ∧
      line.rename (dumpRenaming target dump) = value := by
  obtain ⟨own, helpers, rfl, hr⟩ := ofDump_eq h
  rw [hr]
  rcases Std.ExtTreeMap.getElem?_foldl_insert_cases _ _ ht with ht | ⟨x, hx, rfl, rfl⟩
  · exact absurd ht (by simp)
  · have hx := Std.ExtTreeMap.mem_toList_iff_getElem?_eq_some.mp hx
    rcases Std.ExtTreeMap.getElem?_foldl_insert_cases Prod.fst Prod.snd hx with hx | ⟨y, hy, hkey, hline⟩
    · exact absurd hx (by simp)
    · obtain ⟨line, hmem, hline'⟩ := List.mem_filterMap.mp hy
      cases line <;> cases hline'
      exact ⟨_, _, hmem, congrArg _ hkey, congrArg _ hline⟩

/-- So are the declarations. -/
theorem mem_declarations_ofDump (h : ofDump target dump = .ok l) {t : Text} :
    t ∈ l.declarations ↔ ∃ s line, .declaration s line ∈ keptLines target dump ∧
      (dumpRenaming target dump).apply s = t := by
  constructor
  · intro ht
    obtain ⟨value, hvalue⟩ := Std.ExtTreeMap.mem_iff_exists.mp ht
    obtain ⟨s, line, hline, hs, -⟩ := exists_of_getElem?_declarations h hvalue
    exact ⟨s, line, hline, hs⟩
  · rintro ⟨s, line, hline, ht⟩
    obtain ⟨own, helpers, rfl, hr⟩ := ofDump_eq h
    rw [hr] at ht
    refine mem_renameDeclarations.mpr ⟨s, ?_, ht⟩
    refine (Std.ExtTreeMap.mem_foldl_insert Prod.fst Prod.snd _ ∅ s).mpr (.inr ⟨(s, line), ?_, rfl⟩)
    exact List.mem_filterMap.mpr ⟨_, hline, rfl⟩

/-- The definitions that are kept stand in the listing under the new names. -/
theorem headers_ofDump (h : ofDump target dump = .ok l) : l.headers =
    (keptDefinitions target dump).map fun d => d.header.rename (dumpRenaming target dump) := by
  obtain ⟨own, helpers, -, hself, rfl⟩ := exists_selfFirst?_of_ofDump h
  have hkept : keptDefinitions target dump = own :: helpers := by rw [keptDefinitions, hself]
  have hr : dumpRenaming target dump =
      renamesFor target own.name ((keptLines target dump).filterMap TopLevel.constant?) := by
    rw [dumpRenaming, hself]
  rw [hkept, hr]
  exact List.map_map

/-- A cell of the listing is one that a line of the dump stands for. -/
theorem address_of_getElem?_cells (h : ofDump target dump = .ok l) {a : UInt64} {s : Text}
    (hs : l.addresses.cells[a]? = some s) :
    .address s a ∈ keptLines target dump ∧ Text.occurs "jl_global" (Name.bare s) := by
  obtain ⟨own, helpers, rfl, -⟩ := ofDump_eq h
  rcases AddressTable.getElem?_cells_foldl_enter hs with hs | ⟨hmem, hname⟩
  · exact absurd hs (by simp)
  · obtain ⟨line, hline, hentry⟩ := List.mem_filterMap.mp hmem
    cases line <;> cases hentry
    exact ⟨hline, hname⟩

theorem externals_ofDump (h : ofDump target dump = .ok l) : l.externals = ∅ := by
  obtain ⟨own, helpers, rfl, -⟩ := ofDump_eq h
  rfl

/-- An address that a symbol of the dump stands for is in the table of the symbol. -/
theorem mem_part_ofDump (h : ofDump target dump = .ok l) {s : Text} {a : UInt64}
    (hs : .address s a ∈ keptLines target dump) : a ∈ l.addresses.part (Name.bare s) := by
  obtain ⟨own, helpers, rfl, -⟩ := ofDump_eq h
  exact AddressTable.mem_part_foldl_enter (List.mem_filterMap.mpr ⟨_, hs, rfl⟩) {}

end Listing

end Freestanding
