import Freestanding.Proofs.Program.Cells
import Freestanding.Proofs.Text.Search
import Mathlib.Data.List.Forall2

/-!
# What linking does to a program

A linked program is determined by one table: the variables of all cells, known ones and made-up ones
together.  Every function is renamed by that table alone, so a cell has the same variable wherever it
is referred to; and each variable sits in the unit of its owner and nowhere else.

## Main definitions

* `Linker.linked` — a function linked by a given table.
* `Program.table` — the variables of all cells.
* `Program.Holds` — a variable is in some unit.
* `Program.NewSymbol`, `Program.Relinked` — what becomes of a symbol, and of a text with all its tokens.
* `Program.Resolves` — how the references of one function have been resolved.
* `Program.Resolved` — how those of a whole program have been.

## Main results

* `Linker.link_spec`, `Linker.linkAll_spec` — one function, and all of them.
* `Program.newSymbol_apply`, `Program.relinked_flatMap` — one symbol, and all tokens of a text.
* `Program.link_resolved` — **the variables of a linked program: which there are, where they are, and
  what refers to them.**
-/

namespace Freestanding

namespace Linker

/-! ### Declared functions -/

private theorem resolveCallees_eq_foldl (routines : List Routine) (declarations : List (Text × Text))
    (r : Renaming) : resolveCallees routines declarations r = declarations.foldl (fun r d =>
      ((Callee.resolve? routines d.1 d.2).map fun name => (d.1, Name.symbol name)).elim r
        fun e => r.insert e.1 e.2) r := by
  refine congrArg (fun step => declarations.foldl step r) (funext₂ fun r d => ?_)
  obtain ⟨symbol, line⟩ := d
  cases h : Callee.resolve? routines symbol line <;> simp only [h] <;> rfl

/-- A declared symbol is renamed if it is resolved, and all other symbols are left alone. -/
theorem resolveCallees_cases (routines : List Routine) (declarations : List (Text × Text))
    (r : Renaming) (t : Text) :
    (∃ line name, (t, line) ∈ declarations ∧ Callee.resolve? routines t line = some name ∧
      (resolveCallees routines declarations r)[t]? = some (Name.symbol name)) ∨
    ((∀ line, (t, line) ∈ declarations → Callee.resolve? routines t line = none) ∧
      (resolveCallees routines declarations r)[t]? = r[t]?) := by
  rw [resolveCallees_eq_foldl]
  rcases Std.ExtTreeMap.getElem?_foldl_elim_insert_cases
    (fun d : Text × Text => (Callee.resolve? routines d.1 d.2).map fun name => (d.1, Name.symbol name))
      declarations r t with ⟨before, ⟨s, line⟩, after, new, rfl, hd, -, hnew⟩ | ⟨hnone, hsame⟩
  · obtain ⟨name, hname, he⟩ := Option.map_eq_some_iff.mp hd
    obtain ⟨rfl, rfl⟩ := Prod.mk.inj he
    exact .inl ⟨line, name, by simp, hname, hnew⟩
  · refine .inr ⟨fun line hline => ?_, hsame⟩
    refine Option.eq_none_iff_forall_ne_some.mpr fun name hname => hnone (t, line) hline (Name.symbol name) ?_
    rw [hname, Option.map_some]

/-! ### One function -/

/-- The references of a function, given the variables of all cells. -/
def referencesOf (known : Bindings) (l : Listing) : References :=
  References.resolve known { externals := l.externals } l.addresses.cells.toList

/-- The new symbols in a function, given the variables of all cells and the functions of the
program. -/
def renamingOf (known : Bindings) (routines : List Routine) (l : Listing) : Renaming :=
  resolveCallees routines l.declarations.toList (referencesOf known l).renames

/-- A function linked by a table of variables. -/
def linked (known : Bindings) (routines : List Routine) (f : CompiledRoutine) : CompiledRoutine :=
  { f with
    listing := { f.listing with externals := (referencesOf known f.listing).externals }.rename
      (renamingOf known routines f.listing) }

/-- The addresses of the cells that a function refers to. -/
def cellsOf (f : CompiledRoutine) : List UInt64 :=
  f.listing.addresses.cells.toList.map Prod.fst

/-- The reports about the cells of a function. -/
def reportsOf (heap : HeapImage) (known : Bindings) (f : CompiledRoutine) : List Error :=
  reports heap known f.name f.listing.addresses.cells.toList

theorem mem_cellsOf {f : CompiledRoutine} {a : UInt64} :
    a ∈ cellsOf f ↔ a ∈ f.listing.addresses.cells := by
  rw [cellsOf, Std.ExtTreeMap.map_fst_toList_eq_keys, Std.ExtTreeMap.mem_keys]

/-- A function that joins its unit leaves all variables in place. -/
theorem advance_join {s s' : Linker} {index : Nat} {f : CompiledRoutine} (heap : HeapImage)
    (h : s.join index f = .ok s') : Advance heap s s' [] [] := by
  simp only [join, bind, Except.bind] at h
  split at h
  · exact absurd h (by simp)
  · rename_i layouts _
    have hs := (Except.ok.inj h).symm
    subst hs
    refine ⟨.refl heap s.known, fun a ha => absurd ha (by simp), ?_, (List.append_nil _).symm⟩
    intro seen hf
    rw [List.append_nil]
    exact hf.update f.scope
      (fun u => { u with functions := u.functions ++ [index], layouts }) (fun _ => rfl) fun _ => rfl

/-- Linking one function. -/
theorem link_spec {heap : HeapImage} {routines : List Routine} {index : Nat} {f f' : CompiledRoutine}
    {s s' : Linker} (h : (s.link heap routines index f).value = (s', .ok f')) :
    Advance heap s s' (cellsOf f) (reportsOf heap s.known f) ∧
      ∀ known, Extends heap s'.known known → f' = linked known routines f := by
  rw [link] at h
  split at h
  · exact absurd h (by simp)
  · rename_i s₁ hjoin
    have hj := advance_join heap hjoin
    simp only [Logged.value_bind, Logged.value_pure, Prod.mk.injEq, Except.ok.injEq] at h
    obtain ⟨hs, hf⟩ := h
    subst hs
    have hc := advance_resolveCells heap f.toRoutine f.listing.addresses.cells.toList s₁
      { externals := f.listing.externals }
    rw [hj.ext.reports_eq] at hc
    refine ⟨hj.trans hc, ?_⟩
    intro known hext
    rw [← hf, resolveCells_eq_resolve heap f.toRoutine _ s₁ _ hext]
    rfl

/-! ### All functions -/

/-- **Linking functions one after the other**: a run of lookups, and every function is linked by the
table at the end. -/
theorem linkAll_spec {heap : HeapImage} {routines : List Routine} {index : Nat}
    {fs fs' : List CompiledRoutine} {s s' : Linker}
    (h : (linkAll heap routines index fs s).value = (s', .ok fs')) :
    Advance heap s s' (fs.flatMap cellsOf) (fs.flatMap (reportsOf heap s.known)) ∧
      ∀ known, Extends heap s'.known known → fs' = fs.map (linked known routines) := by
  induction fs generalizing index s fs' with
  | nil =>
    simp only [linkAll, Logged.value_pure, Prod.mk.injEq, Except.ok.injEq] at h
    obtain ⟨rfl, rfl⟩ := h
    exact ⟨.refl heap s, fun _ _ => rfl⟩
  | cons f fs ih =>
    rw [linkAll, Logged.value_bind] at h
    generalize hlink : (s.link heap routines index f).value = r at h
    obtain ⟨s₁, res⟩ := r
    cases res with
    | error e => exact absurd h (by simp)
    | ok f₁ =>
      simp only [Logged.value_bind, Logged.value_pure] at h
      generalize hrest : (linkAll heap routines (index + 1) fs s₁).value = r at h
      obtain ⟨s₂, res⟩ := r
      cases res with
      | error e => exact absurd h (by simp [Except.map])
      | ok rest =>
        simp only [Except.map, Prod.mk.injEq, Except.ok.injEq] at h
        obtain ⟨rfl, rfl⟩ := h
        obtain ⟨hadv, hf⟩ := link_spec hlink
        obtain ⟨hadv', hfs⟩ := ih hrest
        -- the reports of the other functions are the same before and after this one
        have hreports : fs.flatMap (reportsOf heap s₁.known) =
            fs.flatMap (reportsOf heap s.known) := by
          refine congrArg fs.flatMap (funext fun g => ?_)
          exact hadv.ext.reports_eq g.name g.listing.addresses.cells.toList
        rw [hreports] at hadv'
        refine ⟨hadv.trans hadv', ?_⟩
        intro known hext
        rw [List.map_cons, ← hf known (hadv'.ext.trans hext), ← hfs known hext]

end Linker

namespace Program

open Linker

/-- The variables of all cells once a program is linked. -/
def table (heap : HeapImage) (counters : Counters) (known : Bindings)
    (functions : List CompiledRoutine) : Bindings :=
  (linkAll heap (functions.map CompiledRoutine.toRoutine) 0 functions { known, counters }).value.1.known

/-- Linking a program: a run of lookups from the known variables, and a table by which every function
is linked. -/
theorem link_spec {heap : HeapImage} {counters : Counters} {known : Bindings}
    {functions : List CompiledRoutine} {p : Program}
    (h : (Program.link heap counters known functions).value.2 = .ok p) :
    Extends heap known (table heap counters known functions) ∧
      (∀ a ∈ functions.flatMap cellsOf, Resolvable heap known a →
        a ∈ table heap counters known functions) ∧
      Filed (table heap counters known functions) (functions.flatMap cellsOf) p.units ∧
      p.functions = functions.map
        (linked (table heap counters known functions) (functions.map CompiledRoutine.toRoutine)) ∧
      p.diagnostics = functions.flatMap (reportsOf heap known) := by
  simp only [Program.link, Logged.value_bind, Logged.value_pure] at h
  rw [table]
  generalize hrun : (linkAll heap (functions.map CompiledRoutine.toRoutine) 0 functions
    { known, counters }).value = r at h ⊢
  obtain ⟨s, res⟩ := r
  cases res with
  | error e => exact absurd h (by simp [Except.map])
  | ok fs =>
    obtain ⟨hadv, hfs⟩ := linkAll_spec hrun
    have hp := (Except.ok.inj h).symm
    subst hp
    exact ⟨hadv.ext, hadv.settled, hadv.filed [] (.empty known),
      hfs s.known (.refl heap s.known), hadv.diagnostics⟩

/-! ### References in a linked program -/

/-- The variable at an address is in some unit of the program. -/
def Holds (p : Program) (a : UInt64) (b : Binding) : Prop :=
  ∃ (scope : ScopePath) (u : ScopeUnit), p.units[scope]? = some u ∧ u.bindings[a]? = some b

/-- A symbol is declared in the code of a function, and the declaration is that of a function of the
program. -/
def Calls (routines : List Routine) (l : Listing) (old name : Text) : Prop :=
  ∃ line, l.declarations[old]? = some line ∧ Callee.resolve? routines old line = some name

/-- What a symbol in the code of a function becomes in a program. -/
inductive NewSymbol (p : Program) (routines : List Routine) (l : Listing) (old : Text) : Text → Prop
  /-- A declared function gets its output name. -/
  | callee {name : Text} (hcall : Calls routines l old name) :
    NewSymbol p routines l old (Name.symbol name)
  /-- The symbol of cells becomes that of a variable: the one at the last address that has one. -/
  | cell {a : UInt64} {b : Binding} (hcall : ∀ name, ¬ Calls routines l old name)
      (hcell : l.addresses.cells[a]? = some old) (hb : p.Holds a b)
      (hlast : ∀ a' : UInt64, a < a' → l.addresses.cells[a']? = some old → ∀ b', ¬ p.Holds a' b') :
    NewSymbol p routines l old b.symbol
  /-- Any other symbol stays. -/
  | other (hcall : ∀ name, ¬ Calls routines l old name)
      (hcell : ∀ (a : UInt64) (b : Binding), l.addresses.cells[a]? = some old → ¬ p.Holds a b) :
    NewSymbol p routines l old old

/-- The text that some code becomes, given the tokens and the characters between them: the characters
stay, and each token gives way to its new symbol. -/
inductive Relinked (p : Program) (routines : List Routine) (l : Listing) : List Token.Segment → Text → Prop
  /-- At the end. -/
  | nil : Relinked p routines l [] []
  /-- A character between tokens. -/
  | gap (c : Char) {segs : List Token.Segment} {t : Text} (h : Relinked p routines l segs t) :
    Relinked p routines l (.gap c :: segs) (c :: t)
  /-- A token. -/
  | token {old new : Text} (hnew : p.NewSymbol routines l old new) {segs : List Token.Segment} {t : Text}
      (h : Relinked p routines l segs t) : Relinked p routines l (.token old :: segs) (new ++ t)

/-- How the references of a function have been resolved in a program: the variables that it refers to
are declared, and their symbols have taken the place of the old ones, wherever these stood as tokens. -/
structure Resolves (p : Program) (routines : List Routine) (f linked : CompiledRoutine) : Prop where
  /-- It is the same function. -/
  routine : linked.toRoutine = f.toRoutine
  /-- The symbols of the variables are declared, each by the line of a variable with that symbol. -/
  externals : ∀ a ∈ f.listing.addresses.cells, ∀ b, p.Holds a b →
    ∃ a' ∈ f.listing.addresses.cells, ∃ b', p.Holds a' b' ∧ b'.symbol = b.symbol ∧
      linked.listing.externals[b.symbol]? = some b'.declaration
  /-- Every token of a header has been replaced, and nothing else. -/
  headers : List.Forall₂ (fun old new => p.Relinked routines f.listing (Token.segments '@' old) new)
    f.listing.headers linked.listing.headers
  /-- Every token of a body has been replaced, and nothing else. -/
  bodies : List.Forall₂ (fun old new => p.Relinked routines f.listing (Token.segments '@' old) new)
    f.listing.bodies linked.listing.bodies
  /-- In place of the symbol of a cell stands that of its variable, unless the old symbol is also that of
  another cell or of a declared function. -/
  cells : ∀ (a : UInt64) (old : Text) (b : Binding), f.listing.addresses.cells[a]? = some old →
    p.Holds a b → (∀ a' : UInt64, f.listing.addresses.cells[a']? = some old → a' = a) →
    old ∉ f.listing.declarations → ∀ new, p.NewSymbol routines f.listing old new ↔ new = b.symbol

/-- How the references of functions have been resolved in the program made of them. -/
structure Resolved (heap : HeapImage) (known : Bindings) (functions : List CompiledRoutine)
    (p : Program) : Prop where
  /-- A variable is in the unit of its owner. -/
  owner : ∀ (scope : ScopePath) (u : ScopeUnit) (a : UInt64) (b : Binding),
    p.units[scope]? = some u → u.bindings[a]? = some b → scope = b.owner ∧ u.scope = b.owner
  /-- There is one variable at an address, and hence one unit that has it. -/
  unique : ∀ (a : UInt64) (b b' : Binding), p.Holds a b → p.Holds a b' → b = b'
  /-- The variable is the known one, or one that was made up for the address. -/
  origin : ∀ (a : UInt64) (b : Binding), p.Holds a b →
    known[a]? = some b ∨ a ∉ known ∧ b.address = a
  /-- There are variables for the cells that functions refer to, if they are known or can be made
  up. -/
  holds_iff : ∀ a, (∃ b, p.Holds a b) ↔
    (∃ f ∈ functions, a ∈ f.listing.addresses.cells) ∧ (a ∈ known ∨ (heap.reconstruct? a).isSome)
  /-- All functions refer to these variables. -/
  resolves : List.Forall₂ (p.Resolves (functions.map CompiledRoutine.toRoutine)) functions p.functions
  /-- Every other reference is reported once, by functions and then by addresses. -/
  diagnostics : p.diagnostics = functions.flatMap fun f =>
    (f.listing.addresses.cells.toList.filter
      fun c => ¬ (c.1 ∈ known ∨ (heap.reconstruct? c.1).isSome)).map
        fun c => .missingBinding f.name c.1

section

variable {p : Program} {table : Bindings} {l : Listing}

theorem calls_iff {routines : List Routine} {old name : Text} : Calls routines l old name ↔
    ∃ line, (old, line) ∈ l.declarations.toList ∧ Callee.resolve? routines old line = some name := by
  simp only [Calls, Std.ExtTreeMap.mem_toList_iff_getElem?_eq_some]

/-- The table of all variables gives the new symbol of a cell. -/
theorem newSymbol_of_not_calls (routines : List Routine)
    (h : ∀ a ∈ l.addresses.cells, ∀ b, p.Holds a b ↔ table[a]? = some b) {old : Text}
    (hcall : ∀ name, ¬ Calls routines l old name) :
    p.NewSymbol routines l old ((referencesOf table l).renames.apply old) := by
  have hnone : ∀ a : UInt64, l.addresses.cells[a]? = some old → table[a]? = none → ∀ b, ¬ p.Holds a b := by
    intro a ha hnone b hb
    rw [(h a (Std.ExtTreeMap.mem_iff_exists.mpr ⟨old, ha⟩) b).mp hb] at hnone
    cases hnone
  rw [Renaming.apply, Std.ExtTreeMap.getD_eq_getD_getElem?]
  rcases References.renames_resolve_last table l.addresses.cells.toList { externals := l.externals } old with
    ⟨before, c, after, hcells, rfl, hlast, b, hb, hnew⟩ | ⟨hall, hsame⟩
  · have hc : l.addresses.cells[c.1]? = some c.2 :=
      Std.ExtTreeMap.mem_toList_iff_getElem?_eq_some.mp (by simp [hcells])
    rw [referencesOf, hnew]
    refine .cell hcall hc ((h c.1 (Std.ExtTreeMap.mem_iff_exists.mpr ⟨_, hc⟩) b).mpr hb) ?_
    intro a' hlt ha'
    -- the cells are in the order of their addresses, so one at a higher address comes later
    have hmem : (a', c.2) ∈ before ++ c :: after :=
      hcells ▸ Std.ExtTreeMap.mem_toList_iff_getElem?_eq_some.mpr ha'
    have hordered := hcells ▸ (Std.ExtTreeMap.ordered_keys_toList (t := l.addresses.cells))
    rcases List.mem_append.mp hmem with hbefore | hrest
    · have := (List.pairwise_append.mp hordered).2.2 _ hbefore c List.mem_cons_self
      exact absurd hlt (UInt64.lt_asymm (Std.compare_eq_lt.mp this))
    · rcases List.mem_cons.mp hrest with he | hafter
      · exact absurd hlt (he ▸ UInt64.lt_irrefl a')
      · exact hnone a' ha' (hlast _ hafter rfl)
  · rw [referencesOf, hsame]
    refine .other hcall fun a b ha => hnone a ha ?_ b
    exact hall (a, old) (Std.ExtTreeMap.mem_toList_iff_getElem?_eq_some.mpr ha) rfl

/-- The renaming of a function leads each symbol to the new one. -/
theorem newSymbol_apply (routines : List Routine)
    (h : ∀ a ∈ l.addresses.cells, ∀ b, p.Holds a b ↔ table[a]? = some b) (old : Text) :
    p.NewSymbol routines l old ((renamingOf table routines l).apply old) := by
  rcases resolveCallees_cases routines l.declarations.toList (referencesOf table l).renames old with
    ⟨line, name, hline, hname, hnew⟩ | ⟨hnone, hsame⟩
  · rw [Renaming.apply, Std.ExtTreeMap.getD_eq_getD_getElem?, renamingOf, hnew]
    exact .callee (calls_iff.mpr ⟨line, hline, hname⟩)
  · have hcall : ∀ name, ¬ Calls routines l old name := by
      intro name hcalls
      obtain ⟨line, hline, hname⟩ := calls_iff.mp hcalls
      rw [hnone line hline] at hname
      cases hname
    have happly : (renamingOf table routines l).apply old = (referencesOf table l).renames.apply old := by
      rw [Renaming.apply, Renaming.apply, Std.ExtTreeMap.getD_eq_getD_getElem?,
        Std.ExtTreeMap.getD_eq_getD_getElem?, renamingOf, hsame]
    rw [happly]
    exact newSymbol_of_not_calls routines h hcall

/-- A renaming that leads each symbol to the new one puts it in place of every token. -/
theorem relinked_flatMap {routines : List Routine} {r : Renaming}
    (h : ∀ old, p.NewSymbol routines l old (r.apply old)) (segs : List Token.Segment) :
    p.Relinked routines l segs (segs.flatMap r.segment) := by
  induction segs with
  | nil => exact .nil
  | cons seg segs ih =>
    cases seg with
    | gap c => exact .gap c ih
    | token old => exact .token (h old) ih

/-- The symbol of one cell only, which is no declared function, becomes that of its variable. -/
theorem newSymbol_iff_of_cell {routines : List Routine}
    (hunique : ∀ a b b', p.Holds a b → p.Holds a b' → b = b') {a : UInt64} {old : Text} {b : Binding}
    (ha : l.addresses.cells[a]? = some old) (hb : p.Holds a b)
    (honly : ∀ a' : UInt64, l.addresses.cells[a']? = some old → a' = a) (hdecl : old ∉ l.declarations)
    (new : Text) : p.NewSymbol routines l old new ↔ new = b.symbol := by
  have hcall : ∀ name, ¬ Calls routines l old name := by
    rintro name ⟨line, hline, -⟩
    exact hdecl (Std.ExtTreeMap.mem_iff_exists.mpr ⟨line, hline⟩)
  constructor
  · intro h
    cases h with
    | callee hcalls => exact absurd hcalls (hcall _)
    | cell _ ha' hb' _ =>
      obtain rfl := honly _ ha'
      rw [hunique _ _ _ hb' hb]
    | other _ hnone => exact absurd hb (hnone a b ha)
  · rintro rfl
    refine .cell hcall ha hb fun a' hlt ha' => ?_
    exact absurd hlt (honly a' ha' ▸ UInt64.lt_irrefl _)

private theorem resolves_linked (routines : List Routine) {f : CompiledRoutine}
    (h : ∀ a ∈ f.listing.addresses.cells, ∀ b, p.Holds a b ↔ table[a]? = some b)
    (hunique : ∀ a b b', p.Holds a b → p.Holds a b' → b = b') :
    p.Resolves routines f (linked table routines f) where
  routine := rfl
  externals a ha b hb := by
    obtain ⟨old, hold⟩ := Std.ExtTreeMap.exists_mem_toList ha
    rcases References.externals_resolve_cases table f.listing.addresses.cells.toList
      { externals := f.listing.externals } b.symbol with ⟨c, hc, b', hb', hsymbol, hline⟩ | ⟨hnone, -⟩
    · have hmem := Std.ExtTreeMap.mem_of_mem_toList hc
      exact ⟨c.1, hmem, b', (h c.1 hmem b').mpr hb', hsymbol, hline⟩
    · exact absurd rfl (hnone (a, old) hold b ((h a ha b).mp hb))
  headers := List.forall₂_map_right_iff.mpr (List.forall₂_same.mpr fun _ _ =>
    relinked_flatMap (newSymbol_apply routines h) _)
  bodies := List.forall₂_map_right_iff.mpr (List.forall₂_same.mpr fun _ _ =>
    relinked_flatMap (newSymbol_apply routines h) _)
  cells _ _ _ ha hb honly hdecl := newSymbol_iff_of_cell hunique ha hb honly hdecl

end

/-- **The variables of a linked program.**  Every variable is in the unit of its owner and in no other;
there is one for each cell that a function refers to, if it is known or can be made up; all functions
that refer to a cell refer to its one variable; and every other reference is reported. -/
theorem link_resolved {heap : HeapImage} {counters : Counters} {known : Bindings}
    {functions : List CompiledRoutine} {p : Program}
    (h : (Program.link heap counters known functions).value.2 = .ok p) :
    Resolved heap known functions p := by
  obtain ⟨hext, hsettled, hfiled, hfunctions, hdiagnostics⟩ := link_spec h
  -- all units share the one table, so whatever is in a unit can be looked up there
  have htable : ∀ a b, p.Holds a b → (table heap counters known functions)[a]? = some b := by
    rintro a b ⟨scope, u, hu, hb⟩
    exact (hfiled.owned scope u a b hu hb).1
  have hseen : ∀ a, a ∈ functions.flatMap cellsOf ↔
      ∃ f ∈ functions, a ∈ f.listing.addresses.cells := by
    intro a
    simp only [List.mem_flatMap, mem_cellsOf]
  have hunique : ∀ a b b', p.Holds a b → p.Holds a b' → b = b' := fun a b b' hb hb' =>
    Option.some.inj ((htable a b hb).symm.trans (htable a b' hb'))
  have hholds : ∀ f ∈ functions, ∀ a ∈ f.listing.addresses.cells, ∀ b, p.Holds a b ↔
      (table heap counters known functions)[a]? = some b := by
    intro f hf a ha b
    refine ⟨htable a b, fun hb => ?_⟩
    obtain ⟨u, hu, hub⟩ := hfiled.filed a ((hseen a).mpr ⟨f, hf, ha⟩) b hb
    exact ⟨b.owner, u, hu, hub⟩
  refine ⟨?_, hunique, ?_, ?_, ?_, hdiagnostics⟩
  · intro scope u a b hu hb
    have ho := (hfiled.owned scope u a b hu hb).2.1
    exact ⟨ho.symm, (hfiled.scope_eq scope u hu).trans ho.symm⟩
  · intro a b hb
    -- a known variable is never replaced, so one that was made up is at a new address
    by_cases hk : a ∈ known
    · obtain ⟨b', hb'⟩ := Std.ExtTreeMap.mem_iff_exists.mp hk
      have heq := Option.some.inj ((htable a b hb).symm.trans (hext.keep a b' hb'))
      exact .inl (heq ▸ hb')
    · rcases hext.made a b (htable a b hb) with h' | h'
      · exact .inl h'
      · exact .inr ⟨hk, h'.2⟩
  · intro a
    constructor
    · rintro ⟨b, scope, u, hu, hb⟩
      obtain ⟨ht, -, hmem⟩ := hfiled.owned scope u a b hu hb
      exact ⟨(hseen a).mp hmem, hext.resolvable (Std.ExtTreeMap.mem_iff_exists.mpr ⟨b, ht⟩)⟩
    · rintro ⟨⟨f, hf, ha⟩, hres⟩
      obtain ⟨b, hb⟩ := Std.ExtTreeMap.mem_iff_exists.mp (hsettled a ((hseen a).mpr ⟨f, hf, ha⟩) hres)
      exact ⟨b, (hholds f hf a ha b).mpr hb⟩
  · rw [hfunctions, List.forall₂_map_right_iff]
    exact List.forall₂_same.mpr fun f hf => resolves_linked _ (hholds f hf) hunique

/-- Two functions that share a string of the host.  The first also refers to a known variable, and the
second to a cell of which nothing is known. -/
def sharedFunctions : List CompiledRoutine :=
  [{ handle := .ofPosition 0, name := "f", mangled := "f", arguments := []
     scope := ["Main"], isEntry := true, overload := 0
     listing := {
       headers := ["define i64 @main() \x7b"]
       bodies := ["\n  %1 = load ptr, ptr @a\n  %2 = load ptr, ptr @b\n"]
       addresses := {
         cells := .insert (.insert ∅ 0x1000 "@a") 0x2000 "@b" } } },
   { handle := .ofPosition 1, name := "g", mangled := "g", arguments := []
     scope := ["Main", "Inner"], isEntry := false, overload := 0
     listing := {
       headers := ["define i64 @g() \x7b"]
       bodies := ["\n  %1 = load ptr, ptr @b\n  %2 = load ptr, ptr @c\n"]
       addresses := {
         cells := .insert (.insert ∅ 0x2000 "@b") 0x3000 "@c" } } }]

/-- The one variable that is known to them. -/
def sharedBindings : Bindings :=
  .insert ∅ 0x1000 {
    address := 0x1000, identifier := "x", owner := ["Main", "Other"]
    mangled := "Main_Other_x", definition := "d", declaration := "e" }

theorem link_resolved_sharedFunctions :
    ∃ p, (Program.link (HeapImage.defineString {} 0x2000 "hi") ∅ sharedBindings
        sharedFunctions).value.2 = .ok p ∧
      p.functions.map (·.listing.headers) =
        ([["define i64 @main() \x7b"], ["define i64 @g() \x7b"]] : List (List Text)) ∧
      p.functions.map (·.listing.bodies) =
        ([["\n  %1 = load ptr, ptr @Main_Other_x\n  %2 = load ptr, ptr @Main__global_1\n"],
          ["\n  %1 = load ptr, ptr @Main__global_1\n  %2 = load ptr, ptr @c\n"]] : List (List Text)) ∧
      p.functions.map (·.listing.externals.toList) =
        ([[("@Main_Other_x", "e"),
            ("@Main__global_1", "@Main__global_1 = external global [2 x i8], align 8")],
          [("@Main__global_1", "@Main__global_1 = external global [2 x i8], align 8")]] :
          List (List (Text × Text))) ∧
      p.diagnostics = [.missingBinding "g" 0x3000] ∧
      Resolved (HeapImage.defineString {} 0x2000 "hi") sharedBindings sharedFunctions p := by
  unfold sharedFunctions sharedBindings
  repeat rw [Text.toList_literal]
  exact ⟨_, rfl, rfl, rfl, rfl, rfl, link_resolved rfl⟩

end Program

end Freestanding
