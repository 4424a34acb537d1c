import Freestanding.Proofs.Binding.Residue
import Freestanding.Proofs.Build.Rerun
import Freestanding.Proofs.Collector.Renaming
import Freestanding.Proofs.Listing.Lines
import Freestanding.Proofs.Name.Compiled
import Freestanding.Proofs.Program.Separation

/-!
# What a strict run writes

The strict policy judges the definitions and constants of every function before it is linked.  The files
hold more than that: variables with their values, the names of scopes, declarations and the lines that
concern the file as a whole, and symbols that linking puts in.  This module says exactly when a file
needs the host although its function has been found not to.

## Main definitions

* `Listing.unjudged` — lines that are written but not judged.
* `Binding.Stores` — a variable has a value.
* `Build.Exposed` — a reason why a planned file needs the host after a strict run.
* `Build.Uncommented` — residue gets out of a comment; `Build.Tidy` — names that keep it there.

## Main results

* `Listing.isSelfContained_render_iff`, `ScopeUnit.isSelfContained_globals_iff` — files are
  self-contained if what they are made of is.
* `Listing.isSelfContained_functionText_rename_iff` — a definition after linking.
* `Build.isSelfContained_planned_iff` — which planned files are self-contained after a strict run.
* `Build.strict_exposes` — **after a strict run a planned file of a tidy program is self-contained if and
  only if nothing exposes it.**
-/

namespace Freestanding

open Residue

/-! ### Files -/

/-- A comment is self-contained. -/
theorem isSelfContained_comment {t : Text} (h : '\n' ∉ t) : isSelfContained (';' :: t) := by
  have hline : '\n' ∉ ';' :: t := by
    rw [List.mem_cons, not_or]
    exact ⟨by decide, h⟩
  have hcode : ofLine? (';' :: t) = none := by
    rw [ofLine?, Line.code, List.takeWhile_cons_of_neg (by decide)]
    decide +kernel
  rw [isSelfContained_iff, shows_line_iff hline, hcode]
  simp

/-- Items with a line break after each are self-contained if all of them are. -/
theorem isSelfContained_items (items : List Text) (rest : Text) :
    isSelfContained (items.flatMap (· ++ ['\n']) ++ rest) ↔
      (∀ item ∈ items, isSelfContained item) ∧ isSelfContained rest := by
  induction items with
  | nil => simp
  | cons item items ih =>
    have hcons : (item :: items).flatMap (· ++ ['\n']) ++ rest =
        item ++ '\n' :: (items.flatMap (· ++ ['\n']) ++ rest) := by simp
    rw [hcons, isSelfContained_append_newline, ih, List.forall_mem_cons, and_assoc]

namespace Listing

/-- A function's file is self-contained if all items of its parts are. -/
theorem isSelfContained_render_iff (l : Listing) (comment : Text) :
    isSelfContained (l.render comment) ↔ ∀ part ∈ l.parts, ∀ item ∈ part, isSelfContained item := by
  have hparts : ∀ parts : List (List Text), isSelfContained (parts.flatMap renderSection) ↔
      ∀ part ∈ parts, ∀ item ∈ part, isSelfContained item := by
    intro parts
    induction parts with
    | nil => exact iff_of_true (by decide +kernel) (by simp)
    | cons part parts ih =>
      rw [List.flatMap_cons, List.forall_mem_cons, ← ih]
      cases part with
      | nil => simp [renderSection]
      | cons item part =>
        have hbreak := isSelfContained_append_newline []
          ((item :: part).flatMap (· ++ ['\n']) ++ parts.flatMap renderSection)
        have hnil : isSelfContained [] := by decide +kernel
        rw [renderSection, List.cons_append]
        · refine hbreak.trans ?_
          rw [isSelfContained_items, and_iff_right hnil]
        · exact List.cons_ne_nil _ _
  have hcomment : renderComment comment =
      (comment.printedLines.map fun line => ';' :: ' ' :: line).flatMap (· ++ ['\n']) := by
    rw [renderComment, List.flatMap_map]
    rfl
  rw [render, hcomment, isSelfContained_items, hparts]
  refine and_iff_right fun line hline => ?_
  obtain ⟨full, hfull, rfl⟩ := List.mem_map.mp hline
  refine isSelfContained_comment ?_
  rw [List.mem_cons, not_or]
  exact ⟨by decide, Text.notMem_of_mem_printedLines hfull⟩

end Listing

/-- The file of the variables of a scope is self-contained if its title and all definitions are. -/
theorem ScopeUnit.isSelfContained_globals_iff {u : ScopeUnit} {text : Text} (h : u.globals? = some text) :
    isSelfContained text ↔ isSelfContained ("; globals of " ++ u.scope.dotted) ∧
      ∀ b ∈ u.bindings.values, isSelfContained b.definition := by
  rw [globals?] at h
  split at h
  · cases h
  · have htext : text = ("; globals of " ++ u.scope.dotted) ++ '\n' :: ([] ++ '\n' ::
        ((u.bindings.values.map Binding.definition).flatMap (· ++ ['\n']) ++ [])) := by
      rw [← Option.some.inj h, List.flatMap_map]
      simp
    have hnil : isSelfContained [] := by decide +kernel
    rw [htext, isSelfContained_append_newline, isSelfContained_append_newline, isSelfContained_items,
      and_iff_right hnil, and_iff_left hnil]
    simp only [List.forall_mem_map]

/-! ### Linking -/

namespace Listing

/-- The text of a definition, cut at its symbols. -/
def functionSegments (header body : Text) : List Token.Segment :=
  Token.segments '@' header ++ Token.segments '@' body ++ [.gap '\x7d']

theorem symbols_segments (t : Text) : Renaming.Symbols (Token.segments '@' t) := by
  have hread : ∀ {t token rest}, Token.read? '@' t = some (token, rest) → token.head? = some '@' := by
    intro t token rest h
    rw [Token.read?.eq_def] at h
    split at h
    · cases h
    · split at h
      · next hc =>
        split at h
        · obtain ⟨_, _, he⟩ := Option.map_eq_some_iff.mp h
          rw [← (Prod.mk.inj he).1, hc]
          rfl
        · obtain ⟨_, _, he⟩ := Option.map_eq_some_iff.mp h
          rw [← (Prod.mk.inj he).1, hc]
          rfl
      · cases h
  -- the cut goes through the text with a number of characters to skip, those of the last token
  have hafter : ∀ skip, Renaming.Symbols (Token.segmentsAfter '@' skip t) := by
    induction t with
    | nil =>
      intro skip token ht
      cases skip <;> cases ht
    | cons c t ih =>
      intro skip token ht
      cases skip with
      | succ k => exact ih k token ht
      | zero =>
        rw [Token.segmentsAfter] at ht
        split at ht
        · next hsome =>
          rcases List.mem_cons.mp ht with he | ht
          · cases he
            exact hread hsome
          · exact ih _ token ht
        · rcases List.mem_cons.mp ht with he | ht
          · cases he
          · exact ih _ token ht
  exact hafter 0

/-- **A definition after linking**: if it showed no residue before, it shows what the renaming brings
about. -/
theorem isSelfContained_functionText_rename_iff {r : Renaming} (hr : r.IntoSymbols) {header body : Text}
    (h : isSelfContained (functionText header body)) :
    isSelfContained (functionText (header.rename r) (body.rename r)) ↔
      ¬ r.Exposes true (functionSegments header body) := by
  have hbefore : (functionSegments header body).flatMap Token.Segment.text = functionText header body := by
    rw [functionSegments, List.flatMap_append, List.flatMap_append, Token.flatten_segments,
      Token.flatten_segments]
    rfl
  have hafter : (functionSegments header body).flatMap r.segment =
      functionText (header.rename r) (body.rename r) := by
    rw [functionSegments, List.flatMap_append, List.flatMap_append]
    rfl
  have hsymbols : Renaming.Symbols (functionSegments header body) := by
    intro t ht
    rcases List.mem_append.mp ht with ht | ht
    · rcases List.mem_append.mp ht with ht | ht
      · exact symbols_segments header t ht
      · exact symbols_segments body t ht
    · cases List.mem_singleton.mp ht
  rw [isSelfContained_iff, ← hbefore] at h
  rw [isSelfContained_iff, ← hafter, Renaming.shows_rename_iff hr hsymbols h]

/-- Lines that are written into the file of a function but not judged. -/
def unjudged (l : Listing) : List Text :=
  l.targets ++ l.declarations.values ++ l.attributes ++ l.metadata

theorem isSelfContained_of_residue? {l : Listing} (h : l.residue? = none) :
    (∀ text ∈ l.functionTexts, isSelfContained text) ∧
      ∀ line ∈ l.constants.values, isSelfContained line := by
  rw [residue?, Option.or_eq_none_iff, Option.or_eq_none_iff] at h
  obtain ⟨htexts, hconstants, -⟩ := h
  rw [List.findSome?_eq_none_iff] at htexts hconstants
  constructor
  · intro text htext
    rw [isSelfContained, htexts text htext]
    rfl
  · intro line hline
    rw [isSelfContained, hconstants line hline]
    rfl

end Listing

namespace Linker

/-- A declaration that is resolved has the compiled name of a function of the program. -/
theorem exists_of_resolve? {routines : List Routine} {symbol line name : Text}
    (h : Callee.resolve? routines symbol line = some name) :
    ∃ r ∈ routines, name = r.outputName ∧ ∃ c, CompiledName.parse? symbol = some c ∧ c.stem = r.name := by
  simp only [Callee.resolve?, Option.bind_eq_bind, Option.bind_eq_some_iff] at h
  obtain ⟨compiled, hparse, h⟩ := h
  have hfound : ∀ r ∈ routines.filter (·.name == compiled.stem), some r.outputName = some name →
      ∃ r ∈ routines, name = r.outputName ∧ ∃ c, CompiledName.parse? symbol = some c ∧ c.stem = r.name := by
    intro r hr hname
    obtain ⟨hmem, hstem⟩ := List.mem_filter.mp hr
    exact ⟨r, hmem, (Option.some.inj hname).symm, compiled, hparse, (beq_iff_eq.mp hstem).symm⟩
  split at h
  · cases h
  · next r hr =>
    exact hfound r (by rw [hr]; simp) h
  · obtain ⟨count, -, h⟩ := Option.bind_eq_some_iff.mp h
    split at h
    · next r hr =>
      have hmem : r ∈ (routines.filter (·.name == compiled.stem)).filter
          (·.arguments.length == count) := by
        rw [hr]
        simp
      exact hfound r (List.mem_filter.mp hmem).1 h
    · cases h

/-- Linking puts in the symbols of variables for those of cells, and the symbols of functions for compiled
names. -/
theorem renamingOf_cases {known : Bindings} {routines : List Routine} {l : Listing} {old new : Text}
    (h : (renamingOf known routines l)[old]? = some new) :
    (∃ (a : UInt64) (b : Binding), l.addresses.cells[a]? = some old ∧ known[a]? = some b ∧ new = b.symbol) ∨
      ∃ r ∈ routines, new = Name.symbol r.outputName ∧
        ∃ c, CompiledName.parse? old = some c ∧ c.stem = r.name := by
  rcases resolveCallees_cases routines l.declarations.toList (referencesOf known l).renames old with
    ⟨line, name, -, hname, hnew⟩ | ⟨-, hsame⟩
  · rw [renamingOf, hnew] at h
    obtain ⟨r, hr, rfl, hparse⟩ := exists_of_resolve? hname
    exact .inr ⟨r, hr, (Option.some.inj h).symm, hparse⟩
  · rw [renamingOf, hsame] at h
    rcases References.renames_resolve_cases known l.addresses.cells.toList { externals := l.externals } old
      with ⟨c, hc, rfl, b, hb, hnew⟩ | ⟨-, hnone⟩
    · rw [referencesOf, hnew] at h
      exact .inl ⟨c.1, b, Std.ExtTreeMap.mem_toList_iff_getElem?_eq_some.mp hc, hb, (Option.some.inj h).symm⟩
    · rw [referencesOf, hnone] at h
      cases h

end Linker

/-! ### Variables -/

namespace Binding

/-- A variable has a value. -/
def Stores (b : Binding) (v : Value) : Prop :=
  ∃ k : Constant, v.constant? = some k ∧ b.definition = k.definition b.mangled ∧
    b.declaration = k.declaration b.mangled

variable {b : Binding} {v : Value}

theorem Stores.isSelfContained_definition_iff (h : b.Stores v) (hb : Name.Plain b.mangled) :
    isSelfContained b.definition ↔ marked b.symbol = false ∧ v.Free := by
  obtain ⟨k, hk, hdefinition, -⟩ := h
  rw [hdefinition, Constant.isSelfContained_definition_iff (Value.calm_type hk) hb,
    Value.isSelfContained_initial_iff hk]
  rfl

theorem Stores.isSelfContained_declaration_iff (h : b.Stores v) (hb : Name.Plain b.mangled) :
    isSelfContained b.declaration ↔ marked b.symbol = false := by
  obtain ⟨k, hk, -, hdeclaration⟩ := h
  rw [hdeclaration, Constant.isSelfContained_declaration_iff (Value.calm_type hk) hb]
  rfl

/-- Whatever its origin, a variable has a plain name and a value. -/
theorem Origin.stores {root : Scope} {heap : HeapImage} {scopes : List ScopePath} {a : UInt64}
    (h : Origin root heap scopes a b) : Name.Plain b.mangled ∧ ∃ v, b.Stores v := by
  obtain ⟨v, k, hk, hb⟩ := h.exists_constant
  rw [hb]
  exact ⟨ScopePath.plain_mangle _ _, v, k, hk, rfl, rfl⟩

end Binding

namespace Build

open Linker

variable {settings : Settings} {heap : HeapImage} {host host' : Host} {root : Scope} {entry : Handle}
  {p : Program} {r : Report} {graph : CallGraph} {prepared : List Prepared}
  {planned : List PlannedFile} {functions : List CompiledRoutine}

/-- A reason why a planned file needs the host although no function of the program, before it was linked,
has been found to: what the file holds beyond the code that was judged. -/
inductive Exposed (settings : Settings) (heap : HeapImage) (root : Scope)
    (functions : List CompiledRoutine) (p : Program) (file : PlannedFile) : Prop
  /-- The symbol of a variable is residue. -/
  | symbol {u : ScopeUnit} {a : UInt64} {b : Binding} (hu : u ∈ p.units.values)
      (hfile : Output.globalsFile? settings u = some file) (hb : u.bindings[a]? = some b)
      (h : marked b.symbol)
  /-- The value of a variable is an address of the host, or a text that shows residue. -/
  | value {u : ScopeUnit} {a : UInt64} {b : Binding} {v : Value} (hu : u ∈ p.units.values)
      (hfile : Output.globalsFile? settings u = some file) (hb : u.bindings[a]? = some b)
      (hv : b.Stores v) (h : ¬ v.Free)
  /-- The symbol of a variable that a function refers to is residue. -/
  | reference {f : CompiledRoutine} {t : Text} (hf : f ∈ p.functions)
      (hfile : file ∈ Output.functionFiles settings f) (ht : t ∈ f.listing.externals) (h : marked t)
  /-- A line that is not judged shows residue. -/
  | line {f : CompiledRoutine} {line : Text} (hf : f ∈ p.functions)
      (hfile : file ∈ Output.functionFiles settings f) (hline : line ∈ f.listing.unjudged)
      (h : ¬ isSelfContained line)
  /-- Residue begins within a symbol that linking puts into a definition. -/
  | linking {f : CompiledRoutine} {header body : Text} (hf : f ∈ functions)
      (hfile : file ∈ Output.functionFiles settings
        (linked (Program.table heap ∅ root.scan.value.bindings functions)
          (functions.map CompiledRoutine.toRoutine) f))
      (hdefinition : (header, body) ∈ f.listing.headers.zip f.listing.bodies)
      (h : (renamingOf (Program.table heap ∅ root.scan.value.bindings functions)
        (functions.map CompiledRoutine.toRoutine) f.listing).PutsIn (Listing.functionSegments header body))

/-- How residue gets out of a comment: the name of a scope breaks the line of the title, or the semicolon
that began the comment was in a symbol that linking took out. -/
inductive Uncommented (settings : Settings) (heap : HeapImage) (root : Scope)
    (functions : List CompiledRoutine) (p : Program) (file : PlannedFile) : Prop
  /-- The name of a scope has more than one line, and shows residue behind the first. -/
  | title {u : ScopeUnit} (hu : u ∈ p.units.values) (hfile : Output.globalsFile? settings u = some file)
      (h : ¬ isSelfContained ("; globals of " ++ u.scope.dotted))
  /-- Residue shows behind a symbol with a semicolon that linking takes out. -/
  | linking {f : CompiledRoutine} {header body : Text} (hf : f ∈ functions)
      (hfile : file ∈ Output.functionFiles settings
        (linked (Program.table heap ∅ root.scan.value.bindings functions)
          (functions.map CompiledRoutine.toRoutine) f))
      (hdefinition : (header, body) ∈ f.listing.headers.zip f.listing.bodies)
      (h : (renamingOf (Program.table heap ∅ root.scan.value.bindings functions)
        (functions.map CompiledRoutine.toRoutine) f.listing).Uncovers (Listing.functionSegments header body))

/-- The names of scopes are single lines, and neither names of functions nor symbols of cells hold a
semicolon. -/
structure Tidy (p : Program) : Prop where
  /-- Names of scopes are single lines. -/
  scopes : ∀ u ∈ p.units.values, '\n' ∉ u.scope.dotted
  /-- Names of functions hold no semicolon. -/
  functions : ∀ f ∈ p.functions, ';' ∉ f.name
  /-- Symbols of cells hold no semicolon. -/
  cells : ∀ f ∈ p.functions, ∀ symbol ∈ f.listing.addresses.cells.values, ';' ∉ symbol

instance (p : Program) : Decidable (Tidy p) :=
  decidable_of_iff
    ((∀ u ∈ p.units.values, '\n' ∉ u.scope.dotted) ∧ (∀ f ∈ p.functions, ';' ∉ f.name) ∧
      ∀ f ∈ p.functions, ∀ symbol ∈ f.listing.addresses.cells.values, ';' ∉ symbol)
    ⟨fun h => ⟨h.1, h.2.1, h.2.2⟩, fun h => ⟨h.scopes, h.functions, h.cells⟩⟩

/-- What is known of the functions of a strict run before they are linked. -/
structure Judged (f : CompiledRoutine) : Prop where
  /-- No residue has been found. -/
  residue : f.listing.residue? = none
  /-- No variable is declared yet. -/
  externals : f.listing.externals = ∅
  /-- The name in the output is plain. -/
  plain : Name.Plain f.outputName

/-- **A strict run judges every function.** -/
theorem Stages.judged (h : Stages settings heap host root entry host' p r graph prepared)
    (hpolicy : settings.policy = .strict) {f : CompiledRoutine} (hf : f ∈ prepared.map Prepared.routine) :
    Judged f := by
  obtain ⟨q, hq, rfl⟩ := List.mem_map.mp hf
  obtain ⟨n, hn, dump, l, hprep⟩ := h.prepares.exists_of_mem hq
  refine ⟨?_, hprep.freed.frame.2.2.trans (Listing.externals_ofDump hprep.ofDump_eq), ?_⟩
  · -- under this policy a verdict that is given at all has found nothing
    have hverdict := hprep.verdict_eq
    rw [Collector.outcome_verdict, hpolicy] at hverdict
    split at hverdict
    · next hnone => exact hnone
    · cases hverdict
  · rw [hprep.routine_eq, Routine.outputName]
    split
    · exact Text.forall_mem_of_all (by decide)
    · exact CallGraph.plain_of_collect (congrArg Prod.snd h.collect_eq) hn

/-- The variables of a linked program have plain names and values. -/
theorem stores_of_table (root : Scope) (heap : HeapImage) (functions : List CompiledRoutine) {a : UInt64}
    {b : Binding} (h : (Program.table heap ∅ root.scan.value.bindings functions)[a]? = some b) :
    Name.Plain b.mangled ∧ ∃ v, b.Stores v := by
  obtain ⟨_, hnumbered⟩ := Program.numbered_table root heap ∅ functions
  exact (hnumbered.origin a b h).stores

/-- Linking puts in symbols of plain names. -/
theorem intoSymbols_renamingOf (hjudged : ∀ f ∈ functions, Judged f) (l : Listing) :
    (renamingOf (Program.table heap ∅ root.scan.value.bindings functions)
      (functions.map CompiledRoutine.toRoutine) l).IntoSymbols := by
  have hsymbol : ∀ {name : Text}, Name.Plain name → (Name.symbol name).head? = some '@' ∧
      ';' ∉ Name.symbol name ∧ '\n' ∉ Name.symbol name := by
    intro name hname
    obtain ⟨tail, he, -⟩ := hname.exists_symbol_eq
    refine ⟨by rw [he]; rfl, fun hm => ?_, fun hm => ?_⟩
    · exact (hname.forall_mem_symbol _ hm).2.1 rfl
    · exact (hname.forall_mem_symbol _ hm).2.2 rfl
  intro old new hnew
  rcases renamingOf_cases hnew with ⟨a, b, -, hb, rfl⟩ | ⟨routine, hroutine, rfl, -⟩
  · exact hsymbol (stores_of_table root heap functions hb).1
  · obtain ⟨f, hf, rfl⟩ := List.mem_map.mp hroutine
    exact hsymbol (hjudged f hf).plain

/-- The file of the variables of a scope in a linked program. -/
theorem isSelfContained_globalsFile_iff
    (h : (Program.link heap ∅ root.scan.value.bindings functions).value.2 = .ok p) {u : ScopeUnit}
    (hu : u ∈ p.units.values) {file : PlannedFile} (hfile : Output.globalsFile? settings u = some file) :
    isSelfContained file.text ↔ isSelfContained ("; globals of " ++ u.scope.dotted) ∧
      ∀ (a : UInt64) (b : Binding), u.bindings[a]? = some b →
        marked b.symbol = false ∧ ∀ v, b.Stores v → v.Free := by
  obtain ⟨-, -, hfiled, -, -⟩ := Program.link_spec h
  obtain ⟨scope, hscope⟩ := Std.ExtTreeMap.exists_getElem?_of_mem_values hu
  obtain ⟨text, htext, rfl⟩ := Option.map_eq_some_iff.mp hfile
  rw [ScopeUnit.isSelfContained_globals_iff htext]
  refine and_congr_right fun _ => ?_
  constructor
  · intro hall a b hb
    -- what is in a unit is in the table
    obtain ⟨hplain, v, hv⟩ := stores_of_table root heap functions (hfiled.owned scope u a b hscope hb).1
    have hdefinition := hall b (Std.ExtTreeMap.mem_values_of_getElem? hb)
    refine ⟨((hv.isSelfContained_definition_iff hplain).mp hdefinition).1, fun w hw => ?_⟩
    exact ((hw.isSelfContained_definition_iff hplain).mp hdefinition).2
  · intro hall b hb
    obtain ⟨a, ha⟩ := Std.ExtTreeMap.exists_getElem?_of_mem_values hb
    obtain ⟨hplain, v, hv⟩ := stores_of_table root heap functions (hfiled.owned scope u a b hscope ha).1
    obtain ⟨hsymbol, hfree⟩ := hall a b ha
    exact (hv.isSelfContained_definition_iff hplain).mpr ⟨hsymbol, hfree v hv⟩

/-- The variables that a linked function refers to are declared by lines that show their symbols only. -/
theorem isSelfContained_externals_iff {f : CompiledRoutine} (hf : Judged f) {known : Bindings}
    (hknown : ∀ (a : UInt64) (b : Binding), known[a]? = some b → Name.Plain b.mangled ∧ ∃ v, b.Stores v)
    (routines : List Routine) :
    (∀ line ∈ (linked known routines f).listing.externals.values, isSelfContained line) ↔
      ∀ t ∈ (linked known routines f).listing.externals, marked t = false := by
  have hline : ∀ (t line : Text), (linked known routines f).listing.externals[t]? = some line →
      (isSelfContained line ↔ marked t = false) := by
    intro t line h
    rcases References.externals_resolve_cases known f.listing.addresses.cells.toList
      { externals := f.listing.externals } t with ⟨c, -, b, hb, rfl, hown⟩ | ⟨-, hold⟩
    · obtain ⟨hplain, v, hv⟩ := hknown c.1 b hb
      rw [Option.some.inj (h.symm.trans hown)]
      exact hv.isSelfContained_declaration_iff hplain
    · -- nothing is declared before linking
      have hnone : f.listing.externals[t]? = some line := hold.symm.trans h
      rw [hf.externals] at hnone
      cases hnone
  constructor
  · intro hall t ht
    obtain ⟨line, h⟩ := Std.ExtTreeMap.mem_iff_exists.mp ht
    exact (hline t line h).mp (hall line (Std.ExtTreeMap.mem_values_of_getElem? h))
  · intro hall line hmem
    obtain ⟨t, h⟩ := Std.ExtTreeMap.exists_getElem?_of_mem_values hmem
    exact (hline t line h).mpr (hall t (Std.ExtTreeMap.mem_iff_exists.mpr ⟨line, h⟩))

/-- The definitions of a linked function show what linking brings about. -/
theorem isSelfContained_definitions_iff {f : CompiledRoutine} (hf : Judged f) {known : Bindings}
    {routines : List Routine} (hr : (renamingOf known routines f.listing).IntoSymbols) :
    (∀ text ∈ (linked known routines f).listing.functionTexts, isSelfContained text) ↔
      ∀ header body, (header, body) ∈ f.listing.headers.zip f.listing.bodies →
        ¬ (renamingOf known routines f.listing).Exposes true (Listing.functionSegments header body) := by
  have hjudged := (Listing.isSelfContained_of_residue? hf.residue).1
  have hbefore : ∀ header body, (header, body) ∈ f.listing.headers.zip f.listing.bodies →
      isSelfContained (Listing.functionText header body) := by
    intro header body hd
    refine hjudged _ ?_
    rw [Listing.functionTexts, ← List.map_uncurry_zip_eq_zipWith]
    exact List.mem_map.mpr ⟨_, hd, rfl⟩
  have htexts : (linked known routines f).listing.functionTexts =
      (f.listing.headers.zip f.listing.bodies).map fun d => Listing.functionText
        (d.1.rename (renamingOf known routines f.listing))
        (d.2.rename (renamingOf known routines f.listing)) := by
    change List.zipWith Listing.functionText (f.listing.headers.map _) (f.listing.bodies.map _) = _
    rw [List.zipWith_map, ← List.map_uncurry_zip_eq_zipWith]
    rfl
  rw [htexts, List.forall_mem_map, Prod.forall]
  refine forall_congr' fun header => forall_congr' fun body => imp_congr_right fun hd => ?_
  exact Listing.isSelfContained_functionText_rename_iff hr (hbefore header body hd)

/-- The file of a linked function. -/
theorem isSelfContained_functionFile_iff (hdebug : settings.debug = false) {f : CompiledRoutine}
    (hf : Judged f) {known : Bindings}
    (hknown : ∀ (a : UInt64) (b : Binding), known[a]? = some b → Name.Plain b.mangled ∧ ∃ v, b.Stores v)
    {routines : List Routine} (hr : (renamingOf known routines f.listing).IntoSymbols)
    {file : PlannedFile} (hfile : file ∈ Output.functionFiles settings (linked known routines f)) :
    isSelfContained file.text ↔
      (∀ line ∈ (linked known routines f).listing.unjudged, isSelfContained line) ∧
      (∀ t ∈ (linked known routines f).listing.externals, marked t = false) ∧
      ∀ header body, (header, body) ∈ f.listing.headers.zip f.listing.bodies →
        ¬ (renamingOf known routines f.listing).Exposes true (Listing.functionSegments header body) := by
  have htext : file.text =
      (linked known routines f).listing.render (linked known routines f).description := by
    rcases Output.mem_functionFiles hfile with ⟨-, htext⟩ | ⟨hdump, -⟩
    · exact htext
    · rw [hdebug] at hdump
      cases hdump
  have hconstants : ∀ line ∈ (linked known routines f).listing.constants.values, isSelfContained line :=
    (Listing.isSelfContained_of_residue? hf.residue).2
  rw [htext, Listing.isSelfContained_render_iff, Listing.parts, Listing.unjudged,
    ← isSelfContained_externals_iff hf hknown, ← isSelfContained_definitions_iff hf hr]
  simp only [List.forall_mem_cons, List.forall_mem_append, List.not_mem_nil, false_imp_iff, implies_true,
    and_true]
  constructor
  · rintro ⟨htargets, -, hexternals, htexts, hdeclarations, hattributes, hmetadata⟩
    exact ⟨⟨⟨⟨htargets, hdeclarations⟩, hattributes⟩, hmetadata⟩, hexternals, htexts⟩
  · rintro ⟨⟨⟨⟨htargets, hdeclarations⟩, hattributes⟩, hmetadata⟩, hexternals, htexts⟩
    exact ⟨htargets, hconstants, hexternals, htexts, hdeclarations, hattributes, hmetadata⟩

/-! ### A whole run -/

/-- Whatever exposes a file shows in it. -/
theorem not_isSelfContained_of_exposed (hdebug : settings.debug = false)
    (hlink : (Program.link heap ∅ root.scan.value.bindings functions).value.2 = .ok p)
    (hjudged : ∀ f ∈ functions, Judged f) {file : PlannedFile}
    (h : Exposed settings heap root functions p file ∨ Uncommented settings heap root functions p file) :
    ¬ isSelfContained file.text := by
  obtain ⟨-, -, -, hfunctions, -⟩ := Program.link_spec hlink
  have hfunctionFile : ∀ f ∈ functions, ∀ file ∈ Output.functionFiles settings (linked _ _ f), _ :=
    fun f hf file hfile => isSelfContained_functionFile_iff hdebug (hjudged f hf)
      (fun a b hb => stores_of_table root heap functions hb) (intoSymbols_renamingOf hjudged f.listing) hfile
  intro hcontained
  rcases h with h | h
  · cases h with
    | symbol hu hfile hb h =>
      have hall := ((isSelfContained_globalsFile_iff hlink hu hfile).mp hcontained).2
      exact absurd h (by simp [(hall _ _ hb).1])
    | value hu hfile hb hv h =>
      have hall := ((isSelfContained_globalsFile_iff hlink hu hfile).mp hcontained).2
      exact h ((hall _ _ hb).2 _ hv)
    | reference hf hfile ht h =>
      rw [hfunctions] at hf
      obtain ⟨g, hg, rfl⟩ := List.mem_map.mp hf
      have hall := ((hfunctionFile g hg file hfile).mp hcontained).2.1
      exact absurd h (by simp [hall _ ht])
    | line hf hfile hline h =>
      rw [hfunctions] at hf
      obtain ⟨g, hg, rfl⟩ := List.mem_map.mp hf
      exact h (((hfunctionFile g hg file hfile).mp hcontained).1 _ hline)
    | linking hf hfile hdefinition h =>
      exact ((hfunctionFile _ hf file hfile).mp hcontained).2.2 _ _ hdefinition
        (Renaming.exposes_iff.mpr (.inl h))
  · cases h with
    | title hu hfile h => exact h ((isSelfContained_globalsFile_iff hlink hu hfile).mp hcontained).1
    | linking hf hfile hdefinition h =>
      exact ((hfunctionFile _ hf file hfile).mp hcontained).2.2 _ _ hdefinition
        (Renaming.exposes_iff.mpr (.inr h))

/-- Nothing else makes a file need the host. -/
theorem isSelfContained_of_not_exposed (hdebug : settings.debug = false)
    (hlink : (Program.link heap ∅ root.scan.value.bindings functions).value.2 = .ok p)
    (hjudged : ∀ f ∈ functions, Judged f) {file : PlannedFile} (hfile : file ∈ Output.files settings p)
    (h : ¬ Exposed settings heap root functions p file)
    (h' : ¬ Uncommented settings heap root functions p file) : isSelfContained file.text := by
  obtain ⟨-, -, -, hfunctions, -⟩ := Program.link_spec hlink
  rcases Output.mem_files hfile with ⟨u, hu, hglobals⟩ | ⟨f, hf, hfunction⟩
  · refine (isSelfContained_globalsFile_iff hlink hu hglobals).mpr
      ⟨?_, fun a b hb => ⟨?_, fun v hv => ?_⟩⟩
    · by_contra htitle
      exact h' (.title hu hglobals htitle)
    · rw [← Bool.not_eq_true]
      exact fun hmarked => h (.symbol hu hglobals hb hmarked)
    · by_contra hfree
      exact h (.value hu hglobals hb hv hfree)
  · have hlinked := hf
    rw [hfunctions] at hlinked
    obtain ⟨g, hg, rfl⟩ := List.mem_map.mp hlinked
    refine (isSelfContained_functionFile_iff hdebug (hjudged g hg)
      (fun a b hb => stores_of_table root heap functions hb) (intoSymbols_renamingOf hjudged g.listing)
      hfunction).mpr ⟨fun line hline => ?_, fun t ht => ?_, fun header body hd hexposes => ?_⟩
    · by_contra hresidue
      exact h (.line hf hfunction hline hresidue)
    · rw [← Bool.not_eq_true]
      exact fun hmarked => h (.reference hf hfunction ht hmarked)
    · rcases Renaming.exposes_iff.mp hexposes with hputs | huncovers
      · exact h (.linking hg hfunction hd hputs)
      · exact h' (.linking hg hfunction hd huncovers)

/-- In a tidy program nothing gets out of a comment. -/
theorem Tidy.not_uncommented (h : Tidy p)
    (hlink : (Program.link heap ∅ root.scan.value.bindings functions).value.2 = .ok p) {file : PlannedFile} :
    ¬ Uncommented settings heap root functions p file := by
  obtain ⟨-, -, -, hfunctions, -⟩ := Program.link_spec hlink
  have hmem : ∀ f ∈ functions, linked (Program.table heap ∅ root.scan.value.bindings functions)
      (functions.map CompiledRoutine.toRoutine) f ∈ p.functions := by
    intro f hf
    rw [hfunctions]
    exact List.mem_map_of_mem hf
  intro huncommented
  cases huncommented with
  | title hu _ htitle =>
    refine htitle (isSelfContained_comment fun hbreak => ?_)
    rcases List.mem_append.mp hbreak with hbreak | hbreak
    · exact absurd hbreak (by decide)
    · exact h.scopes _ hu hbreak
  | @linking f _ _ hf _ _ huncovers =>
    -- what linking takes out is the symbol of a cell, or the compiled name of a function
    obtain ⟨-, old, new, -, -, hnew, -, hsemicolon, -⟩ := huncovers
    rcases renamingOf_cases hnew with ⟨a, b, hcell, -⟩ | ⟨g, hg, -, c, hparse, hstem⟩
    · exact h.cells _ (hmem f hf) old (Std.ExtTreeMap.mem_values_of_getElem? hcell) hsemicolon
    · obtain ⟨f', hf', rfl⟩ := List.mem_map.mp hg
      refine h.functions _ (hmem f' hf') ?_
      exact hstem ▸ CompiledName.mem_stem_of_mem hparse hsemicolon (by decide) rfl

/-- **Which planned files are self-contained after a strict run.**  The functions of the program have all
been judged, and a planned file is self-contained if and only if nothing exposes it and nothing gets out of
a comment. -/
theorem isSelfContained_planned_iff (hpolicy : settings.policy = .strict) (hdebug : settings.debug = false)
    (h : (program settings heap host root entry).value = (host', .ok (p, r)))
    (hplan : Output.plan settings p = .ok planned) :
    ∃ functions : List CompiledRoutine,
      (Program.link heap ∅ root.scan.value.bindings functions).value.2 = .ok p ∧
      (∀ f ∈ functions, f.listing.residue? = none) ∧
      ∀ file ∈ planned, (isSelfContained file.text ↔
        ¬ Exposed settings heap root functions p file ∧ ¬ Uncommented settings heap root functions p file) := by
  obtain ⟨graph, prepared, hs⟩ := program_eq_ok_iff.mp h
  have hjudged : ∀ f ∈ prepared.map Prepared.routine, Judged f := fun f hf => hs.judged hpolicy hf
  refine ⟨prepared.map Prepared.routine, hs.link_eq, fun f hf => (hjudged f hf).residue, ?_⟩
  intro file hfile
  rw [(Output.plan_eq_ok hplan).1] at hfile
  rw [← not_or]
  constructor
  · exact fun hcontained hexposed => not_isSelfContained_of_exposed hdebug hs.link_eq hjudged hexposed hcontained
  · intro hnone
    obtain ⟨hexposed, huncommented⟩ := not_or.mp hnone
    exact isSelfContained_of_not_exposed hdebug hs.link_eq hjudged hfile hexposed huncommented

/-- **What a strict run writes.**  In a tidy program a planned file is self-contained if and only if nothing
exposes it: no variable whose name is residue or whose value is an address or shows residue, no line that is
not judged, and no symbol that linking puts in. -/
theorem strict_exposes (hpolicy : settings.policy = .strict) (hdebug : settings.debug = false)
    (h : (program settings heap host root entry).value = (host', .ok (p, r))) (htidy : Tidy p)
    (hplan : Output.plan settings p = .ok planned) :
    ∃ functions : List CompiledRoutine,
      (Program.link heap ∅ root.scan.value.bindings functions).value.2 = .ok p ∧
      (∀ f ∈ functions, f.listing.residue? = none) ∧
      ∀ file ∈ planned,
        (isSelfContained file.text ↔ ¬ Exposed settings heap root functions p file) := by
  obtain ⟨functions, hlink, hresidue, hiff⟩ := isSelfContained_planned_iff hpolicy hdebug h hplan
  refine ⟨functions, hlink, hresidue, fun file hfile => ?_⟩
  rw [hiff file hfile, and_iff_left (htidy.not_uncommented hlink)]

/-- The files that a run plans. -/
def plannedFiles (settings : Settings) (heap : HeapImage) (host : Host) (root : Scope) (entry : Handle) :
    Except Error (List PlannedFile) := do
  let made ← (program settings heap host root entry).value.2
  Output.plan settings made.1

/-- A function that reads an integer: nothing exposes the two files. -/
theorem strict_exposes_readingHost :
    ∃ host' p r planned functions,
      (program { policy := .strict } {} readingHost readingRoot ⟨0⟩).value = (host', .ok (p, r)) ∧
      Tidy p ∧ Output.plan { policy := .strict } p = .ok planned ∧ planned.length = 2 ∧
      ∀ file ∈ planned, ¬ Exposed { policy := .strict } {} readingRoot functions p file := by
  have hfiles : (plannedFiles { policy := .strict } {} readingHost readingRoot ⟨0⟩).toOption.map
      (·.map fun file => isSelfContained file.text) = some [true, true] := by decide +kernel
  have htidy : ((program { policy := .strict } {} readingHost readingRoot ⟨0⟩).value.2.toOption.map
      fun made => decide (Tidy made.1)) = some true := by decide +kernel
  obtain ⟨planned, hplanned, hcontained⟩ := Except.exists_of_map_toOption hfiles
  obtain ⟨⟨p, r⟩, hprogram, hplan⟩ := Except.bind_eq_ok_iff.mp hplanned
  rw [hprogram] at htidy
  have htidy : Tidy p := of_decide_eq_true (Option.some.inj htidy)
  have hrun : (program { policy := .strict } {} readingHost readingRoot ⟨0⟩).value = (_, .ok (p, r)) :=
    Prod.ext rfl hprogram
  obtain ⟨functions, -, -, hiff⟩ := strict_exposes rfl rfl hrun htidy hplan
  refine ⟨_, p, r, planned, functions, hrun, htidy, hplan, ?_, fun file hfile => ?_⟩
  · simpa using congrArg List.length hcontained
  · have hmem : isSelfContained file.text ∈ [true, true] :=
      hcontained ▸ List.mem_map.mpr ⟨file, hfile, rfl⟩
    exact (hiff file hfile).mp (by simpa using hmem)

/-- A cell with a pointer in it. -/
def pointerRoot : Scope :=
  .mk "Main" [⟨"p", 256, ⟨.ref, .pointer 4096⟩, false⟩] []

/-- A strict run succeeds and plans a file with an address of the host in it. -/
theorem pointerRoot_not_selfContained :
    ∃ host' p r planned,
      (program { policy := .strict } {} readingHost pointerRoot ⟨0⟩).value = (host', .ok (p, r)) ∧
      Output.plan { policy := .strict } p = .ok planned ∧
      ∃ file ∈ planned, ¬ isSelfContained file.text := by
  have hfiles : (plannedFiles { policy := .strict } {} readingHost pointerRoot ⟨0⟩).toOption.map
      (·.map fun file => isSelfContained file.text) = some [false, true] := by decide +kernel
  obtain ⟨planned, hplanned, hcontained⟩ := Except.exists_of_map_toOption hfiles
  obtain ⟨⟨p, r⟩, hprogram, hplan⟩ := Except.bind_eq_ok_iff.mp hplanned
  refine ⟨_, p, r, planned, Prod.ext rfl hprogram, hplan, ?_⟩
  have hmem : false ∈ planned.map fun file => isSelfContained file.text := by
    rw [hcontained]
    decide
  obtain ⟨file, hfile, hfalse⟩ := List.mem_map.mp hmem
  exact ⟨file, hfile, by simp [hfalse]⟩

end Build

end Freestanding
