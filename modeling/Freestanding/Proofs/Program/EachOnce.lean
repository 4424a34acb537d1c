import Freestanding.Proofs.Listing.NewNames
import Freestanding.Proofs.Program.Assembly
import Mathlib.Data.List.Pairwise

/-!
# Each symbol once

An output file has constants, declarations of variables, definitions and declarations of functions.  A
symbol should stand in one of these places only, and be defined once.  If it is so in the dump, it stays so
for all symbols that keep their names.  New names are chosen at several stages, each on its own: an output
name for the function, names for the entries of the constant pool, the empty instance, the allocators, the
symbols of variables, and the output names of the functions that are declared.  Nothing compares them with
each other or with the names of the dump.

So a function that declares itself under another compiled name comes to define and to declare one symbol.

## Main definitions

* `Listing.Stands` — a symbol stands in a place of an output file.
* `Listing.EachOnce` — every symbol stands in one place.
* `Listing.dumpSymbols` — the symbols that have a line in a dump.
* `Assembly.Taken` — symbols that keep their names from the dump.
* `Assembly.Chosen` — symbols whose names are chosen on the way.

## Main results

* `Assembly.stands_iff` — the symbols of an output file are taken or chosen.
* `Assembly.Taken.eq_of_taken` — symbols that are taken stand in one place.
* `Assembly.eachOnce_iff` — **when each symbol stands once in an output file.**
* `Assembly.recursiveAssembly_not_eachOnce` — a function that is both defined and declared.
-/

namespace Freestanding

/-- The symbol that the line declares, or to which it assigns. -/
def TopLevel.symbol? : TopLevel → Option Text
  | .declaration symbol _ | .address symbol _ | .constant symbol _ => some symbol
  | .target _ | .attributes _ | .metadata _ => none

namespace Listing

/-- A place in an output file.  Definitions are counted. -/
inductive Place
  /-- Among the constants. -/
  | constant
  /-- Among the declarations of variables. -/
  | external
  /-- At a definition. -/
  | definition (index : Nat)
  /-- Among the declarations of functions. -/
  | declaration
  deriving DecidableEq, Repr

/-- A symbol stands in a place of the file. -/
def Stands (l : Listing) : Place → Text → Prop
  | .constant, t => t ∈ l.constants
  | .external, t => t ∈ l.externals
  | .definition index, t => l.headers[index]?.bind Definition.nameIn? = some t
  | .declaration, t => t ∈ l.declarations

instance (l : Listing) (p : Place) (t : Text) : Decidable (l.Stands p t) :=
  match p with
  | .constant => inferInstanceAs (Decidable (t ∈ l.constants))
  | .external => inferInstanceAs (Decidable (t ∈ l.externals))
  | .definition index => inferInstanceAs (Decidable (l.headers[index]?.bind Definition.nameIn? = some t))
  | .declaration => inferInstanceAs (Decidable (t ∈ l.declarations))

/-- No symbol stands in two places: none is both defined and declared, or defined twice. -/
def EachOnce (l : Listing) : Prop :=
  ∀ (t : Text) (p q : Place), l.Stands p t → l.Stands q t → p = q

/-- The symbols that have a line in the dump: those of its definitions, and those of the lines outside
that are kept. -/
def dumpSymbols (target : Target) (dump : Text) : List Text :=
  (definitionsOf target dump).map Definition.name ++ (keptLines target dump).filterMap TopLevel.symbol?

/-! ### Dumps in which each symbol has one line -/

variable {target : Target} {dump : Text}

theorem line_eq_of_nodup (h : (dumpSymbols target dump).Nodup) {k k' : TopLevel} {s : Text}
    (hk : k ∈ keptLines target dump) (hk' : k' ∈ keptLines target dump) (hs : k.symbol? = some s)
    (hs' : k'.symbol? = some s) : k = k' := by
  have hlines := List.pairwise_filterMap.mp (List.nodup_append.mp h).2.1
  by_contra hne
  have hsymm : Std.Symm fun k k' : TopLevel =>
      ∀ s, k.symbol? = some s → ∀ s', k'.symbol? = some s' → s ≠ s' :=
    ⟨fun _ _ hR s hs s' hs' => (hR s' hs' s hs).symm⟩
  exact hlines.forall hk hk' hne s hs s hs' rfl

private theorem mem_definitionsOf_of_mem_kept {d : Definition} (h : d ∈ keptDefinitions target dump) :
    d ∈ definitionsOf target dump := by
  unfold keptDefinitions at h
  split at h
  · next hself => exact (List.mem_filter.mp ((selfFirst?_perm hself).mem_iff.mp h)).1
  · cases h

theorem name_ne_of_nodup (h : (dumpSymbols target dump).Nodup) {d : Definition} {k : TopLevel} {s : Text}
    (hd : d ∈ keptDefinitions target dump) (hk : k ∈ keptLines target dump) (hs : k.symbol? = some s) :
    d.name ≠ s := by
  refine (List.nodup_append.mp h).2.2 _ ?_ _ (List.mem_filterMap.mpr ⟨k, hk, hs⟩)
  exact List.mem_map_of_mem (mem_definitionsOf_of_mem_kept hd)

private theorem names_nodup (h : (dumpSymbols target dump).Nodup) :
    ((keptDefinitions target dump).map Definition.name).Nodup := by
  unfold keptDefinitions
  split
  · next hself =>
    have hsub := (List.filter_sublist (p := fun d : Definition => (CompiledName.parse? d.name).isSome)
      (l := definitionsOf target dump)).map Definition.name
    exact ((selfFirst?_perm hself).map Definition.name).nodup_iff.mpr
      ((List.nodup_append.mp h).1.sublist hsub)
  · exact List.nodup_nil

private theorem index_eq_of_nodup (h : (dumpSymbols target dump).Nodup) {i j : Nat} {d d' : Definition}
    (hd : (keptDefinitions target dump)[i]? = some d) (hd' : (keptDefinitions target dump)[j]? = some d')
    (hname : d.name = d'.name) : i = j := by
  refine (List.getElem?_inj ?_ (names_nodup h)).mp ?_
  · rw [List.length_map]
    exact (List.getElem?_eq_some_iff.mp hd).1
  · rw [List.getElem?_map, List.getElem?_map, hd, hd', Option.map_some, Option.map_some, hname]

end Listing

namespace Assembly

open Listing

variable (A : Assembly)

/-- The definitions of the dump that are kept. -/
def definitions : List Definition :=
  keptDefinitions A.target A.dump

/-- The name of a definition in the output file. -/
def finalName? (d : Definition) : Option Text :=
  Definition.nameIn? ((d.header.rename (dumpRenaming A.target A.dump)).rename A.linkRenaming)

/-- The output name of the function that a line of the dump declares, if it is one of the program. -/
def callee? (s line : Text) : Option Text :=
  Callee.resolve? A.routines s (line.rename (dumpRenaming A.target A.dump))

/-- The symbols that keep the names that they have in the dump. -/
inductive Taken : Place → Text → Prop
  /-- A constant that is no entry of the constant pool. -/
  | constant {s line : Text} (h : .constant s line ∈ A.lines) (hs : A.target.poolSymbol? s = none) :
    Taken .constant s
  /-- A definition. -/
  | definition {index : Nat} {d : Definition} (h : A.definitions[index]? = some d)
    (hname : A.finalName? d = some d.name) : Taken (.definition index) d.name
  /-- A declaration of a function outside the program. -/
  | declaration {s line : Text} (h : .declaration s line ∈ A.lines) (hs : A.callee? s line = none) :
    Taken .declaration s

/-- The symbols whose names are chosen on the way. -/
inductive Chosen : Place → Text → Prop
  /-- An entry of the constant pool. -/
  | pool {s line t : Text} (h : .constant s line ∈ A.lines) (hs : A.target.poolSymbol? s = some t) :
    Chosen .constant t
  /-- The empty instance, for loads that were changed. -/
  | singleton (h : 0 < A.containers.dereferences) : Chosen .constant (Container.singletonSymbol A.stem)
  /-- The variable of a cell. -/
  | cell {a : UInt64} {b : Binding} (ha : a ∈ A.freed.addresses.cells) (hb : A.table[a]? = some b) :
    Chosen .external b.symbol
  /-- A definition under another name. -/
  | definition {index : Nat} {d : Definition} {t : Text} (h : A.definitions[index]? = some d)
    (hname : A.finalName? d = some t) (hne : t ≠ d.name) : Chosen (.definition index) t
  /-- A declared function of the program. -/
  | callee {s line name : Text} (h : .declaration s line ∈ A.lines) (hs : A.callee? s line = some name) :
    Chosen .declaration (Name.symbol name)
  /-- An allocator, for allocations that were replaced. -/
  | malloc (h : 0 < A.collector.substituted ∨ 0 < A.containers.allocations) : Chosen .declaration "@malloc"
  /-- An allocator, for containers that have to be cleared. -/
  | calloc (h : 0 < A.containers.cleared) : Chosen .declaration "@calloc"

variable {A}

/-! ### New names -/

/-- What becomes of a symbol when the listing is taken from the dump. -/
theorem extractedName_cases (s : Text) :
    A.extractedName s = s ∧ (∀ line, .constant s line ∈ A.lines → A.target.poolSymbol? s = none) ∨
    (∃ d ∈ A.definitions, d.name = s) ∨
    A.target.poolSymbol? s = some (A.extractedName s) ∧ ∃ line, .constant s line ∈ A.lines := by
  obtain ⟨own, helpers, -, hself, -⟩ := exists_selfFirst?_of_ofDump A.ofDump_eq
  have hown : own ∈ A.definitions := by
    rw [definitions, keptDefinitions, hself]
    exact List.mem_cons_self
  have hr : dumpRenaming A.target A.dump =
      renamesFor A.target own.name (A.lines.filterMap TopLevel.constant?) := by
    rw [dumpRenaming, hself]
    rfl
  rw [extractedName, hr]
  rcases (renamesFor A.target own.name (A.lines.filterMap TopLevel.constant?)).apply_cases s with
    ⟨hnone, hsame⟩ | hnew
  · refine .inl ⟨hsame, fun line hline => Option.not_isSome_iff_eq_none.mp fun hpool => ?_⟩
    have hmem : s ∈ renamesFor A.target own.name (A.lines.filterMap TopLevel.constant?) :=
      mem_renamesFor (.inr ⟨hpool, line, List.mem_filterMap.mpr ⟨_, hline, rfl⟩⟩)
    rw [Renaming.getElem?_of_mem hmem] at hnone
    cases hnone
  · rcases getElem?_renamesFor_cases hnew with ⟨rfl, -⟩ | ⟨hpool, line, hline⟩
    · exact .inr (.inl ⟨own, hown, rfl⟩)
    · refine .inr (.inr ⟨hpool, line, ?_⟩)
      obtain ⟨k, hk, hconstant⟩ := List.mem_filterMap.mp hline
      cases k <;> cases hconstant
      exact hk

section

variable (h : (dumpSymbols A.target A.dump).Nodup)
include h

/-- Only the entries of the constant pool get new names. -/
theorem extractedName_constant {s line : Text} (hs : .constant s line ∈ A.lines) :
    A.extractedName s = (A.target.poolSymbol? s).getD s := by
  rcases A.extractedName_cases s with ⟨heq, hnone⟩ | ⟨d, hd, hname⟩ | ⟨hpool, -⟩
  · rw [heq, hnone line hs]
    rfl
  · exact absurd hname (name_ne_of_nodup h hd hs rfl)
  · rw [hpool]
    rfl

theorem extractedName_declaration {s line : Text} (hs : .declaration s line ∈ A.lines) :
    A.extractedName s = s := by
  rcases A.extractedName_cases s with ⟨heq, -⟩ | ⟨d, hd, hname⟩ | ⟨-, line', hline'⟩
  · exact heq
  · exact absurd hname (name_ne_of_nodup h hd hs rfl)
  · cases line_eq_of_nodup h hs hline' rfl rfl

/-- The line that declares a function is that of the dump. -/
theorem getElem?_declarations_freed {s line : Text} (hs : .declaration s line ∈ A.lines) :
    A.freed.declarations[s]? = some (line.rename (dumpRenaming A.target A.dump)) := by
  have hmem : s ∈ A.extracted.declarations :=
    (mem_declarations_ofDump A.ofDump_eq).mpr ⟨s, line, hs, extractedName_declaration h hs⟩
  obtain ⟨value, hvalue⟩ := Std.ExtTreeMap.mem_iff_exists.mp hmem
  obtain ⟨s', line', hline', hname, hrename⟩ := exists_of_getElem?_declarations A.ofDump_eq hvalue
  -- the symbol has its own name, and one line only
  obtain rfl : s' = s := (extractedName_declaration h hline').symm.trans hname
  cases line_eq_of_nodup h hs hline' rfl rfl
  rw [A.freed_eq.getElem?_declarations hvalue, hrename]

/-- A declared function gets its output name. -/
theorem linkedName_declaration {s line : Text} (hs : .declaration s line ∈ A.lines) :
    A.linkedName s = ((A.callee? s line).map Name.symbol).getD s := by
  have hcell : ∀ a : UInt64, A.freed.addresses.cells[a]? ≠ some s := by
    intro a ha
    cases line_eq_of_nodup h hs (A.address_of_cell ha).1 rfl rfl
  rw [A.linkedName_eq hcell, getElem?_declarations_freed h hs]
  rfl

/-! ### Symbols in the output file -/

theorem stands_constant_iff {t : Text} : A.linked.listing.Stands .constant t ↔
    A.Chosen .constant t ∨ A.Taken .constant t := by
  refine A.mem_constants.trans ?_
  constructor
  · rintro (⟨s, line, hs, rfl⟩ | ⟨hpos, rfl⟩)
    · rw [extractedName_constant h hs]
      cases hpool : A.target.poolSymbol? s with
      | none => exact .inr (.constant hs hpool)
      | some new => exact .inl (.pool hs hpool)
    · exact .inl (.singleton hpos)
  · rintro (hc | ht)
    · cases hc with
      | pool hs hpool =>
        refine .inl ⟨_, _, hs, ?_⟩
        rw [extractedName_constant h hs, hpool]
        rfl
      | singleton hpos => exact .inr ⟨hpos, rfl⟩
    · cases ht with
      | constant hs hpool =>
        refine .inl ⟨_, _, hs, ?_⟩
        rw [extractedName_constant h hs, hpool]
        rfl

theorem stands_declaration_iff {t : Text} : A.linked.listing.Stands .declaration t ↔
    A.Chosen .declaration t ∨ A.Taken .declaration t := by
  have hmalloc : A.linkedName "@malloc" = "@malloc" := A.linkedName_eq_self (by decide) (by decide)
  have hcalloc : A.linkedName "@calloc" = "@calloc" := A.linkedName_eq_self (by decide) (by decide)
  refine A.mem_declarations.trans ?_
  constructor
  · rintro ⟨s, hs, rfl⟩
    rcases A.mem_declarations_freed.mp hs with ⟨s, line, hline, rfl⟩ | ⟨hpos, rfl⟩ | ⟨hpos, rfl⟩
    · rw [extractedName_declaration h hline, linkedName_declaration h hline]
      cases hcallee : A.callee? s line with
      | none => exact .inr (.declaration hline hcallee)
      | some name => exact .inl (.callee hline hcallee)
    · rw [hmalloc]
      exact .inl (.malloc hpos)
    · rw [hcalloc]
      exact .inl (.calloc hpos)
  · have hdeclared : ∀ {s line : Text}, .declaration s line ∈ A.lines → s ∈ A.freed.declarations :=
      fun hs => A.mem_declarations_freed.mpr (.inl ⟨_, _, hs, extractedName_declaration h hs⟩)
    rintro (hc | ht)
    · cases hc with
      | callee hs hcallee =>
        refine ⟨_, hdeclared hs, ?_⟩
        rw [linkedName_declaration h hs, hcallee]
        rfl
      | malloc hpos => exact ⟨_, A.mem_declarations_freed.mpr (.inr (.inl ⟨hpos, rfl⟩)), hmalloc⟩
      | calloc hpos => exact ⟨_, A.mem_declarations_freed.mpr (.inr (.inr ⟨hpos, rfl⟩)), hcalloc⟩
    · cases ht with
      | declaration hs hcallee =>
        refine ⟨_, hdeclared hs, ?_⟩
        rw [linkedName_declaration h hs, hcallee]
        rfl

omit h in
theorem stands_definition_iff {index : Nat} {t : Text} : A.linked.listing.Stands (.definition index) t ↔
    ∃ d, A.definitions[index]? = some d ∧ A.finalName? d = some t := by
  show A.linked.listing.headers[index]?.bind Definition.nameIn? = some t ↔ _
  rw [A.headers_eq, headers_ofDump A.ofDump_eq, List.map_map, List.getElem?_map, Option.bind_map,
    Option.bind_eq_some_iff]
  rfl

/-- **The symbols of an output file** are taken from the dump or chosen on the way. -/
theorem stands_iff {p : Place} {t : Text} : A.linked.listing.Stands p t ↔ A.Chosen p t ∨ A.Taken p t := by
  cases p with
  | constant => exact stands_constant_iff h
  | declaration => exact stands_declaration_iff h
  | external =>
    refine A.mem_externals.trans ⟨?_, ?_⟩
    · rintro ⟨a, ha, b, hb, rfl⟩
      exact .inl (.cell ha hb)
    · rintro (hc | ht)
      · cases hc with
        | cell ha hb => exact ⟨_, ha, _, hb, rfl⟩
      · cases ht
  | definition index =>
    refine stands_definition_iff.trans ⟨?_, ?_⟩
    · rintro ⟨d, hd, hname⟩
      by_cases hne : t = d.name
      · subst hne
        exact .inr (.definition hd hname)
      · exact .inl (.definition hd hname hne)
    · rintro (hc | ht)
      · cases hc with
        | definition hd hname => exact ⟨_, hd, hname⟩
      · cases ht with
        | definition hd hname => exact ⟨_, hd, hname⟩

/-- Symbols that keep their names stand in one place, as they do in the dump. -/
theorem Taken.eq_of_taken {p q : Place} {t : Text} (hp : A.Taken p t) (hq : A.Taken q t) : p = q := by
  cases hp with
  | constant hs _ =>
    cases hq with
    | constant => rfl
    | definition hd => exact absurd rfl (name_ne_of_nodup h (List.mem_of_getElem? hd) hs rfl)
    | declaration hs' => cases line_eq_of_nodup h hs hs' rfl rfl
  | declaration hs _ =>
    cases hq with
    | constant hs' => cases line_eq_of_nodup h hs hs' rfl rfl
    | definition hd => exact absurd rfl (name_ne_of_nodup h (List.mem_of_getElem? hd) hs rfl)
    | declaration => rfl
  | @definition index d hd _ =>
    generalize hname : d.name = t at hq
    cases hq with
    | constant hs' => exact absurd hname (name_ne_of_nodup h (List.mem_of_getElem? hd) hs' rfl)
    | declaration hs' => exact absurd hname (name_ne_of_nodup h (List.mem_of_getElem? hd) hs' rfl)
    | @definition index' d' hd' _ =>
      rw [index_eq_of_nodup h hd hd' hname]

/-- **When each symbol stands once in an output file.**  It does so exactly if no name that was chosen on
the way also stands in another place, be it there chosen as well or taken from the dump. -/
theorem eachOnce_iff : A.linked.listing.EachOnce ↔
    ∀ (t : Text) (p q : Place), A.Chosen p t → A.Chosen q t ∨ A.Taken q t → p = q := by
  constructor
  · intro honce t p q hp hq
    exact honce t p q ((stands_iff h).mpr (.inl hp)) ((stands_iff h).mpr hq)
  · intro hapart t p q hp hq
    rcases (stands_iff h).mp hp with hp | hp
    · exact hapart t p q hp ((stands_iff h).mp hq)
    · rcases (stands_iff h).mp hq with hq | hq
      · exact (hapart t q p hq (.inr hp)).symm
      · exact hp.eq_of_taken h hq

end

/-! ### A function that calls another one, or itself -/

/-- The lines of a dump of a function `f`, with an entry of the constant pool, a helper, and a call to what
is declared under a compiled name. -/
def callingLines (callee : Text) : List Text :=
  ["@_j_const1 = private constant i64 5",
    "define i64 @julia_f_1(i64 %0) \x7b", "  %1 = call i64 " ++ callee ++ "(i64 %0)", "  ret i64 %1", "\x7d",
    "define i64 @julia_h_2() \x7b", "  ret i64 1", "\x7d",
    "declare i64 " ++ callee ++ "(i64)", ""]

/-- The dump. -/
def callingDump (callee : Text) : Text :=
  Text.unlines (callingLines callee)

/-- The definition of the function. -/
def callingDefinition (callee : Text) : Definition where
  name := "@julia_f_1"
  header := "define i64 @julia_f_1(i64 %0) \x7b"
  body := "\n  %1 = call i64 " ++ callee ++ "(i64 %0)\n  ret i64 %1\n"
  start := 36
  stop := 117

/-- The helper. -/
def callingHelper : Definition where
  name := "@julia_h_2"
  header := "define i64 @julia_h_2() \x7b"
  body := "\n  ret i64 1\n"
  start := 118
  stop := 157

/-- What is kept of the other lines. -/
def callingTopLevels (callee : Text) : List TopLevel :=
  [.constant "@_j_const1" "@_j_const1 = private constant i64 5",
    .declaration callee ("declare i64 " ++ callee ++ "(i64)")]

/-- The function, which becomes `main`. -/
def callingRoutine : Routine where
  handle := ⟨0⟩
  name := "f"
  mangled := "Main_f"
  arguments := ["Int64"]
  scope := ["Main"]
  isEntry := true
  overload := 0

/-- Another function of the program. -/
def calledRoutine : Routine where
  handle := ⟨1⟩
  name := "g"
  mangled := "Main_g"
  arguments := ["Int64"]
  scope := ["Main"]
  isEntry := false
  overload := 0

/-- The code of the function. -/
def callingListing (callee : Text) : Listing :=
  .ofParts callingRoutine.target (callingDefinition callee) [callingHelper] (callingTopLevels callee)
    (callingDump callee)

/-- The compiled name under which the function declares what it calls has the stem of one of the two
functions. -/
def IsCallee (callee : Text) : Prop :=
  callee = "@julia_g_7" ∨ callee = "@julia_f_7"

section

variable {callee : Text} (h : IsCallee callee)
include h

theorem placedLines_callingDump :
    Definition.placedLines (callingDump callee) = Definition.placed 0 (callingLines callee) := by
  refine Definition.placedLines_unlines ?_ (by simp [callingLines])
  rcases h with rfl | rfl <;> decide +kernel

theorem all_callingDump : Definition.all callingRoutine.target.name (callingDump callee) =
    .ok [callingDefinition callee, callingHelper] := by
  rw [Definition.all, placedLines_callingDump h]
  unfold callingLines callingDefinition callingHelper
  rcases h with rfl | rfl <;> (repeat rw [Text.toList_literal]) <;> decide +kernel

theorem definitionsOf_callingDump : definitionsOf callingRoutine.target (callingDump callee) =
    [callingDefinition callee, callingHelper] := by
  rw [definitionsOf, all_callingDump h]

theorem keptLines_callingDump : keptLines callingRoutine.target (callingDump callee) =
    callingTopLevels callee := by
  rw [keptLines, outside, definitionsOf_callingDump h, placedLines_callingDump h]
  unfold callingLines callingDefinition callingHelper callingTopLevels
  rcases h with rfl | rfl <;> (repeat rw [Text.toList_literal]) <;> decide +kernel

omit h in
theorem selfFirst?_calling : selfFirst? callingRoutine.target.name [callingDefinition callee, callingHelper] =
    some (callingDefinition callee, [callingHelper]) :=
  rfl

private theorem ofDump_callingDump :
    Listing.ofDump callingRoutine.target (callingDump callee) = .ok (callingListing callee) := by
  have hlines : topLevels (callingDump callee) [callingDefinition callee, callingHelper] =
      callingTopLevels callee := by
    rw [← keptLines_callingDump h, ← topLevels_eq_keptLines, definitionsOf_callingDump h]
  rw [ofDump_eq_ok (all_callingDump h) selfFirst?_calling, hlines, callingListing]

theorem dumpRenaming_callingDump : dumpRenaming callingRoutine.target (callingDump callee) =
    renamesFor callingRoutine.target "@julia_f_1" [("@_j_const1", "@_j_const1 = private constant i64 5")] := by
  rw [dumpRenaming, definitionsOf_callingDump h, selfFirst?_calling, keptLines_callingDump h]
  rfl

theorem dumpSymbols_callingDump : dumpSymbols callingRoutine.target (callingDump callee) =
    (["@julia_f_1", "@julia_h_2", "@_j_const1", callee] : List Text) := by
  rw [dumpSymbols, definitionsOf_callingDump h, keptLines_callingDump h]
  rfl

end

/-- Its way into the program of the two functions. -/
def callingAssembly (callee : Text) (h : IsCallee callee) : Assembly where
  target := callingRoutine.target
  dump := callingDump callee
  policy := .strict
  heap := {}
  function := callingRoutine.name
  stem := callingRoutine.outputName
  extracted := callingListing callee
  freed := callingListing callee
  collector := {}
  containers := {}
  counters := ∅
  known := ∅
  functions := [⟨callingRoutine, callingListing callee⟩, ⟨calledRoutine, {}⟩]
  program := {
    units := .insert (.insert ∅ ["Main"] { scope := ["Main"], functions := [0] })
      ["Main"] { scope := ["Main"], functions := [0, 1] }
    functions := [Linker.linked ∅ [callingRoutine, calledRoutine] ⟨callingRoutine, callingListing callee⟩,
      Linker.linked ∅ [callingRoutine, calledRoutine] ⟨calledRoutine, {}⟩] }
  position := 0
  routine := ⟨callingRoutine, callingListing callee⟩
  linked := Linker.linked ∅ [callingRoutine, calledRoutine] ⟨callingRoutine, callingListing callee⟩
  ofDump_eq := ofDump_callingDump h
  freed_eq := by
    rcases h with rfl | rfl <;>
      exact ⟨rfl, Container.lower_eq_self (by decide +kernel) (by decide +kernel)⟩
  link_eq := rfl
  routine_eq := rfl
  listing_eq := rfl
  linked_eq := rfl

/-- The function that calls the other one. -/
def outwardAssembly : Assembly :=
  callingAssembly "@julia_g_7" (.inl rfl)

/-- The function that calls itself. -/
def recursiveAssembly : Assembly :=
  callingAssembly "@julia_f_7" (.inr rfl)

/-- The symbols in the output file of the function that calls the other one. -/
def outwardPlaces : List (Place × Text) :=
  [(.constant, "@_j_const_f_1"), (.definition 0, "@main"), (.definition 1, "@julia_h_2"),
    (.declaration, "@Main_g")]

private theorem mem_outwardPlaces_of_definition {index : Nat} {d : Definition} {t : Text}
    (hd : outwardAssembly.definitions[index]? = some d) (hname : outwardAssembly.finalName? d = some t) :
    (.definition index, t) ∈ outwardPlaces := by
  have hdefinitions : outwardAssembly.definitions = [callingDefinition "@julia_g_7", callingHelper] := by
    show keptDefinitions callingRoutine.target (callingDump "@julia_g_7") = _
    rw [keptDefinitions, definitionsOf_callingDump (.inl rfl), selfFirst?_calling]
  have hfinal : ∀ d, outwardAssembly.finalName? d = Definition.nameIn? ((d.header.rename
      (renamesFor callingRoutine.target "@julia_f_1" [("@_j_const1", "@_j_const1 = private constant i64 5")])).rename
        outwardAssembly.linkRenaming) := by
    intro d
    rw [← dumpRenaming_callingDump (.inl rfl)]
    rfl
  have hmain : outwardAssembly.finalName? (callingDefinition "@julia_g_7") = some "@main" := by
    rw [hfinal]
    decide +kernel
  have hhelper : outwardAssembly.finalName? callingHelper = some "@julia_h_2" := by
    rw [hfinal]
    decide +kernel
  rw [hdefinitions] at hd
  rcases index with - | - | index
  · rw [List.getElem?_cons_zero] at hd
    rw [← Option.some.inj hd, hmain] at hname
    rw [← Option.some.inj hname]
    decide
  · rw [List.getElem?_cons_succ, List.getElem?_cons_zero] at hd
    rw [← Option.some.inj hd, hhelper] at hname
    rw [← Option.some.inj hname]
    decide
  · rw [List.getElem?_cons_succ, List.getElem?_cons_succ, List.getElem?_nil] at hd
    cases hd

theorem mem_outwardPlaces {p : Place} {t : Text} (h : outwardAssembly.Chosen p t ∨ outwardAssembly.Taken p t) :
    (p, t) ∈ outwardPlaces := by
  have hlines : outwardAssembly.lines = callingTopLevels "@julia_g_7" := keptLines_callingDump (.inl rfl)
  have hconstant : ∀ {s line}, .constant s line ∈ outwardAssembly.lines →
      outwardAssembly.target.poolSymbol? s = some "@_j_const_f_1" := by
    intro s line hs
    rw [hlines, callingTopLevels, List.mem_pair] at hs
    rcases hs with hs | hs
    · rw [(TopLevel.constant.inj hs).1]
      decide +kernel
    · exact absurd hs (by simp)
  have hdeclaration : ∀ {s line}, .declaration s line ∈ outwardAssembly.lines →
      outwardAssembly.callee? s line = some "Main_g" := by
    intro s line hs
    rw [hlines, callingTopLevels, List.mem_pair] at hs
    rcases hs with hs | hs
    · exact absurd hs (by simp)
    · show Callee.resolve? _ s (line.rename (dumpRenaming callingRoutine.target (callingDump "@julia_g_7"))) = _
      rw [(TopLevel.declaration.inj hs).1, (TopLevel.declaration.inj hs).2, dumpRenaming_callingDump (.inl rfl)]
      decide +kernel
  rcases h with h | h
  · cases h with
    | pool hs ht =>
      rw [hconstant hs] at ht
      rw [← Option.some.inj ht]
      decide
    | singleton hpos => exact absurd hpos (by decide)
    | cell ha => exact absurd ha Std.ExtTreeMap.not_mem_empty
    | definition hd hname => exact mem_outwardPlaces_of_definition hd hname
    | callee hs hname =>
      rw [hdeclaration hs] at hname
      rw [← Option.some.inj hname]
      decide
    | malloc hpos => exact absurd hpos (by decide)
    | calloc hpos => exact absurd hpos (by decide)
  · cases h with
    | constant hs ht =>
      rw [hconstant hs] at ht
      cases ht
    | definition hd hname => exact mem_outwardPlaces_of_definition hd hname
    | declaration hs hname =>
      rw [hdeclaration hs] at hname
      cases hname

theorem eachOnce_iff_outwardAssembly :
    (dumpSymbols outwardAssembly.target outwardAssembly.dump).Nodup ∧
      outwardAssembly.linked.listing.EachOnce := by
  have h : (dumpSymbols outwardAssembly.target outwardAssembly.dump).Nodup := by
    show (dumpSymbols callingRoutine.target (callingDump "@julia_g_7")).Nodup
    rw [dumpSymbols_callingDump (.inl rfl)]
    decide
  have hapart : ∀ x ∈ outwardPlaces, ∀ y ∈ outwardPlaces, x.2 = y.2 → x.1 = y.1 := by decide
  refine ⟨h, (eachOnce_iff h).mpr ?_⟩
  intro t p q hp hq
  exact hapart (p, t) (mem_outwardPlaces (.inl hp)) (q, t) (mem_outwardPlaces hq) rfl

/-- A function that declares itself under another compiled name is both defined and declared: both lines
get its output name. -/
theorem recursiveAssembly_not_eachOnce :
    (dumpSymbols recursiveAssembly.target recursiveAssembly.dump).Nodup ∧
      ¬ recursiveAssembly.linked.listing.EachOnce := by
  constructor
  · show (dumpSymbols callingRoutine.target (callingDump "@julia_f_7")).Nodup
    rw [dumpSymbols_callingDump (.inr rfl)]
    decide
  · intro h
    have hboth : Place.definition 0 = .declaration := h "@main" _ _ (by decide +kernel) (by decide +kernel)
    cases hboth

end Assembly

end Freestanding
