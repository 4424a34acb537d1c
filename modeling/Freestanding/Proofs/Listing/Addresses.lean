import Freestanding.Collector.Residue
import Freestanding.Proofs.Listing.Lines
import Freestanding.Proofs.Text.Search
import Mathlib.Data.List.Infix

/-!
# Symbols that stand for addresses

A line `@symbol = …` with an integer that is cast to a pointer makes the symbol stand for an address of the
host's memory.  Such symbols are entered into three tables by what their names say is at the address, and
later stages know them from these tables alone: cells get variables, container types get layouts, and code
that mentions another object is reported.

A table has one symbol for each address.  Where several symbols of one kind stand for the same address, it
has the first one, and nobody knows the others any more.

## Main definitions

* `AddressKind` — what a symbol says is at its address.
* `Line.casts` — all integers that are cast to pointers in a text.
* `Listing.aliases` — the symbols of a dump that stand for addresses.

## Main results

* `AddressTable.getElem?_enter`, `AddressTable.getElem?_foldl_enter` — one entry, and all of them.
* `Listing.ofDump_addresses` — **the tables that are taken from a dump.**
* `Listing.twinDump_forgets` — a symbol that is forgotten.
-/

namespace Freestanding

/-! ### Tables -/

/-- What a symbol says is at its address. -/
inductive AddressKind
  /-- A cell that holds a global variable. -/
  | cell
  /-- The descriptor of a container type. -/
  | container
  /-- Another object. -/
  | other
  deriving DecidableEq, Repr

/-- What the name of a symbol says. -/
def AddressKind.ofSymbol (symbol : Text) : AddressKind :=
  if Text.occurs "jl_global" (Name.bare symbol) then .cell
  else if Text.occurs "GenericMemory" (Name.bare symbol) then .container
  else .other

namespace AddressTable

/-- The table for a kind of address. -/
def tableOf (t : AddressTable) : AddressKind → Std.ExtTreeMap UInt64 Text
  | .cell => t.cells
  | .container => t.containers
  | .other => t.others

/-- The symbol is one of a kind and stands for the address. -/
def isAt (k : AddressKind) (a : UInt64) (x : Text × UInt64) : Bool :=
  AddressKind.ofSymbol x.1 == k && x.2 == a

/-- An entry goes to the table of its symbol. -/
theorem tableOf_enter (t : AddressTable) (symbol : Text) (a : UInt64) (k : AddressKind) :
    (t.enter symbol a).tableOf k =
      if AddressKind.ofSymbol symbol = k then (t.tableOf k).insertIfNew a symbol else t.tableOf k := by
  unfold enter AddressKind.ofSymbol
  dsimp only
  split
  · cases k <;> rfl
  · split
    · cases k <;> rfl
    · cases k <;> rfl

/-- **An entry** changes one place of one table, and only if that is free. -/
theorem getElem?_enter (t : AddressTable) (x : Text × UInt64) (k : AddressKind) (a : UInt64) :
    ((t.enter x.1 x.2).tableOf k)[a]? = ((t.tableOf k)[a]?).or (if isAt k a x then some x.1 else none) := by
  rw [tableOf_enter, isAt]
  by_cases hk : AddressKind.ofSymbol x.1 = k
  · rw [if_pos hk, Std.ExtTreeMap.getElem?_insertIfNew, beq_iff_eq.mpr hk, Bool.true_and]
    by_cases ha : x.2 = a
    · subst ha
      rw [beq_self_eq_true, if_pos rfl]
      cases hentry : (t.tableOf k)[x.2]? with
      | none =>
        have hnot : x.2 ∉ t.tableOf k := by
          intro hmem
          obtain ⟨symbol, hsymbol⟩ := Std.ExtTreeMap.mem_iff_exists.mp hmem
          rw [hentry] at hsymbol
          cases hsymbol
        rw [if_pos ⟨Std.ReflCmp.compare_self, hnot⟩]
        rfl
      | some symbol =>
        have hmem : x.2 ∈ t.tableOf k := Std.ExtTreeMap.mem_iff_exists.mpr ⟨symbol, hentry⟩
        rw [if_neg fun h => h.2 hmem]
        rfl
    · rw [beq_eq_false_iff_ne.mpr ha, if_neg fun h => ha (Std.LawfulEqOrd.eq_of_compare h.1),
        if_neg Bool.false_ne_true, Option.or_none]
  · rw [if_neg hk, beq_eq_false_iff_ne.mpr hk, Bool.false_and, if_neg Bool.false_ne_true, Option.or_none]

/-- **All entries**: at each place there is what was there, or else the first symbol for it. -/
theorem getElem?_foldl_enter (entries : List (Text × UInt64)) (t : AddressTable) (k : AddressKind) (a : UInt64) :
    ((entries.foldl (fun t x => t.enter x.1 x.2) t).tableOf k)[a]? =
      ((t.tableOf k)[a]?).or ((entries.find? (isAt k a)).map Prod.fst) := by
  induction entries generalizing t with
  | nil => rw [List.foldl_nil, List.find?_nil, Option.map_none, Option.or_none]
  | cons x entries ih =>
    rw [List.foldl_cons, ih, getElem?_enter, Option.or_assoc, List.find?_cons]
    cases isAt k a x <;> rfl

end AddressTable

/-! ### Lines -/

/-- The integers that are cast to pointers in a text, in order. -/
def Line.casts (t : Text) : List Text :=
  t.tails.filterMap castLiteralAt?

theorem Line.castLiteral?_eq_head? (t : Text) : castLiteral? t = (casts t).head? := by
  unfold castLiteral? casts
  induction t with
  | nil =>
    show castLiteralAt? [] = ([[]].filterMap castLiteralAt?).head?
    rw [List.filterMap_cons]
    cases castLiteralAt? [] <;> rfl
  | cons c t ih =>
    rw [Text.first?, List.tails_cons, List.filterMap_cons]
    cases castLiteralAt? (c :: t) with
    | none => exact ih
    | some digits => rfl

/-- The symbol that a line makes stand for an address, and the address: the first integer that is cast to
a pointer on its right-hand side. -/
def TopLevel.alias? (line : Text) : Option (Text × UInt64) :=
  (assignment? line).bind fun x => ((Line.casts x.2).head?.bind Text.toWord?).map (x.1, ·)

/-- A line that is kept for an address is such a line, and the other way round. -/
theorem TopLevel.address?_ofTrimmed? (line : Text) : (ofTrimmed? line).bind address? = alias? line := by
  cases hassign : assignment? line with
  | some x =>
    rw [ofTrimmed?_of_assignment hassign, alias?, hassign, Option.bind_some, ← Line.castLiteral?_eq_head?]
    show _ = (Line.address? x.2).map (x.1, ·)
    cases Line.address? x.2 with
    | none => rfl
    | some a => rfl
  | none =>
    -- every other kind of line is kept as something else
    rw [alias?, hassign, ofTrimmed?, hassign]
    split
    · rfl
    · split
      · rfl
      · split
        · cases Definition.nameIn? line with
          | none => rfl
          | some symbol =>
            show (if isService (Name.bare symbol) then none else some (declaration symbol line)).bind address? = none
            split <;> rfl
        · split
          · rfl
          · split <;> rfl

namespace Listing

variable {target : Target} {dump : Text} {l : Listing}

/-- The symbols of a dump that stand for addresses, with these, in the order of their lines. -/
def aliases (target : Target) (dump : Text) : List (Text × UInt64) :=
  (outside target dump).filterMap TopLevel.alias?

/-- What is known of the symbols that stand for addresses. -/
structure Addressed (target : Target) (dump : Text) (l : Listing) : Prop where
  /-- For each address a table has the first symbol of its kind that stands for it. -/
  first : ∀ k a, (l.addresses.tableOf k)[a]? =
    ((aliases target dump).find? (AddressTable.isAt k a)).map Prod.fst
  /-- So a symbol is recorded with its address unless one of the same kind and another name came before. -/
  recorded_iff : ∀ before s a after, aliases target dump = before ++ (s, a) :: after →
    ((l.addresses.tableOf (.ofSymbol s))[a]? = some s ↔
      ∀ x ∈ before.find? (AddressTable.isAt (.ofSymbol s) a), x.1 = s)
  /-- The first cast of a line decides: if its integer has more than 64 bits, the line is a constant, whatever
  other casts it has. -/
  cast : ∀ line ∈ outside target dump, ∀ s value digits more, TopLevel.assignment? line = some (s, value) →
    Line.casts value = digits :: more →
    match Text.toWord? digits with
    | some a => (s, a) ∈ aliases target dump
    | none => TopLevel.constant s line ∈ keptLines target dump
  /-- Later stages find the symbols that are recorded, and no others. -/
  mem_values_iff : ∀ k s, s ∈ (l.addresses.tableOf k).values ↔
    ∃ a, (aliases target dump).find? (AddressTable.isAt k a) = some (s, a)
  /-- Code that mentions an object that is recorded is reported. -/
  reported : ∀ s ∈ l.addresses.others.values, s ∈ l.bodies.flatMap Token.globals → l.residue? ≠ none

private theorem filterMap_address?_keptLines (target : Target) (dump : Text) :
    (keptLines target dump).filterMap TopLevel.address? = aliases target dump := by
  rw [keptLines, List.filterMap_filterMap, aliases]
  exact congrArg (List.filterMap · (outside target dump)) (funext TopLevel.address?_ofTrimmed?)

/-- The first symbols are in the tables. -/
theorem getElem?_addresses (h : ofDump target dump = .ok l) (k : AddressKind) (a : UInt64) :
    (l.addresses.tableOf k)[a]? = ((aliases target dump).find? (AddressTable.isAt k a)).map Prod.fst := by
  obtain ⟨own, helpers, rfl, -⟩ := ofDump_eq h
  have hempty : ((({} : AddressTable).tableOf k)[a]?) = none := by
    cases k <;> exact Std.ExtTreeMap.getElem?_empty
  have htable := AddressTable.getElem?_foldl_enter (aliases target dump) {} k a
  rw [hempty, Option.none_or, ← filterMap_address?_keptLines] at htable
  rw [← filterMap_address?_keptLines]
  exact htable

/-- **The tables that are taken from a dump.** -/
theorem ofDump_addresses (h : ofDump target dump = .ok l) : Addressed target dump l where
  first := getElem?_addresses h
  recorded_iff before s a after he := by
    have hat : AddressTable.isAt (.ofSymbol s) a (s, a) := by
      rw [AddressTable.isAt, beq_self_eq_true, beq_self_eq_true]
      rfl
    rw [getElem?_addresses h, he, List.find?_append, List.find?_cons_of_pos hat]
    cases before.find? (AddressTable.isAt (.ofSymbol s) a) with
    | none => simp
    | some x => simp
  cast line hline s value digits more hassign hcasts := by
    have hword : Line.address? value = Text.toWord? digits := by
      rw [Line.address?, Line.castLiteral?_eq_head?, hcasts]
      rfl
    split
    · next a ha =>
      refine List.mem_filterMap.mpr ⟨line, hline, ?_⟩
      rw [TopLevel.alias?, hassign, Option.bind_some, hcasts, List.head?_cons, Option.bind_some, ha]
      rfl
    · next hnone =>
      refine List.mem_filterMap.mpr ⟨line, hline, ?_⟩
      rw [TopLevel.ofTrimmed?_of_assignment hassign, hword, hnone]
  mem_values_iff k s := by
    constructor
    · intro hs
      obtain ⟨a, ha⟩ := Std.ExtTreeMap.exists_getElem?_of_mem_values hs
      rw [getElem?_addresses h, Option.map_eq_some_iff] at ha
      obtain ⟨⟨s', b⟩, hfind, rfl⟩ := ha
      have hat := List.find?_some hfind
      rw [AddressTable.isAt, Bool.and_eq_true, beq_iff_eq, beq_iff_eq] at hat
      exact ⟨a, by rw [hfind, ← hat.2]⟩
    · intro ⟨a, ha⟩
      refine Std.ExtTreeMap.mem_values_of_getElem? (a := a) ?_
      rw [getElem?_addresses h, ha]
      rfl
  reported s hs hcode := by
    intro hnone
    rw [residue?, Option.or_eq_none_iff, Option.or_eq_none_iff, Option.map_eq_none_iff,
      List.find?_eq_none] at hnone
    exact hnone.2.2 s hcode (List.contains_iff_mem.mpr hs)

/-- Four symbols that stand for one address: a cell, a container type, and two other objects.  The code
mentions the last of them. -/
def twinDump : Text :=
  "@\"jl_global#1\" = constant ptr inttoptr (i64 8 to ptr)\n" ++
  "@\"GenericMemory#2\" = constant ptr inttoptr (i64 8 to ptr)\n" ++
  "@a = constant ptr inttoptr (i64 8 to ptr)\n" ++
  "@b = constant ptr inttoptr (i64 8 to ptr)\n" ++
  "define ptr @julia_f_1() \x7b\n  ret ptr @b\n\x7d\n"

/-- The function that is taken from it. -/
def twinTarget : Target where
  name := "f"
  external := "Main_f"

/-- Its definition. -/
def twinDefinition : Definition where
  name := "@julia_f_1"
  header := "define ptr @julia_f_1() \x7b"
  body := "\n  ret ptr @b\n"
  start := 196
  stop := 236

/-- Its listing. -/
def twinListing : Listing :=
  ofParts twinTarget twinDefinition []
    [.address "@\"jl_global#1\"" 8, .address "@\"GenericMemory#2\"" 8, .address "@a" 8, .address "@b" 8] twinDump

theorem ofDump_twinDump : ofDump twinTarget twinDump = .ok twinListing := by
  obtain ⟨hall, hself, hlines⟩ : Definition.all twinTarget.name twinDump = .ok [twinDefinition] ∧
      selfFirst? twinTarget.name [twinDefinition] = some (twinDefinition, []) ∧
      topLevels twinDump [twinDefinition] = [.address "@\"jl_global#1\"" 8,
        .address "@\"GenericMemory#2\"" 8, .address "@a" 8, .address "@b" 8] := by
    unfold twinDump twinDefinition
    repeat rw [Text.toList_literal]
    decide +kernel
  rw [ofDump_eq_ok hall hself, hlines, twinListing]

/-- Symbols of different kinds do not get in each other's way. -/
theorem ofDump_addresses_twinDump : ofDump twinTarget twinDump = .ok twinListing ∧
    Addressed twinTarget twinDump twinListing :=
  ⟨ofDump_twinDump, ofDump_addresses ofDump_twinDump⟩

/-- The last symbol is forgotten: no table has it, and the code that mentions it is not reported. -/
theorem twinDump_forgets : ofDump twinTarget twinDump = .ok twinListing ∧
    ("@b".toList, 8) ∈ aliases twinTarget twinDump ∧ "@b".toList ∈ twinListing.bodies.flatMap Token.globals ∧
    twinListing.addresses.others[(8 : UInt64)]? = some "@a".toList ∧
    (∀ k ∈ [AddressKind.cell, .container, .other], "@b".toList ∉ (twinListing.addresses.tableOf k).values) ∧
    twinListing.residue? = none := by
  refine ⟨ofDump_twinDump, ?_⟩
  decide +kernel

end Listing

end Freestanding
