import Freestanding.Proofs.Listing.Slices

/-!
# Constants that come to have one name

An entry of the constant pool gets a new symbol, made from the name of the function and the number of the
entry; the other constants keep their symbols.  The table of a listing has one line under each symbol.

The new symbol forgets how the number was set off: `_j_const1`, `_j_const#1` and `_j_const_1` are three
names, and all become one.  Nor is it checked whether another constant has the new symbol already.  Where two
constants come to have one symbol, the table has the line of the later one.  The code mentions both of them
by that symbol.

## Main definitions

* `Target.newSymbol` — the symbol of a constant in a listing.
* `Target.Clash` — constants that come to have one symbol, said by their names in the dump.
* `Listing.OneEach` — every constant of a dump has an entry of its own.
* `Listing.ConstantTable` — what a listing has of the constants of a dump.

## Main results

* `Target.newSymbol_eq_iff` — **two constants come to have one symbol if they clash.**
* `Listing.ofDump_constantTable` — **the constants that are taken from a dump.**
* `Listing.clashingDump_loses` — two constants are lost.
-/

namespace Freestanding

open CompiledName TopLevel

namespace Target

variable {t : Target} {own s s' : Text}

/-- The symbol that a constant has in the listing of a function which is called `own` in the dump. -/
def newSymbol (t : Target) (own s : Text) : Text :=
  if s = own then t.symbol else (t.poolSymbol? s).getD s

/-- Two constants come to have one symbol. -/
inductive Clash (t : Target) (own s s' : Text) : Prop
  /-- They are entries of the constant pool with the same number. -/
  | entries (n : Text) (h : poolCounter? (Name.bare s) = some n) (h' : poolCounter? (Name.bare s') = some n)
  /-- One is an entry of the constant pool, and the other has the symbol that the entry gets. -/
  | entry (n : Text) (h : poolCounter? (Name.bare s) = some n) (h' : s' = Name.symbol (t.poolName n))
  /-- One has the symbol of the function, and the other gets the output symbol of the function. -/
  | function (h : s = own) (h' : (t.poolSymbol? s').getD s' = t.symbol)

/-- The new symbol of an entry of the constant pool tells its number. -/
theorem eq_of_symbol_poolName {n m : Text} (hn : ∀ c ∈ n, Text.isDecimal c) (hm : ∀ c ∈ m, Text.isDecimal c)
    (h : Name.symbol (t.poolName n) = Name.symbol (t.poolName m)) : n = m := by
  have hname : t.poolName n = t.poolName m := by
    rw [← (t.spells_poolName hn).2.bare_eq, h, (t.spells_poolName hm).2.bare_eq]
  rw [poolName, poolName] at hname
  split at hname
  · exact List.append_cancel_left hname
  · exact List.append_cancel_left hname

theorem getD_poolSymbol?_of_some {n : Text} (h : poolCounter? (Name.bare s) = some n) :
    (t.poolSymbol? s).getD s = Name.symbol (t.poolName n) := by
  rw [poolSymbol?, h]
  rfl

theorem getD_poolSymbol?_of_none (h : poolCounter? (Name.bare s) = none) : (t.poolSymbol? s).getD s = s := by
  rw [poolSymbol?, h]
  rfl

/-- A constant that has the new symbol of an entry keeps it. -/
theorem getD_poolSymbol?_symbol_poolName {n : Text} (hn : ∀ c ∈ n, Text.isDecimal c) :
    (t.poolSymbol? (Name.symbol (t.poolName n))).getD (Name.symbol (t.poolName n)) =
      Name.symbol (t.poolName n) := by
  refine getD_poolSymbol?_of_none ?_
  rw [(t.spells_poolName hn).2.bare_eq, t.poolCounter?_poolName]

theorem isDecimal_of_poolCounter? {name n : Text} (h : poolCounter? name = some n) :
    ∀ c ∈ n, Text.isDecimal c := by
  obtain ⟨-, -, -, hdigits⟩ := eq_of_poolCounter? h
  exact hdigits

/-- A compiled name is not the new name of an entry of the constant pool. -/
theorem ne_symbol_poolName_of_isCompiled (hown : IsCompiled own) {n : Text} (hn : ∀ c ∈ n, Text.isDecimal c) :
    own ≠ Name.symbol (t.poolName n) := by
  rintro rfl
  obtain ⟨stem, -, -, digits, -, hbare, -⟩ := hown
  obtain ⟨middle, hname, -⟩ := t.exists_poolName_eq n
  rw [(t.spells_poolName hn).2.bare_eq, hname] at hbare
  exact absurd (List.cons.inj hbare).1 (by decide)

theorem Clash.newSymbol_eq (hown : IsCompiled own) (hne : s ≠ s') (h : t.Clash own s s') :
    t.newSymbol own s = t.newSymbol own s' := by
  -- an entry of the constant pool is not the function
  have hentry : ∀ {u n : Text}, poolCounter? (Name.bare u) = some n →
      t.newSymbol own u = Name.symbol (t.poolName n) := by
    intro u n hn
    rw [newSymbol, if_neg, getD_poolSymbol?_of_some hn]
    rintro rfl
    have hnone : t.poolSymbol? u = none := Listing.poolSymbol?_eq_none_of_isCompiled hown
    rw [poolSymbol?, hn] at hnone
    cases hnone
  cases h with
  | entries n hs hs' => rw [hentry hs, hentry hs']
  | entry n hs hs' =>
    have hdigits := isDecimal_of_poolCounter? hs
    subst hs'
    rw [hentry hs, newSymbol, if_neg, getD_poolSymbol?_symbol_poolName hdigits]
    exact Ne.symm (ne_symbol_poolName_of_isCompiled hown hdigits)
  | function hs hs' =>
    subst hs
    rw [newSymbol, if_pos rfl, newSymbol, if_neg (Ne.symm hne), hs']

/-- **Two constants come to have one symbol if they clash.** -/
theorem newSymbol_eq_iff (hown : IsCompiled own) (hne : s ≠ s') :
    t.newSymbol own s = t.newSymbol own s' ↔ t.Clash own s s' ∨ t.Clash own s' s := by
  constructor
  · intro h
    by_cases hs : s = own
    · subst hs
      rw [newSymbol, if_pos rfl, newSymbol, if_neg (Ne.symm hne)] at h
      exact .inl (.function rfl h.symm)
    by_cases hs' : s' = own
    · subst hs'
      rw [newSymbol, if_neg hne, newSymbol, if_pos rfl] at h
      exact .inr (.function rfl h)
    rw [newSymbol, if_neg hs, newSymbol, if_neg hs'] at h
    -- each of the two is an entry of the constant pool or not
    cases hn : poolCounter? (Name.bare s) with
    | none =>
      cases hm : poolCounter? (Name.bare s') with
      | none => exact absurd (by rwa [getD_poolSymbol?_of_none hn, getD_poolSymbol?_of_none hm] at h) hne
      | some m =>
        rw [getD_poolSymbol?_of_none hn, getD_poolSymbol?_of_some hm] at h
        exact .inr (.entry m hm h)
    | some n =>
      cases hm : poolCounter? (Name.bare s') with
      | none =>
        rw [getD_poolSymbol?_of_some hn, getD_poolSymbol?_of_none hm] at h
        exact .inl (.entry n hn h.symm)
      | some m =>
        rw [getD_poolSymbol?_of_some hn, getD_poolSymbol?_of_some hm] at h
        obtain rfl := eq_of_symbol_poolName (isDecimal_of_poolCounter? hn) (isDecimal_of_poolCounter? hm) h
        exact .inl (.entries n hn hm)
  · rintro (h | h)
    · exact h.newSymbol_eq hown hne
    · exact (h.newSymbol_eq hown (Ne.symm hne)).symm

end Target

namespace Listing

variable {target : Target} {dump : Text} {l : Listing}

/-- The constants of a dump and their lines, in order. -/
def constantLines (target : Target) (dump : Text) : List (Text × Text) :=
  (keptLines target dump).filterMap TopLevel.constant?

/-- The symbol of the function in the dump. -/
def ownSymbol (target : Target) (dump : Text) : Text :=
  ((keptDefinitions target dump).head?.map Definition.name).getD []

/-- The symbol of a constant of the dump in the listing. -/
def constantSymbol (target : Target) (dump s : Text) : Text :=
  target.newSymbol (ownSymbol target dump) s

/-- Every constant of the dump has an entry of its own, and there are no other entries. -/
structure OneEach (target : Target) (dump : Text) (l : Listing) : Prop where
  /-- Different constants have different symbols. -/
  apart : ∀ x ∈ constantLines target dump, ∀ y ∈ constantLines target dump,
    constantSymbol target dump x.1 = constantSymbol target dump y.1 → x.1 = y.1
  /-- Each constant has its line, with the new symbols. -/
  entry : ∀ x ∈ constantLines target dump,
    l.constants[constantSymbol target dump x.1]? = some (x.2.rename (dumpRenaming target dump))
  /-- Each entry is that of a constant. -/
  only : ∀ k ∈ l.constants, ∃ x ∈ constantLines target dump, constantSymbol target dump x.1 = k

/-- What a listing has of the constants of a dump. -/
structure ConstantTable (target : Target) (dump : Text) (l : Listing) : Prop where
  /-- The function and the constants get their new symbols, and all other symbols stay. -/
  apply_eq : ∀ s, (dumpRenaming target dump).apply s =
    if s = ownSymbol target dump ∨ s ∈ (constantLines target dump).map Prod.fst then constantSymbol target dump s
    else s
  /-- Under each symbol the table has the last line of a constant that gets it. -/
  getElem?_eq : ∀ k, l.constants[k]? =
    ((constantLines target dump).reverse.find? fun x => constantSymbol target dump x.1 = k).map
      fun x => x.2.rename (dumpRenaming target dump)
  /-- The code is that of the dump with the new symbols, -/
  bodies_eq : l.bodies = (keptDefinitions target dump).map fun d => d.body.rename (dumpRenaming target dump)
  /-- so where it mentioned a constant, it mentions the new symbol. -/
  mention : ∀ d ∈ keptDefinitions target dump, ∀ x ∈ constantLines target dump, ∀ front behind,
    Token.segments '@' d.body = front ++ .token x.1 :: behind →
    d.body.rename (dumpRenaming target dump) = front.flatMap (dumpRenaming target dump).segment ++
      (constantSymbol target dump x.1 ++ behind.flatMap (dumpRenaming target dump).segment)
  /-- No constant is lost if no two constants clash, and only then. -/
  oneEach_iff : OneEach target dump l ↔ ∀ x ∈ constantLines target dump, ∀ y ∈ constantLines target dump,
    x.1 ≠ y.1 → ¬ target.Clash (ownSymbol target dump) x.1 y.1

/-! ### The new symbols of a dump -/

theorem exists_keptDefinitions_eq (h : ofDump target dump = .ok l) :
    ∃ own helpers, keptDefinitions target dump = own :: helpers ∧ ownSymbol target dump = own.name ∧
      IsCompiled own.name ∧ dumpRenaming target dump = renamesFor target own.name (constantLines target dump) ∧
      l = ofParts target own helpers (keptLines target dump) dump := by
  obtain ⟨own, helpers, -, hself, hl⟩ := exists_selfFirst?_of_ofDump h
  obtain ⟨-, -, -, -, hof, -⟩ := exists_of_selfFirst? hself
  have hkept : keptDefinitions target dump = own :: helpers := by rw [keptDefinitions, hself]
  refine ⟨own, helpers, hkept, ?_, ⟨target.name, hof⟩, ?_, hl⟩
  · rw [ownSymbol, hkept]
    rfl
  · rw [dumpRenaming, hself]
    rfl

theorem isCompiled_ownSymbol (h : ofDump target dump = .ok l) : IsCompiled (ownSymbol target dump) := by
  obtain ⟨own, -, -, hown, hcompiled, -⟩ := exists_keptDefinitions_eq h
  rwa [hown]

theorem apply_dumpRenaming (h : ofDump target dump = .ok l) (s : Text) : (dumpRenaming target dump).apply s =
    if s = ownSymbol target dump ∨ s ∈ (constantLines target dump).map Prod.fst then constantSymbol target dump s
    else s := by
  obtain ⟨own, helpers, -, hown, hcompiled, hr, -⟩ := exists_keptDefinitions_eq h
  rw [hr, constantSymbol, hown, Target.newSymbol]
  by_cases hs : s = own.name
  · rw [if_pos (.inl hs), if_pos hs, hs, apply_renamesFor_own (poolSymbol?_eq_none_of_isCompiled hcompiled)]
  · by_cases hmem : s ∈ (constantLines target dump).map Prod.fst
    · obtain ⟨⟨symbol, line⟩, hx, rfl⟩ := List.mem_map.mp hmem
      rw [if_pos (.inr hmem), if_neg hs, apply_renamesFor_of_mem hs hx]
    · rw [if_neg (by rintro (he | he) <;> contradiction)]
      exact apply_renamesFor_of_notMem hs fun line hline => hmem (List.mem_map_of_mem hline)

theorem apply_dumpRenaming_of_mem (h : ofDump target dump = .ok l) {x : Text × Text}
    (hx : x ∈ constantLines target dump) :
    (dumpRenaming target dump).apply x.1 = constantSymbol target dump x.1 := by
  rw [apply_dumpRenaming h, if_pos (.inr (List.mem_map_of_mem hx))]

/-! ### The table -/

theorem getElem?_constants_ofDump (h : ofDump target dump = .ok l) (k : Text) : l.constants[k]? =
    ((constantLines target dump).reverse.find? fun x => constantSymbol target dump x.1 = k).map
      fun x => x.2.rename (dumpRenaming target dump) := by
  have hfind : ((constantLines target dump).reverse.find? fun x => (dumpRenaming target dump).apply x.1 = k) =
      (constantLines target dump).reverse.find? fun x => constantSymbol target dump x.1 = k := by
    rw [← List.head?_filter, ← List.head?_filter]
    refine congrArg List.head? (List.filter_congr fun x hx => ?_)
    rw [apply_dumpRenaming_of_mem h (List.mem_reverse.mp hx)]
  obtain ⟨own, helpers, -, -, -, hr, rfl⟩ := exists_keptDefinitions_eq h
  rw [← hfind, hr]
  refine (Std.ExtTreeMap.getElem?_foldl_insert _ _ _ ∅ k).trans ?_
  rw [Std.ExtTreeMap.getElem?_empty, Option.or_none]
  rfl

theorem bodies_ofDump (h : ofDump target dump = .ok l) :
    l.bodies = (keptDefinitions target dump).map fun d => d.body.rename (dumpRenaming target dump) := by
  obtain ⟨own, helpers, hkept, -, -, hr, rfl⟩ := exists_keptDefinitions_eq h
  rw [hkept, hr]
  exact List.map_map

/-- The constant that is found under a symbol is one of the dump that gets it. -/
theorem mem_of_find?_constantLines {k : Text} {x : Text × Text}
    (h : ((constantLines target dump).reverse.find? fun x => constantSymbol target dump x.1 = k) = some x) :
    x ∈ constantLines target dump ∧ constantSymbol target dump x.1 = k :=
  ⟨List.mem_reverse.mp (List.mem_of_find?_eq_some h), by simpa using List.find?_some h⟩

/-- Constants that do not clash are all kept. -/
theorem oneEach_of_not_clash (h : ofDump target dump = .ok l)
    (hd : ((constantLines target dump).map Prod.fst).Nodup)
    (hclash : ∀ x ∈ constantLines target dump, ∀ y ∈ constantLines target dump, x.1 ≠ y.1 →
      ¬ target.Clash (ownSymbol target dump) x.1 y.1) : OneEach target dump l := by
  have hapart : ∀ x ∈ constantLines target dump, ∀ y ∈ constantLines target dump,
      constantSymbol target dump x.1 = constantSymbol target dump y.1 → x.1 = y.1 := by
    intro x hx y hy heq
    by_contra hne
    rcases (Target.newSymbol_eq_iff (isCompiled_ownSymbol h) hne).mp heq with hc | hc
    · exact hclash x hx y hy hne hc
    · exact hclash y hy x hx (Ne.symm hne) hc
  refine ⟨hapart, fun x hx => ?_, fun k hk => ?_⟩
  · -- the last constant with this symbol is the only one
    rw [getElem?_constants_ofDump h]
    cases hfind : (constantLines target dump).reverse.find?
        fun y => constantSymbol target dump y.1 = constantSymbol target dump x.1 with
    | none => exact absurd (List.find?_eq_none.mp hfind x (List.mem_reverse.mpr hx)) (by simp)
    | some y =>
      obtain ⟨hy, hsymbol⟩ := mem_of_find?_constantLines hfind
      rw [List.inj_on_of_nodup_map hd hy hx (hapart y hy x hx hsymbol)]
      rfl
  · obtain ⟨line, hline⟩ := Std.ExtTreeMap.mem_iff_exists.mp hk
    rw [getElem?_constants_ofDump h, Option.map_eq_some_iff] at hline
    obtain ⟨x, hfind, -⟩ := hline
    exact ⟨x, mem_of_find?_constantLines hfind⟩

/-- **The constants that are taken from a dump** in which no constant has two lines. -/
theorem ofDump_constantTable (h : ofDump target dump = .ok l)
    (hd : ((constantLines target dump).map Prod.fst).Nodup) : ConstantTable target dump l where
  apply_eq := apply_dumpRenaming h
  getElem?_eq := getElem?_constants_ofDump h
  bodies_eq := bodies_ofDump h
  mention d _ x hx front behind he := by
    rw [Text.rename, he, List.flatMap_append, List.flatMap_cons, ← apply_dumpRenaming_of_mem h hx]
    rfl
  oneEach_iff := by
    constructor
    · intro hone x hx y hy hne hclash
      exact hne (hone.apart x hx y hy (hclash.newSymbol_eq (isCompiled_ownSymbol h) hne))
    · exact oneEach_of_not_clash h hd

/-! ### A dump with constants that clash -/

/-- Two entries of the constant pool with one number, another entry and a constant that has its new symbol, and
an entry that clashes with none. -/
def clashingConstants : List (Text × Text) := [
  ("@_j_const1", "@_j_const1 = constant i8 5"),
  ("@\"_j_const#1\"", "@\"_j_const#1\" = constant i8 6"),
  ("@_j_const_2", "@_j_const_2 = constant i8 7"),
  ("@_j_const_f_2", "@_j_const_f_2 = constant i8 8"),
  ("@\"_j_const#3\"", "@\"_j_const#3\" = constant ptr @_j_const1")]

/-- The code that mentions them. -/
def clashingCode : List Text := [
  "  %p = call ptr @g(ptr @_j_const1, ptr @\"_j_const#1\", ptr @_j_const_2, ptr @_j_const_f_2)",
  "  ret ptr @\"_j_const#3\""]

/-- The lines of the dump. -/
def clashingLines : List Text :=
  clashingConstants.map Prod.snd ++ (["define ptr @julia_f_1() \x7b"] : List Text) ++ clashingCode ++
    (["\x7d", ""] : List Text)

/-- The dump. -/
def clashingDump : Text :=
  Text.unlines clashingLines

/-- The function that is taken from it. -/
def clashingTarget : Target where
  name := "f"
  external := "Main_f"

/-- Its definition. -/
def clashingDefinition : Definition where
  name := "@julia_f_1"
  header := "define ptr @julia_f_1() \x7b"
  body := '\n' :: (Text.unlines clashingCode ++ ['\n'])
  start := 155
  stop := 296

/-- Its listing. -/
def clashingListing : Listing :=
  ofParts clashingTarget clashingDefinition [] (clashingConstants.map fun x => .constant x.1 x.2) clashingDump

theorem ofDump_clashingDump : ofDump clashingTarget clashingDump = .ok clashingListing ∧
    constantLines clashingTarget clashingDump = clashingConstants := by
  have hplaced : Definition.placedLines clashingDump = Definition.placed 0 clashingLines :=
    Definition.placedLines_unlines (by decide +kernel) (by simp [clashingLines])
  have hread : Definition.all clashingTarget.name clashingDump = .ok [clashingDefinition] ∧
      topLevels clashingDump [clashingDefinition] = clashingConstants.map fun x => .constant x.1 x.2 := by
    rw [Definition.all, topLevels, hplaced]
    unfold clashingLines clashingDefinition clashingCode clashingConstants
    repeat rw [Text.toList_literal]
    decide +kernel
  obtain ⟨hall, hlines⟩ := hread
  have hself : selfFirst? clashingTarget.name [clashingDefinition] = some (clashingDefinition, []) := rfl
  have hdefs : definitionsOf clashingTarget clashingDump = [clashingDefinition] := by rw [definitionsOf, hall]
  constructor
  · rw [ofDump_eq_ok hall hself, hlines, clashingListing]
  · rw [constantLines, ← topLevels_eq_keptLines, hdefs, hlines, List.filterMap_map]
    exact List.filterMap_some

theorem nodup_clashingDump : ((constantLines clashingTarget clashingDump).map Prod.fst).Nodup := by
  rw [ofDump_clashingDump.2]
  unfold clashingConstants
  repeat rw [Text.toList_literal]
  decide +kernel

/-- The entry that clashes with no other constant is kept, and its line mentions another one. -/
theorem ofDump_constantTable_clashingDump : ofDump clashingTarget clashingDump = .ok clashingListing ∧
    ((constantLines clashingTarget clashingDump).map Prod.fst).Nodup ∧
    clashingListing.constants["@_j_const_f_3".toList]? =
      some "@_j_const_f_3 = constant ptr @_j_const_f_1".toList ∧
    ConstantTable clashingTarget clashingDump clashingListing :=
  ⟨ofDump_clashingDump.1, nodup_clashingDump, by decide +kernel,
    ofDump_constantTable ofDump_clashingDump.1 nodup_clashingDump⟩

/-- The five constants have three entries: two of them are lost, and the code mentions others in their place. -/
theorem clashingDump_loses : ofDump clashingTarget clashingDump = .ok clashingListing ∧
    constantLines clashingTarget clashingDump = clashingConstants ∧
    ((constantLines clashingTarget clashingDump).map Prod.fst).Nodup ∧
    clashingListing.constants.values = [
      "@_j_const_f_1 = constant i8 6", "@_j_const_f_2 = constant i8 8",
      "@_j_const_f_3 = constant ptr @_j_const_f_1"] ∧
    clashingListing.bodies.flatMap Token.globals = (["@g", "@_j_const_f_1", "@_j_const_f_1", "@_j_const_f_2",
      "@_j_const_f_2", "@_j_const_f_3"] : List Text) :=
  ⟨ofDump_clashingDump.1, ofDump_clashingDump.2, nodup_clashingDump, by decide +kernel⟩

end Listing

end Freestanding
