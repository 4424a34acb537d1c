import Freestanding.Proofs.Binding.Origin
import Freestanding.Proofs.Program.Resolution
import Freestanding.Proofs.Scope.Mangling

/-!
# Variables that share a symbol

Two variables of a program are meant to have different symbols.  Those made up from memory are numbered,
and the number of one is never that of another in the same scope.  Beyond that nothing is done: the name
of a cell is put into the output as it is, sanitised.  So two variables share a symbol if their qualified
names have the same words, and the numbers keep apart only what was made up in one scope.

## Main definitions

* `Linker.Numbered` — the numbering of made-up variables, as an invariant of linking.
* `Program.Separate` — different addresses have different symbols.
* `Program.Tidy` — all names are single words, and no qualified name occurs twice.

## Main results

* `Linker.Numbered.resolveCell`, `Linker.Numbered.linkAll` — one lookup, and a whole run.
* `Program.link_symbols` — **which variables share a symbol.**
* `Program.pairFunctions_not_separate` — two cells, and a cell and a string, that do.
-/

namespace Freestanding

open Binding

/-! ### Numbers -/

theorem Binding.madeUpName_injective : Function.Injective madeUpName := by
  intro m n h
  exact CallGraph.decimal_injective (List.append_cancel_left h)

theorem Binding.words_madeUpName (number : Nat) :
    Name.words (madeUpName number) = [[], "global", Text.decimal number] := by
  have hdecimal : Name.words (Text.decimal number) = [Text.decimal number] := by
    refine Name.words_eq_singleton fun c hc => ?_
    have hdigit := Nat.isDigit_of_mem_toDigits (by decide) (by decide) hc
    simp [Name.isWordChar, Char.isAlphanum, hdigit]
  have hsplit : madeUpName number = "_global" ++ '_' :: Text.decimal number := rfl
  rw [hsplit, Name.words, List.splitOnP_append_cons _ _ (by decide), ← Name.words, ← Name.words,
    hdecimal]
  rfl

namespace Linker

variable {root : Scope} {heap : HeapImage} {scopes : List ScopePath}

/-- The variables between two lookups: those of the scan and others, each with an origin.  Of the others
no two of one scope have the same number, and none has a number beyond that of its scope. -/
structure Numbered (root : Scope) (heap : HeapImage) (scopes : List ScopePath) (known : Bindings)
    (counters : Counters) : Prop where
  /-- The variables of the scan are there. -/
  keep : ∀ (a : UInt64) (b : Binding), root.scan.value.bindings[a]? = some b → known[a]? = some b
  /-- Each variable has an origin. -/
  origin : ∀ (a : UInt64) (b : Binding), known[a]? = some b → Origin root heap scopes a b
  /-- A made-up variable has a number that its scope has given. -/
  number : ∀ (a : UInt64) (b : Binding), known[a]? = some b → root.scan.value.bindings[a]? = none →
    ∃ n ≤ counters.getD b.owner 0, b.identifier = madeUpName n
  /-- A scope gives a number once. -/
  once : ∀ (a a' : UInt64) (b b' : Binding), known[a]? = some b → known[a']? = some b' →
    root.scan.value.bindings[a]? = none → root.scan.value.bindings[a']? = none →
    b.owner = b'.owner → b.identifier = b'.identifier → a = a'

namespace Numbered

/-- The next number of a scope is beyond all that it has given. -/
theorem fresh {known : Bindings} {counters : Counters} (h : Numbered root heap scopes known counters)
    {a : UInt64} {b : Binding} (hb : known[a]? = some b) (hs : root.scan.value.bindings[a]? = none) :
    b.identifier ≠ madeUpName (counters.getD b.owner 0 + 1) := by
  intro he
  obtain ⟨n, hn, hname⟩ := h.number a b hb hs
  have := madeUpName_injective (hname.symm.trans he)
  omega

theorem insert {known : Bindings} {counters : Counters}
    (h : Numbered root heap scopes known counters) {scope : ScopePath} (hscope : scope ∈ scopes)
    {a : UInt64} {v : Value} {k : Constant} (hnew : known[a]? = none)
    (hv : heap.reconstruct? a = some v) (hk : v.constant? = some k) :
    Numbered root heap scopes
      (known.insert a (.ofConstant a (madeUpName (counters.getD scope 0 + 1)) scope k))
      (counters.insert scope (counters.getD scope 0 + 1)) := by
  have hscan : root.scan.value.bindings[a]? = none := by
    cases hs : root.scan.value.bindings[a]? with
    | none => rfl
    | some b =>
      rw [h.keep a b hs] at hnew
      cases hnew
  refine ⟨fun a' b' hs => ?_, fun a' b' hb' => ?_, fun a' b' hb' hs => ?_,
    fun a₁ a₂ b₁ b₂ h₁ h₂ hs₁ hs₂ howner hname => ?_⟩
  · have hne : a ≠ a' := by
      rintro rfl
      rw [hscan] at hs
      cases hs
    rw [Std.ExtTreeMap.getElem?_insert, if_neg (by simpa using hne)]
    exact h.keep a' b' hs
  · rcases Std.ExtTreeMap.getElem?_insert_cases hb' with ⟨rfl, rfl⟩ | hb'
    · exact .memory a' scope _ v k hscan hscope hv hk
    · exact h.origin a' b' hb'
  · rcases Std.ExtTreeMap.getElem?_insert_cases hb' with ⟨rfl, rfl⟩ | hb'
    · exact ⟨_, Nat.le_of_eq Std.ExtTreeMap.getD_insert_self.symm, rfl⟩
    · obtain ⟨n, hn, hname⟩ := h.number a' b' hb' hs
      refine ⟨n, ?_, hname⟩
      rw [Std.ExtTreeMap.getD_insert]
      split
      · next he =>
        rw [Std.LawfulEqOrd.eq_of_compare he]
        omega
      · exact hn
  · rcases Std.ExtTreeMap.getElem?_insert_cases h₁ with ⟨rfl, rfl⟩ | hold₁
    · rcases Std.ExtTreeMap.getElem?_insert_cases h₂ with ⟨rfl, -⟩ | hold₂
      · rfl
      · exact absurd (howner ▸ hname.symm) (h.fresh hold₂ hs₂)
    · rcases Std.ExtTreeMap.getElem?_insert_cases h₂ with ⟨rfl, rfl⟩ | hold₂
      · exact absurd (howner ▸ hname) (h.fresh hold₁ hs₁)
      · exact h.once a₁ a₂ b₁ b₂ hold₁ hold₂ hs₁ hs₂ howner hname

variable {s : Linker}

/-- **One lookup keeps the numbering.** -/
theorem resolveCell (h : Numbered root heap scopes s.known s.counters) {f : Routine}
    (hf : f.scope ∈ scopes) (a : UInt64) (old : Text) (refs : References) :
    Numbered root heap scopes (Linker.resolveCell heap f a old s refs).value.1.known
      (Linker.resolveCell heap f a old s refs).value.1.counters := by
  rcases resolveCell_cases heap f a old s refs with ⟨hk, hc⟩ | ⟨hnew, v, k, hv, hk, hknown, hcounters⟩
  · rw [hk, hc]
    exact h
  · rw [hknown, hcounters]
    exact h.insert hf hnew hv hk

theorem resolveCells (h : Numbered root heap scopes s.known s.counters) {f : Routine}
    (hf : f.scope ∈ scopes) (cells : List (UInt64 × Text)) (refs : References) :
    Numbered root heap scopes (Linker.resolveCells heap f cells s refs).value.1.known
      (Linker.resolveCells heap f cells s refs).value.1.counters := by
  induction cells generalizing s refs with
  | nil => exact h
  | cons c cells ih => exact ih (h.resolveCell hf c.1 c.2 refs) _

theorem link (h : Numbered root heap scopes s.known s.counters) {f : CompiledRoutine}
    (hf : f.scope ∈ scopes) (routines : List Routine) (index : Nat) :
    Numbered root heap scopes (s.link heap routines index f).value.1.known
      (s.link heap routines index f).value.1.counters := by
  rw [Linker.link]
  split
  · exact h
  · next s₁ hjoin =>
    -- a function that joins its unit changes neither table
    have hsame : s₁.known = s.known ∧ s₁.counters = s.counters := by
      simp only [join, bind, Except.bind] at hjoin
      split at hjoin
      · cases hjoin
      · rw [← Except.ok.inj hjoin]
        exact ⟨rfl, rfl⟩
    rw [← hsame.1, ← hsame.2] at h
    exact h.resolveCells hf _ _

/-- **So does linking all functions**, whether it succeeds or not. -/
theorem linkAll (h : Numbered root heap scopes s.known s.counters) {fs : List CompiledRoutine}
    (hfs : ∀ f ∈ fs, f.scope ∈ scopes) (routines : List Routine) (index : Nat) :
    Numbered root heap scopes (Linker.linkAll heap routines index fs s).value.1.known
      (Linker.linkAll heap routines index fs s).value.1.counters := by
  induction fs generalizing s index with
  | nil => exact h
  | cons f fs ih =>
    have hone := h.link (hfs f (by simp)) routines index
    rw [Linker.linkAll, Logged.value_bind]
    generalize (s.link heap routines index f).value = one at hone
    obtain ⟨s₁, result⟩ := one
    cases result with
    | error e => exact hone
    | ok f' => exact ih hone (fun g hg => hfs g (by simp [hg])) (index + 1)

end Numbered

end Linker

namespace Program

open Linker

variable {root : Scope} {heap : HeapImage} {counters : Counters} {functions : List CompiledRoutine}
  {p : Program}

/-- Variables at different addresses have different symbols. -/
def Separate (p : Program) : Prop :=
  ∀ (a a' : UInt64) (b b' : Binding), p.Holds a b → p.Holds a' b' → a ≠ a' → b.symbol ≠ b'.symbol

/-- A name that is a single word. -/
def IsWord (name : Text) : Prop :=
  name ≠ [] ∧ ∀ c ∈ name, Name.isWordChar c

instance (name : Text) : Decidable (IsWord name) :=
  decidable_of_iff (name ≠ [] ∧ name.all Name.isWordChar) (and_congr_right fun _ => List.all_eq_true)

/-- The names of cells and of scopes are single words, and a qualified name stands for one cell. -/
structure Tidy (root : Scope) (scopes : List ScopePath) : Prop where
  /-- Cells have single words as names. -/
  cell : ∀ c ∈ root.candidates, IsWord c.entry.name
  /-- So have the scopes that they belong to. -/
  owner : ∀ c ∈ root.candidates, ∀ name ∈ c.owner, IsWord name
  /-- So have the scopes of functions. -/
  scope : ∀ scope ∈ scopes, ∀ name ∈ scope, IsWord name
  /-- A qualified name stands for one cell. -/
  once : ∀ c ∈ root.candidates, ∀ c' ∈ root.candidates, c.owner = c'.owner →
    c.entry.name = c'.entry.name → c.entry.address = c'.entry.address

/-- The words of a member of a scope whose names are words. -/
theorem words_of_isWord {path : ScopePath} (h : ∀ name ∈ path, IsWord name) (name : Text) :
    path.words name = path ++ Name.words name := by
  have hroot : path ≠ [[]] := by
    rintro rfl
    exact (h [] (by simp)).1 rfl
  have hwords : path.flatMap Name.words = path := by
    have hpure : path.flatMap Name.words = path.flatMap fun name => [name] :=
      List.flatMap_congr fun name hn => Name.words_eq_singleton (h name hn).2
    rw [hpure, List.flatMap_singleton']
  rw [ScopePath.words, if_neg hroot, hwords]

/-- The numbering once a program is linked. -/
theorem numbered_table (root : Scope) (heap : HeapImage) (counters : Counters)
    (functions : List CompiledRoutine) :
    ∃ counters', Numbered root heap (functions.map fun f => f.scope)
      (table heap counters root.scan.value.bindings functions) counters' := by
  have hstart : Numbered root heap (functions.map fun f => f.scope) root.scan.value.bindings counters := by
    refine ⟨fun _ _ h => h, fun a b hb => root.origin_of_scan heap _ hb, fun a b hb hs => ?_,
      fun a _ b _ hb _ hs => ?_⟩
    · rw [hb] at hs
      cases hs
    · rw [hb] at hs
      cases hs
  exact ⟨_, Numbered.linkAll (s := { known := root.scan.value.bindings, counters }) hstart
    (fun f hf => List.mem_map.mpr ⟨f, hf, rfl⟩) _ 0⟩

theorem symbol_eq_iff {scopes : List ScopePath} {a a' : UInt64} {b b' : Binding}
    (h : Origin root heap scopes a b) (h' : Origin root heap scopes a' b') :
    b.symbol = b'.symbol ↔ b.owner.words b.identifier = b'.owner.words b'.identifier := by
  have hmangled : ∀ {a b}, Origin root heap scopes a b → b.mangled = b.owner.mangle b.identifier := by
    intro a b h
    obtain ⟨-, k, -, hb⟩ := h.exists_constant
    rw [hb]
    rfl
  rw [Binding.symbol, Binding.symbol, Name.symbol_injective.eq_iff, hmangled h, hmangled h',
    ScopePath.mangle_eq_iff]

/-- In a tidy program a cell and a made-up variable, or two cells, have different words. -/
theorem words_ne_of_tidy {scopes : List ScopePath} (ht : Tidy root scopes) {a a' : UInt64} {b b' : Binding}
    (h : Origin root heap scopes a b) (h' : Origin root heap scopes a' b') (hne : a ≠ a')
    (honce : root.scan.value.bindings[a]? = none → root.scan.value.bindings[a']? = none →
      b.owner = b'.owner → b.identifier = b'.identifier → a = a') :
    b.owner.words b.identifier ≠ b'.owner.words b'.identifier := by
  have hcell : ∀ c ∈ root.candidates, c.owner.words c.entry.name = c.owner ++ [c.entry.name] := by
    intro c hc
    rw [words_of_isWord (ht.owner c hc), Name.words_eq_singleton (ht.cell c hc).2]
  have hmemory : ∀ scope ∈ scopes, ∀ n,
      scope.words (madeUpName n) = scope ++ [[], "global", Text.decimal n] := by
    intro scope hs n
    rw [words_of_isWord (ht.scope scope hs), words_madeUpName]
  -- the name of a made-up variable has an empty word in it, and those of cells have none
  have hmixed : ∀ c ∈ root.candidates, ∀ (scope : ScopePath) (n : Nat),
      c.owner ++ [c.entry.name] ≠ scope ++ [[], "global", Text.decimal n] := by
    intro c hc scope n he
    have hempty : ([] : Text) ∈ c.owner ++ [c.entry.name] := by
      rw [he]
      simp
    rcases List.mem_append.mp hempty with hm | hm
    · exact (ht.owner c hc [] hm).1 rfl
    · exact (ht.cell c hc).1 (List.mem_singleton.mp hm).symm
  intro he
  cases h with
  | cell c k hc _ =>
    cases h' with
    | cell c' k' hc' _ =>
      rw [ofConstant, ofConstant, hcell c hc, hcell c' hc'] at he
      obtain ⟨howner, hname⟩ := List.append_inj' he rfl
      exact hne (ht.once c hc c' hc' howner (List.singleton_inj.mp hname))
    | memory _ scope n v k' _ hs _ _ =>
      rw [ofConstant, ofConstant, hcell c hc, hmemory scope hs] at he
      exact hmixed c hc scope n he
  | memory _ scope n v k hnew hs _ _ =>
    cases h' with
    | cell c' k' hc' _ =>
      rw [ofConstant, ofConstant, hcell c' hc', hmemory scope hs] at he
      exact hmixed c' hc' scope n he.symm
    | memory _ scope' n' v' k' hnew' hs' _ _ =>
      rw [ofConstant, ofConstant, hmemory scope hs, hmemory scope' hs'] at he
      obtain ⟨howner, hname⟩ := List.append_inj' he rfl
      have hn : n = n' := CallGraph.decimal_injective (by simpa using hname)
      exact hne (honce hnew hnew' howner (congrArg madeUpName hn))

/-- **Which variables share a symbol.**  Every variable of a linked program is a cell of a scope, or has been
made up from memory under a number.  Two of them share a symbol if and only if their qualified names have
the same words.  Those made up in one scope never do, and in a tidy program no two variables do. -/
theorem link_symbols
    (h : (Program.link heap counters root.scan.value.bindings functions).value.2 = .ok p) :
    (∀ a b, p.Holds a b → Origin root heap (functions.map fun f => f.scope) a b) ∧
    (∀ a a' b b', p.Holds a b → p.Holds a' b' →
      (b.symbol = b'.symbol ↔ b.owner.words b.identifier = b'.owner.words b'.identifier)) ∧
    (∀ a a' b b', p.Holds a b → p.Holds a' b' → a ∉ root.scan.value.bindings →
      a' ∉ root.scan.value.bindings → b.owner = b'.owner → b.symbol = b'.symbol → a = a') ∧
    (Tidy root (functions.map fun f => f.scope) → p.Separate) := by
  obtain ⟨-, -, hfiled, -, -⟩ := link_spec h
  obtain ⟨counters', hnum⟩ := numbered_table root heap counters functions
  have htable : ∀ {a b}, p.Holds a b →
      (table heap counters root.scan.value.bindings functions)[a]? = some b := by
    rintro a b ⟨scope, u, hu, hb⟩
    exact (hfiled.owned scope u a b hu hb).1
  have horigin : ∀ {a b}, p.Holds a b → Origin root heap (functions.map fun f => f.scope) a b :=
    fun hb => hnum.origin _ _ (htable hb)
  refine ⟨fun a b hb => horigin hb, fun a a' b b' hb hb' => symbol_eq_iff (horigin hb) (horigin hb'),
    fun a a' b b' hb hb' hnew hnew' howner hsymbol => ?_, fun ht a a' b b' hb hb' hne hsymbol => ?_⟩
  · -- both names are numbers of one scope, so the same words mean the same number
    obtain ⟨n, -, hn⟩ := hnum.number a b (htable hb) (Std.ExtTreeMap.getElem?_eq_none hnew)
    obtain ⟨n', -, hn'⟩ := hnum.number a' b' (htable hb') (Std.ExtTreeMap.getElem?_eq_none hnew')
    have hwords := (symbol_eq_iff (horigin hb) (horigin hb')).mp hsymbol
    rw [howner, hn, hn'] at hwords
    have hlast := List.append_cancel_left hwords
    rw [words_madeUpName, words_madeUpName] at hlast
    have hnn : n = n' := CallGraph.decimal_injective (by simpa using hlast)
    exact hnum.once a a' b b' (htable hb) (htable hb') (Std.ExtTreeMap.getElem?_eq_none hnew)
      (Std.ExtTreeMap.getElem?_eq_none hnew') howner (by rw [hn, hn', hnn])
  · have hwords := (symbol_eq_iff (horigin hb) (horigin hb')).mp hsymbol
    exact words_ne_of_tidy ht (horigin hb) (horigin hb') hne
      (fun hs hs' => hnum.once a a' b b' (htable hb) (htable hb') hs hs') hwords

/-- A function that refers to two cells. -/
def pairFunctions : List CompiledRoutine :=
  [{ handle := .ofPosition 0, name := "f", mangled := "Main_f", arguments := []
     scope := ["Main"], isEntry := true, overload := 0
     listing := {
       headers := ["define void @main() \x7b"]
       bodies := ["\n  store ptr @jl_global_1, ptr @jl_global_2\n  ret void\n"]
       addresses := { cells := .insert (.insert ∅ 256 "@jl_global_1") 512 "@jl_global_2" } } }]

/-- A scope with one cell. -/
def oneCell (name : Text) : Scope :=
  .mk "Main" [⟨name, 256, ⟨.ref, .int64 1⟩, false⟩] []

/-- A cell and a string that have different symbols. -/
theorem link_symbols_oneCell : ∃ p,
    (Program.link (HeapImage.defineString {} 512 "hi") ∅ (oneCell "x").scan.value.bindings
      pairFunctions).value.2 = .ok p ∧ p.bindingCount = 2 ∧ p.Separate := by
  have hlink : (Program.link (HeapImage.defineString {} 512 "hi") ∅ (oneCell "x").scan.value.bindings
      pairFunctions).value.2.toOption.map bindingCount = some 2 := by decide +kernel
  obtain ⟨p, hp, hcount⟩ := Except.exists_of_map_toOption hlink
  have htidy : Tidy (oneCell "x") (pairFunctions.map fun f => f.scope) :=
    ⟨by decide, by decide, by decide, by decide⟩
  exact ⟨p, hp, hcount, (link_symbols hp).2.2.2 htidy⟩

/-- Two cells of one scope that share a symbol because neither name is a word, and a cell that shares the
symbol of a string because it is called like the first one made up. -/
theorem pairFunctions_not_separate :
    (∃ p, (Program.link {} ∅ (Scope.scan (.mk "Main" [⟨"a!", 256, ⟨.ref, .int64 1⟩, false⟩,
        ⟨"a?", 512, ⟨.ref, .int64 2⟩, false⟩] [])).value.bindings pairFunctions).value.2 = .ok p ∧
      ¬ p.Separate) ∧
    ∃ p, (Program.link (HeapImage.defineString {} 512 "hi") ∅ (oneCell "_global_1").scan.value.bindings
        pairFunctions).value.2 = .ok p ∧ ¬ p.Separate := by
  refine ⟨⟨_, rfl, fun h => ?_⟩, ⟨_, rfl, fun h => ?_⟩⟩
  · exact h 256 512 _ _ ⟨["Main"], _, rfl, rfl⟩ ⟨["Main"], _, rfl, rfl⟩ (by decide) rfl
  · exact h 256 512 _ _ ⟨["Main"], _, rfl, rfl⟩ ⟨["Main"], _, rfl, rfl⟩ (by decide) rfl

end Program

end Freestanding
