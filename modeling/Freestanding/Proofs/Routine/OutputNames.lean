import Freestanding.Proofs.CallGraph.Reachability
import Freestanding.Proofs.Scope.Mangling
import Freestanding.Routine

/-!
# Symbols of functions in the output

The walk over the functions of a program gives each of them a name of its own.  The entry is defined
under another one, though: it becomes `main`, whatever it was called.  That name is not reserved in the
walk.  A function called `main` in the nameless scope has it too, so a program that reaches such a
function from an entry of another name defines `main` twice.  This is the only way for two functions to
meet.

## Main definitions

* `Signature.IsRootMain` — a function called `main` in the nameless scope.
* `CallGraph.outputNames` — the names under which the functions of a graph are defined.

## Main results

* `ScopePath.mangle_eq_word_iff` — a single word is the output name of one member only.
* `CallGraph.exists_mangled_iff` — the walk gives out such a name exactly if a function asks for it.
* `CallGraph.outputNames_nodup_iff` — **when the functions of a program have different names.**
* `CallGraph.rootMainHost_not_nodup` — a program with two functions of one name.
-/

namespace Freestanding

/-! ### Names that are single words -/

/-- Sanitising gives a word without underscores only to that word. -/
theorem Name.sanitize_eq_word_iff {word : Text} (hw : '_' ∉ word) (hplain : Name.Plain word)
    {name : Text} : Name.sanitize name = word ↔ name = word := by
  induction name generalizing word with
  | nil => rw [Name.sanitize, List.map_nil, eq_comm]
  | cons c name ih =>
    cases word with
    | nil => simp [Name.sanitize]
    | cons d word =>
      have hd : d ≠ '_' := fun he => hw (by simp [he])
      have hrest : Name.sanitize name = word ↔ name = word :=
        ih (fun h => hw (List.mem_cons_of_mem d h)) fun e he => hplain e (List.mem_cons_of_mem d he)
      have hcons : Name.sanitize (c :: name) = (if Name.isPlain c then c else '_') :: Name.sanitize name :=
        rfl
      rw [hcons, List.cons.injEq, List.cons.injEq, hrest]
      refine and_congr_left fun _ => ?_
      constructor
      · intro he
        split at he
        · exact he
        · exact absurd he.symm hd
      · rintro rfl
        rw [if_pos (hplain c (by simp))]

/-- A single word is the output name of the member of that name of the nameless scope, and of no other
member. -/
theorem ScopePath.mangle_eq_word_iff {word : Text} (hw : '_' ∉ word) (hplain : Name.Plain word)
    {p : ScopePath} {name : Text} : p.mangle name = word ↔ p.stem = [] ∧ name = word := by
  rw [ScopePath.mangle]
  split
  · next hstem => simp [List.isEmpty_iff.mp hstem, Name.sanitize_eq_word_iff hw hplain]
  · next hstem =>
    constructor
    · -- the underscore between a scope and its member stays
      intro he
      exact absurd (he ▸ List.mem_append_right _ (List.mem_cons_self ..)) hw
    · rintro ⟨hnil, -⟩
      exact absurd (List.isEmpty_iff.mpr hnil) hstem

/-- A function called `main` in the nameless scope. -/
def Signature.IsRootMain (s : Signature) : Prop :=
  s.scope.stem = [] ∧ s.name = "main"

instance (s : Signature) : Decidable s.IsRootMain :=
  inferInstanceAs (Decidable (_ ∧ _))

/-- A function is defined under the symbol of its output name. -/
theorem Routine.target_symbol (r : Routine) : r.target.symbol = Name.symbol r.outputName := by
  rw [Target.symbol, Routine.target, Routine.outputName]
  split
  · rfl
  · rfl

namespace CallGraph

/-- The name that the entry gets. -/
def mainName : Text :=
  "main"

theorem underscore_notMem_mainName : '_' ∉ mainName := by decide

theorem baseName_eq_mainName_iff (s : Signature) : baseName s = mainName ↔ s.IsRootMain :=
  ScopePath.mangle_eq_word_iff underscore_notMem_mainName (Name.plain_sanitize "main")

/-! ### Who gets a single word -/

/-- A name without underscores has no number, so it is the plain name of a function without namesakes
before it. -/
theorem freshName_eq_word {base word : Text} (hw : '_' ∉ word) {overload : Nat} {taken : List Text}
    (h : freshName base overload taken = word) : base = word := by
  rw [freshName] at h
  split at h
  · exact h
  · exact absurd (h ▸ List.mem_append_right _ (List.mem_cons_self ..)) hw

variable {nodes : List Node} {word : Text}

theorem Named.baseName_of_mangled (hn : Named nodes) (hw : '_' ∉ word) {n : Node} (hmem : n ∈ nodes)
    (h : n.mangled = word) : baseName n.signature = word := by
  obtain ⟨before, after, he⟩ := List.append_of_mem hmem
  rw [hn before n after he] at h
  exact freshName_eq_word hw h

/-- The first function that asks for a word without underscores gets it: only a function that asks for it
can have been given it. -/
theorem Named.mangled_of_first {before after : List Node} {n : Node} (hn : Named (before ++ n :: after))
    (hw : '_' ∉ word) (h : baseName n.signature = word)
    (hfirst : ∀ m ∈ before, baseName m.signature ≠ word) : n.mangled = word := by
  have hfree : word ∉ before.map Node.mangled := by
    intro htaken
    obtain ⟨m, hm, hmangled⟩ := List.mem_map.mp htaken
    exact hfirst m hm (hn.baseName_of_mangled hw (List.mem_append_left _ hm) hmangled)
  have hcount : before.countP (fun m => baseName m.signature == baseName n.signature) = 0 := by
    rw [List.countP_eq_zero]
    intro m hm
    simpa [h] using hfirst m hm
  have hnext : n.mangled = freshName (baseName n.signature)
      (before.countP fun m => baseName m.signature == baseName n.signature)
      (before.map Node.mangled) :=
    congrArg Node.mangled (hn before n after rfl)
  rw [hnext, hcount, freshName, h, if_pos ⟨rfl, hfree⟩]

/-- A word without underscores is given out exactly if a function asks for it. -/
theorem exists_mangled_iff (hn : Named nodes) (hw : '_' ∉ word) :
    (∃ n ∈ nodes, n.mangled = word) ↔ ∃ n ∈ nodes, baseName n.signature = word := by
  constructor
  · rintro ⟨n, hmem, h⟩
    exact ⟨n, hmem, hn.baseName_of_mangled hw hmem h⟩
  · rintro ⟨n, hmem, h⟩
    have hsome : (nodes.find? fun n => baseName n.signature = word).isSome := by
      rw [List.find?_isSome]
      exact ⟨n, hmem, by simpa using h⟩
    obtain ⟨first, hfirst⟩ := Option.isSome_iff_exists.mp hsome
    obtain ⟨hbase, before, after, rfl, hbefore⟩ := List.find?_eq_some_iff_append.mp hfirst
    refine ⟨first, by simp, hn.mangled_of_first hw (by simpa using hbase) ?_⟩
    intro m hm
    simpa using hbefore m hm

/-! ### The names of a program -/

/-- The names under which the functions of a graph are defined. -/
def outputNames (entry : Handle) (g : CallGraph) : List Text :=
  g.nodes.map fun n => (Routine.ofNode entry n).outputName

private theorem outputName_of_eq {entry : Handle} {n : Node} (h : n.handle = entry) :
    (Routine.ofNode entry n).outputName = mainName := by
  simp [Routine.outputName, Routine.ofNode, h, mainName]

private theorem outputName_of_ne {entry : Handle} {n : Node} (h : n.handle ≠ entry) :
    (Routine.ofNode entry n).outputName = n.mangled := by
  simp [Routine.outputName, Routine.ofNode, h]

section

variable {host : Host} {entry : Handle} {g : CallGraph}

theorem isGraphOf_of_collect (hb : host.Built) (hg : (collect host entry).2 = .ok g) :
    IsGraphOf host entry (collect host entry).1 g := by
  rcases collect_cases hb.aligned entry with ⟨-, id, herror⟩ | ⟨-, g', hok, hgraph⟩
  · rw [herror] at hg
    cases hg
  · rw [hok] at hg
    cases hg
    exact hgraph

/-- An entry that asks for its later name gets it in the walk as well, because it comes first. -/
theorem mangled_entry (hb : host.Built) (hg : (collect host entry).2 = .ok g) {n : Node}
    (hn : n ∈ g.nodes) (hentry : n.handle = entry) (h : n.signature.IsRootMain) :
    n.mangled = mainName := by
  have hgraph := isGraphOf_of_collect hb hg
  have hnamed := named_of_collect hg
  obtain ⟨first, hfirst, hhandle⟩ := Option.map_eq_some_iff.mp hgraph.entry_first
  obtain ⟨rest, hrest⟩ := List.head?_eq_some_iff.mp hfirst
  have hmem : first ∈ g.nodes := by simp [hrest]
  obtain rfl : first = n := List.inj_on_of_nodup_map hgraph.nodup hmem hn (hhandle.trans hentry.symm)
  rw [hrest] at hnamed
  have hnone : ∀ m ∈ ([] : List Node), baseName m.signature ≠ mainName := by simp
  exact hnamed.mangled_of_first underscore_notMem_mainName ((baseName_eq_mainName_iff _).mpr h) hnone

end

/-- **When the functions of a program have different names.**  They have, and are defined under different
symbols, exactly if no function called `main` in the nameless scope is reached from an entry of another
name. -/
theorem outputNames_nodup_iff {host : Host} (hb : host.Built) {entry : Handle} {g : CallGraph}
    (hg : (collect host entry).2 = .ok g) :
    ((outputNames entry g).Nodup ↔ ∀ n ∈ g.nodes, n.signature.IsRootMain →
      ∃ m ∈ g.nodes, m.handle = entry ∧ m.signature.IsRootMain) ∧
    ((g.nodes.map fun n => (Routine.ofNode entry n).target.symbol).Nodup ↔
      (outputNames entry g).Nodup) := by
  have hgraph := isGraphOf_of_collect hb hg
  have hnamed := named_of_collect hg
  have hinj : ∀ n ∈ g.nodes, ∀ m ∈ g.nodes, n.handle = m.handle → n = m :=
    fun n hn m hm => List.inj_on_of_nodup_map hgraph.nodup hn hm
  have hmangled : ∀ n ∈ g.nodes, ∀ m ∈ g.nodes, n.mangled = m.mangled → n = m :=
    fun n hn m hm => List.inj_on_of_nodup_map hnamed.nodup hn hm
  -- apart from the entry, a function is called `main` only if it asks for that name
  have hother : ∀ n ∈ g.nodes, n.handle ≠ entry → ∀ m ∈ g.nodes, m.handle = entry →
      (Routine.ofNode entry n).outputName = (Routine.ofNode entry m).outputName →
      n.mangled = mainName := by
    intro n _ hne m _ heq h
    rwa [outputName_of_ne hne, outputName_of_eq heq] at h
  obtain ⟨first, hfirst, hentry⟩ := Option.map_eq_some_iff.mp hgraph.entry_first
  have hmem : first ∈ g.nodes := List.mem_of_mem_head? hfirst
  refine ⟨?_, ?_⟩
  · rw [outputNames, List.nodup_map_iff_inj_on (List.Nodup.of_map _ hgraph.nodup)]
    constructor
    · intro h n hn hmain
      obtain ⟨m, hm, hname⟩ := (exists_mangled_iff hnamed underscore_notMem_mainName).mpr
        ⟨n, hn, (baseName_eq_mainName_iff _).mpr hmain⟩
      have hbase := hnamed.baseName_of_mangled underscore_notMem_mainName hm hname
      by_cases he : m.handle = entry
      · exact ⟨m, hm, he, (baseName_eq_mainName_iff _).mp hbase⟩
      · -- otherwise it shares its name with the entry
        refine absurd (h m hm first hmem ?_) fun heq => he (heq ▸ hentry)
        rw [outputName_of_ne he, outputName_of_eq hentry, hname]
    · intro h
      have hclash : ∀ n ∈ g.nodes, n.handle ≠ entry → n.mangled ≠ mainName := by
        intro n hn hne hname
        have hbase := hnamed.baseName_of_mangled underscore_notMem_mainName hn hname
        obtain ⟨m, hm, he, hmain⟩ := h n hn ((baseName_eq_mainName_iff _).mp hbase)
        have : n = m := hmangled n hn m hm (hname.trans (mangled_entry hb hg hm he hmain).symm)
        exact hne (this ▸ he)
      intro n hn m hm heq
      by_cases hne : n.handle = entry <;> by_cases hme : m.handle = entry
      · exact hinj n hn m hm (hne.trans hme.symm)
      · exact absurd (hother m hm hme n hn hne heq.symm) (hclash m hm hme)
      · exact absurd (hother n hn hne m hm hme heq) (hclash n hn hne)
      · rw [outputName_of_ne hne, outputName_of_ne hme] at heq
        exact hmangled n hn m hm heq
  · have hsymbols : (g.nodes.map fun n => (Routine.ofNode entry n).target.symbol) =
        (outputNames entry g).map Name.symbol := by
      rw [outputNames, List.map_map]
      exact List.map_congr_left fun n _ => Routine.target_symbol _
    rw [hsymbols]
    exact List.nodup_map_iff Name.symbol_injective

/-- A host whose entry is called `main` in the nameless scope, and so is a function that it calls. -/
def twinMainHost : Host :=
  [⟨"main", "", [], [1, 2], [], true⟩, ⟨"main", "", ["Int"], [], [], true⟩,
    ⟨"f", "Main", [], [], [], true⟩].foldl (fun (h : Host) f => (h.add f).1) {}

/-- The second one gets a number, and the names of the program are different. -/
theorem outputNames_nodup_iff_twinMainHost : twinMainHost.Built ∧
    ∃ g, (collect twinMainHost ⟨0⟩).2 = .ok g ∧ outputNames ⟨0⟩ g = ["main", "main_1", "Main_f"] ∧
      (outputNames ⟨0⟩ g).Nodup := by
  have hb : twinMainHost.Built := ((Host.Built.empty.add _).add _).add _
  have heval : ((collect twinMainHost ⟨0⟩).2.toOption.map fun g => (outputNames ⟨0⟩ g,
      decide (∃ m ∈ g.nodes, m.handle = ⟨0⟩ ∧ m.signature.IsRootMain))) =
      some ((["main", "main_1", "Main_f"] : List Text), true) := by decide +kernel
  refine ⟨hb, ?_⟩
  cases hg : (collect twinMainHost ⟨0⟩).2 with
  | error e =>
    rw [hg] at heval
    cases heval
  | ok g =>
    rw [hg] at heval
    obtain ⟨hnames, hmain⟩ := Prod.mk.inj (Option.some.inj heval)
    exact ⟨g, rfl, hnames, (outputNames_nodup_iff hb hg).1.mpr fun _ _ _ => of_decide_eq_true hmain⟩

/-- A host where the entry calls a function `main` of the nameless scope. -/
def rootMainHost : Host :=
  [⟨"f", "Main", [], [1], [], true⟩, ⟨"main", "", [], [], [], true⟩].foldl
    (fun (h : Host) f => (h.add f).1) {}

/-- Both functions of the program are defined as `main`. -/
theorem rootMainHost_not_nodup : ∃ g, (collect rootMainHost ⟨0⟩).2 = .ok g ∧
    outputNames ⟨0⟩ g = ["main", "main"] ∧ ¬ (outputNames ⟨0⟩ g).Nodup := by
  have heval : (collect rootMainHost ⟨0⟩).2.toOption.map (outputNames ⟨0⟩) =
      some (["main", "main"] : List Text) := by decide +kernel
  cases hg : (collect rootMainHost ⟨0⟩).2 with
  | error e =>
    rw [hg] at heval
    cases heval
  | ok g =>
    rw [hg] at heval
    have hnames : outputNames ⟨0⟩ g = ["main", "main"] := Option.some.inj heval
    exact ⟨g, rfl, hnames, by rw [hnames]; decide⟩

end CallGraph

end Freestanding
