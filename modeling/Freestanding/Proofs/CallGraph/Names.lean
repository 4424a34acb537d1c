import Freestanding.Proofs.CallGraph.Walk
import Mathlib.Order.Bounds.Basic
import Mathlib.Data.Finset.Card

/-!
# Output names are unique

Every function of a call graph gets an output name that no earlier one has.  A name with a number as a
suffix may be the plain name of another function, so the search for a free number looks at all names
given so far.  It ends because different numbers give different names and only finitely many are
taken.

The walk looks at its own notes, not at the functions found: how often a plain name was asked for, and
which names were given.  That these notes are about the functions found is an invariant of the walk.

## Main definitions

* `CallGraph.Search` — the search for a name, as a run of single tries.
* `CallGraph.Names.Of` — the notes are about the functions of a list.
* `CallGraph.Named` — every function of a list has the name that the ones before it leave for it.

## Main results

* `CallGraph.suffixed_injective` — different numbers give different names.
* `CallGraph.freeSuffix_isLeast` — the search finds the least free number.
* `CallGraph.Names.Of.note` — the notes are kept from one function to the next.
* `CallGraph.collect_names` — **the output names of a call graph are pairwise distinct, and each follows
  the rule.**
-/

namespace Freestanding.CallGraph

/-! ### Free numbers -/

theorem decimal_injective : Function.Injective Text.decimal := by
  intro m n h
  calc m = Nat.ofDigitChars 10 (Nat.toDigits 10 m) 0 := Nat.ofDigitChars_ten_toDigits.symm
    _ = Nat.ofDigitChars 10 (Nat.toDigits 10 n) 0 := congrArg (Nat.ofDigitChars 10 · 0) h
    _ = n := Nat.ofDigitChars_ten_toDigits

/-- Different numbers give different names. -/
theorem suffixed_injective (base : Text) : Function.Injective (suffixed base) := by
  intro m n h
  have hdecimal : '_' :: Text.decimal m = '_' :: Text.decimal n := List.append_cancel_left h
  exact decimal_injective (List.cons.inj hdecimal).2

private theorem suffixed_ne (base : Text) (k : Nat) : suffixed base k ≠ base := by
  intro h
  have := congrArg List.length h
  simp only [suffixed, List.length_append, List.length_cons] at this
  omega

/-- The numbers from `start` on that give a free name. -/
def freeNumbers (base : Text) (taken : List Text) (start : Nat) : Set Nat :=
  {k | start ≤ k ∧ suffixed base k ∉ taken}

/-- Among one more numbers than there are names taken, one is free. -/
theorem exists_free (base : Text) (taken : List Text) (start : Nat) :
    ∃ k ∈ freeNumbers base taken start, k ≤ start + taken.length := by
  by_contra hnone
  have hall : ∀ i ∈ Finset.range (taken.length + 1), suffixed base (start + i) ∈ taken.toFinset := by
    intro i hi
    rw [Finset.mem_range] at hi
    by_contra hfree
    exact hnone ⟨start + i, ⟨by omega, by simpa using hfree⟩, by omega⟩
  have hinj : Set.InjOn (fun i => suffixed base (start + i)) (Finset.range (taken.length + 1)) := by
    intro i _ j _ hij
    have := suffixed_injective base hij
    omega
  have hcard := Finset.card_le_card_of_injOn _ hall hinj
  have hlen := taken.toFinset_card_le
  rw [Finset.card_range] at hcard
  omega

/-- If there is a free number within as many steps as are tried, the search finds the least one. -/
theorem freeSuffix_isLeast_of_le (base : Text) (taken : List Text) {tries start : Nat}
    (h : ∃ k ∈ freeNumbers base taken start, k ≤ start + tries) :
    IsLeast (freeNumbers base taken start) (freeSuffix base taken tries start) := by
  induction tries generalizing start with
  | zero =>
    obtain ⟨k, hk, hle⟩ := h
    obtain rfl : k = start := by
      have := hk.1
      omega
    exact ⟨hk, fun j hj => hj.1⟩
  | succ tries ih =>
    rw [freeSuffix]
    split
    · next htaken =>
      -- The number at hand is taken, so the free numbers are those after it.
      have hset : freeNumbers base taken start = freeNumbers base taken (start + 1) := by
        ext k
        constructor
        · rintro ⟨hle, hfree⟩
          have hne : k ≠ start := fun he => hfree (he ▸ htaken)
          exact ⟨by omega, hfree⟩
        · rintro ⟨hle, hfree⟩
          exact ⟨by omega, hfree⟩
      obtain ⟨k, hk, hle⟩ := h
      rw [hset] at hk ⊢
      exact ih ⟨k, hk, by omega⟩
    · next hfree => exact ⟨⟨le_refl start, hfree⟩, fun j hj => hj.1⟩

/-- **The search finds the least free number.** -/
theorem freeSuffix_isLeast (base : Text) (taken : List Text) (start : Nat) :
    IsLeast (freeNumbers base taken start) (freeSuffix base taken taken.length start) :=
  freeSuffix_isLeast_of_le base taken (exists_free base taken start)

/-- The rule for names: the plain one if it is the first of its kind and free, and otherwise the one
with the least free number, from the number of namesakes and from one on. -/
theorem freshName_rule (base : Text) (overload : Nat) (taken : List Text) :
    if overload = 0 ∧ base ∉ taken then freshName base overload taken = base
    else ∃ k, IsLeast (freeNumbers base taken (max overload 1)) k ∧
      freshName base overload taken = suffixed base k := by
  unfold freshName
  split
  · rfl
  · exact ⟨_, freeSuffix_isLeast base taken (max overload 1), rfl⟩

private theorem freshName_notMem (base : Text) (overload : Nat) (taken : List Text) :
    freshName base overload taken ∉ taken := by
  have hrule := freshName_rule base overload taken
  split at hrule
  · next hfree =>
    rw [hrule]
    exact hfree.2
  · obtain ⟨k, hk, hname⟩ := hrule
    rw [hname]
    exact hk.1.2

/-! ### The search as a loop -/

/-- The search for a name, try by try, from a name and the next number to the name that is given.  A
name is rejected if it is taken, or if it is the plain one and there are namesakes. -/
inductive Search (base : Text) (taken : List Text) : (name : Text) → (number : Nat) → Text → Prop
  /-- The name is given. -/
  | stop {name : Text} {number : Nat} :
      ¬ ((0 < number ∧ name = base) ∨ name ∈ taken) → Search base taken name number name
  /-- The name is rejected, and the next number is tried. -/
  | retry {name result : Text} {number : Nat} : (0 < number ∧ name = base) ∨ name ∈ taken →
      Search base taken (suffixed base (max number 1)) (max number 1 + 1) result →
      Search base taken name number result

/-- From a number on, the search goes through the taken names and stops at the first free one. -/
theorem search_of_isLeast {base : Text} {taken : List Text} {start k : Nat}
    (hk : IsLeast (freeNumbers base taken start) k) :
    Search base taken (suffixed base start) (start + 1) (suffixed base k) := by
  induction hn : k - start generalizing start with
  | zero =>
    obtain rfl : start = k := by
      have := hk.1.1
      omega
    refine .stop ?_
    rintro (⟨-, he⟩ | htaken)
    · exact suffixed_ne base start he
    · exact hk.1.2 htaken
  | succ n ih =>
    have htaken : suffixed base start ∈ taken := by
      by_contra hfree
      have := hk.2 ⟨le_refl start, hfree⟩
      omega
    have hleast : IsLeast (freeNumbers base taken (start + 1)) k :=
      ⟨⟨by omega, hk.1.2⟩, fun j hj => hk.2 ⟨by have := hj.1; omega, hj.2⟩⟩
    have hmax : max (start + 1) 1 = start + 1 := by omega
    refine .retry (Or.inr htaken) ?_
    rw [hmax]
    exact ih hleast (by omega)

/-- The search ends, whatever names are taken, and gives the name of the rule. -/
theorem search_freshName (base : Text) (overload : Nat) (taken : List Text) :
    Search base taken base overload (freshName base overload taken) := by
  have hrule := freshName_rule base overload taken
  split at hrule
  · next hfree =>
    rw [hrule]
    refine .stop ?_
    rintro (⟨hpos, -⟩ | htaken)
    · omega
    · exact hfree.2 htaken
  · next hnot =>
    obtain ⟨k, hk, hname⟩ := hrule
    rw [hname]
    refine .retry ?_ (search_of_isLeast hk)
    by_cases hzero : overload = 0
    · right
      by_contra hfree
      exact hnot ⟨hzero, hfree⟩
    · exact Or.inl ⟨by omega, rfl⟩

/-! ### The names of a graph -/

/-- The function that comes after some others: it counts those that would have had its name, and has a name
beside theirs. -/
def nodeAfter (nodes : List Node) (handle : Handle) (s : Signature) : Node :=
  let overload := nodes.countP fun n => baseName n.signature == baseName s
  { handle := handle
    signature := s
    mangled := freshName (baseName s) overload (nodes.map Node.mangled)
    overload := overload }

/-- The notes are about the functions of a list. -/
structure Names.Of (names : Names) (nodes : List Node) : Prop where
  /-- They count how many of the functions would have had a name. -/
  uses : ∀ base, names.uses.getD base 0 = nodes.countP fun n => baseName n.signature == base
  /-- They have the names that the functions have got. -/
  taken : names.taken = nodes.map Node.mangled

namespace Names.Of

variable {names : Names} {nodes : List Node}

theorem empty : Names.Of {} [] where
  uses _ := Std.ExtTreeMap.getD_empty
  taken := rfl

private theorem nextNode_eq (h : names.Of nodes) (f : Handle) (s : Signature) :
    nextNode names f s = nodeAfter nodes f s := by
  rw [nextNode, nodeAfter, h.uses, h.taken]

/-- **The notes are kept**: with the function that comes next they are about one function more. -/
theorem note (h : names.Of nodes) (f : Handle) (s : Signature) :
    (names.note (nextNode names f s)).Of (nodes ++ [nextNode names f s]) where
  uses base := by
    rw [Names.note, Std.ExtTreeMap.getD_insert, List.countP_append, List.countP_singleton, ← h.uses base]
    by_cases hbase : baseName s = base
    · simp [nextNode, hbase]
    · simp [nextNode, hbase, Std.LawfulEqCmp.compare_eq_iff_eq]
  taken := by
    rw [Names.note, h.taken, List.map_append]
    rfl

end Names.Of

/-- Every function of a list comes after those before it. -/
def Named (nodes : List Node) : Prop :=
  ∀ before n after, nodes = before ++ n :: after → n = nodeAfter before n.handle n.signature

theorem Named.append {nodes : List Node} (hn : Named nodes) (h : Handle) (s : Signature) :
    Named (nodes ++ [nodeAfter nodes h s]) := by
  intro before n after he
  rcases List.eq_nil_or_concat after with rfl | ⟨after, m, rfl⟩
  · obtain ⟨rfl, hlast⟩ := List.append_inj_left' he rfl, List.append_inj_right' he rfl
    obtain rfl : n = nodeAfter nodes h s := by simpa using hlast.symm
    rfl
  · rw [List.concat_eq_append, ← List.cons_append, ← List.append_assoc] at he
    exact hn before n after (List.append_inj_left' he rfl)

/-- The functions that a walk lists are named one after the other. -/
theorem named_of_collect {host : Host} {entry : Handle} {g : CallGraph}
    (hg : (collect host entry).2 = .ok g) : Named g.nodes := by
  obtain ⟨hok, -⟩ := walk_invariant entry (P := fun _ _ _ names g => names.Of g.nodes ∧ Named g.nodes)
    (fun _ _ _ _ _ _ _ h _ _ => h)
    (fun _ _ _ f _ names g s _ h _ _ _ _ => by
      obtain ⟨hof, hn⟩ := h
      refine ⟨hof.note f s, ?_⟩
      rw [nodes_push, hof.nextNode_eq]
      exact hn.append f s)
    host ((handles host).erase entry) [entry] {} {} ⟨.empty, by simp [Named]⟩
  obtain ⟨unseen, names, -, hn⟩ := hok (collect host entry).1 g (by rw [← hg]; rfl)
  exact hn

theorem Named.nodup {nodes : List Node} (hn : Named nodes) : (nodes.map Node.mangled).Nodup := by
  induction nodes using List.reverseRecOn with
  | nil => simp
  | append_singleton nodes n ih =>
    have hnodes : Named nodes := by
      intro before m after he
      exact hn before m (after ++ [n]) (by rw [he]; simp)
    have hlast := hn nodes n [] rfl
    rw [List.map_append, List.nodup_append]
    refine ⟨ih hnodes, by simp, ?_⟩
    intro name hname name' hname' he
    obtain rfl : name' = n.mangled := by simpa using hname'
    rw [he, hlast] at hname
    exact freshName_notMem _ _ _ hname

/-- **Output names are unique.**  The names of a call graph are pairwise distinct.  Each function counts
the earlier ones of the same plain name, and its own name is the plain one if there are none and it is
free, and otherwise the one with the least free number from that count, and from one, on.  The search
for it ends whatever names are taken. -/
theorem collect_names {host : Host} {entry : Handle} {g : CallGraph}
    (hg : (collect host entry).2 = .ok g) :
    (g.nodes.map Node.mangled).Nodup ∧
    (∀ before n after, g.nodes = before ++ n :: after →
      n.overload = (before.filter fun m => baseName m.signature = baseName n.signature).length ∧
      if n.overload = 0 ∧ baseName n.signature ∉ before.map Node.mangled then
        n.mangled = baseName n.signature
      else ∃ k, IsLeast {k | max n.overload 1 ≤ k ∧
            suffixed (baseName n.signature) k ∉ before.map Node.mangled} k ∧
          n.mangled = suffixed (baseName n.signature) k) ∧
    (∀ base overload taken, Search base taken base overload (freshName base overload taken)) := by
  have hn := named_of_collect hg
  refine ⟨hn.nodup, ?_, search_freshName⟩
  intro before n after he
  have hnext := hn before n after he
  have hoverload : n.overload
      = (before.filter fun m => baseName m.signature = baseName n.signature).length := by
    calc n.overload
        = before.countP fun m => baseName m.signature == baseName n.signature :=
          congrArg Node.overload hnext
      _ = _ := by simp only [List.countP_eq_length_filter, beq_eq_decide]
  have hmangled : n.mangled
      = freshName (baseName n.signature) n.overload (before.map Node.mangled) := by
    rw [hnext]
    rfl
  refine ⟨hoverload, ?_⟩
  rw [hmangled]
  exact freshName_rule _ _ _

/-- A host where the plain name of one function is the numbered name of another. -/
def crowdedHost : Host :=
  [⟨"main", "Main", [], [1, 2, 3], [], false⟩, ⟨"f", "Main", [], [], [], true⟩,
    ⟨"f", "Main", ["Int"], [], [], false⟩, ⟨"f_1", "Main", [], [], [], false⟩].foldl
    (fun (h : Host) f => (h.add f).1) {}

/-- The numbered name comes first, so the plain one gets a number of its own. -/
theorem collect_names_crowdedHost : ∃ g, (collect crowdedHost ⟨0⟩).2 = .ok g ∧
    g.nodes.map Node.mangled = ["Main_main", "Main_f", "Main_f_1", "Main_f_1_1"] ∧
    (g.nodes.map Node.mangled).Nodup := by
  have heval : ((collect crowdedHost ⟨0⟩).2.toOption.map fun g => g.nodes.map Node.mangled)
      = some (["Main_main", "Main_f", "Main_f_1", "Main_f_1_1"] : List Text) := by decide +kernel
  cases hg : (collect crowdedHost ⟨0⟩).2 with
  | error e =>
    rw [hg] at heval
    exact absurd heval (by simp [Except.toOption])
  | ok g =>
    rw [hg] at heval
    exact ⟨g, rfl, Option.some.inj heval, (collect_names hg).1⟩

end Freestanding.CallGraph
