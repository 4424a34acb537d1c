import Freestanding.Proofs.CallGraph.Walk
import Freestanding.Proofs.Host.Compiling

/-!
# Reachable functions and their order

What a call graph has to contain, said without the walk that finds it.  A function is reached from the
entry along calls; a function that only raises errors is not followed, unless it is the entry itself.
Breadth-first order lists the reached functions by their distance from the entry, and functions of the
same distance in the order in which the calls of the nearer ones mention them first.

A list that is its own discovery list, that is, the entry and then the callees of its members one after
the other without repetitions, is in that order.

## Main definitions

* `CallGraph.skips` — a function that is left out.
* `CallGraph.followed` — the calls of a function that are followed.
* `CallGraph.Reached` — the functions that a program needs.
* `CallGraph.layer`, `CallGraph.within` — the functions at a distance, and up to a distance.

## Main results

* `CallGraph.within_succ` — all functions up to a distance are discovered from those one step nearer.
* `CallGraph.exists_eq_within` — a list of reached functions that is its own discovery list is in
  breadth-first order.
-/

namespace Freestanding.CallGraph

/-- A function of the host that only raises errors and is not the entry. -/
def skips (host : Host) (entry f : Handle) : Bool :=
  match host.describe f with
  | .ok s => f != entry && skipped.contains s.name
  | .error _ => false

@[simp] theorem skips_entry (host : Host) (entry : Handle) : skips host entry entry = false := by
  unfold skips
  split <;> simp

/-- The functions that a function calls and that are not left out, in order. -/
def followed (host : Host) (entry f : Handle) : List Handle :=
  (host.called f).filter (!skips host entry ·)

/-- The functions that are reached from the entry. -/
inductive Reached (host : Host) (entry : Handle) : Handle → Prop
  /-- The entry itself. -/
  | entry : Reached host entry entry
  /-- A function that a reached function calls and that is not left out. -/
  | call {f g : Handle} : Reached host entry f → g ∈ followed host entry f → Reached host entry g

/-! ### Breadth-first order -/

/-- The functions at most `n` calls away from the entry, and among them those that are `n` calls away.
The latter come in the order in which the functions one call nearer mention them first. -/
def layers (host : Host) (entry : Handle) : Nat → List Handle × List Handle
  | 0 => ([entry], [entry])
  | n + 1 =>
    let (nearer, last) := layers host entry n
    let next := (last.flatMap (followed host entry)).eraseDups.filter (· ∉ nearer)
    (nearer ++ next, next)

/-- The functions that are `n` calls away from the entry. -/
def layer (host : Host) (entry : Handle) (n : Nat) : List Handle :=
  (layers host entry n).2

/-- The functions that are at most `n` calls away from the entry, the nearest first. -/
def within (host : Host) (entry : Handle) (n : Nat) : List Handle :=
  (layers host entry n).1

section

variable (host : Host) (entry : Handle)

@[simp] theorem within_zero : within host entry 0 = [entry] := rfl

@[simp] theorem layer_zero : layer host entry 0 = [entry] := rfl

theorem layer_succ (n : Nat) : layer host entry (n + 1) =
    ((layer host entry n).flatMap (followed host entry)).eraseDups.filter
      (· ∉ within host entry n) := rfl

theorem within_succ_eq_append (n : Nat) :
    within host entry (n + 1) = within host entry n ++ layer host entry (n + 1) := rfl

/-- What is found from a list of functions: the entry and then their callees, each once. -/
def discovered (l : List Handle) : List Handle :=
  (entry :: l.flatMap (followed host entry)).eraseDups

theorem mem_discovered {l : List Handle} {g : Handle} :
    g ∈ discovered host entry l ↔ g = entry ∨ ∃ f ∈ l, g ∈ followed host entry f := by
  simp [discovered, List.mem_eraseDups]

theorem discovered_append (l m : List Handle) : discovered host entry (l ++ m) =
    discovered host entry l ++ ((m.flatMap (followed host entry)).eraseDups.filter
      (· ∉ discovered host entry l)) := by
  unfold discovered
  rw [List.flatMap_append, ← List.cons_append, List.eraseDups_append_filter,
    List.eraseDups_filter]
  congr 2
  funext x
  simp [List.mem_eraseDups]

/-- The functions up to a distance are what is found from those one call nearer. -/
theorem within_succ (n : Nat) :
    within host entry (n + 1) = discovered host entry (within host entry n) := by
  induction n with
  | zero =>
    rw [within_succ_eq_append, layer_succ, within_zero, layer_zero]
    simp only [discovered, List.flatMap_cons, List.flatMap_nil, List.append_nil]
    rw [List.eraseDups_cons, List.eraseDups_filter, List.singleton_append]
    congr 2
    funext x
    by_cases hx : x = entry <;> simp [hx]
  | succ n ih =>
    calc within host entry (n + 2)
        = within host entry (n + 1) ++ layer host entry (n + 2) := rfl
      _ = discovered host entry (within host entry n) ++
            ((layer host entry (n + 1)).flatMap (followed host entry)).eraseDups.filter
              (· ∉ discovered host entry (within host entry n)) := by rw [layer_succ, ih]
      _ = discovered host entry (within host entry n ++ layer host entry (n + 1)) := by
          rw [discovered_append]
      _ = discovered host entry (within host entry (n + 1)) := by rw [within_succ_eq_append]

variable {host entry} {l : List Handle}

/-- A list that is its own discovery list starts with the functions up to any distance. -/
theorem within_isPrefix (hl : l = discovered host entry l) (n : Nat) :
    within host entry n <+: l := by
  induction n with
  | zero =>
    rw [hl, within_zero, discovered, List.eraseDups_cons]
    exact ⟨_, rfl⟩
  | succ n ih =>
    obtain ⟨rest, hrest⟩ := ih
    rw [within_succ, hl, ← hrest, discovered_append]
    exact ⟨_, rfl⟩

/-- If no function is exactly one call further away, all reached functions are near. -/
theorem mem_within_of_reached {n : Nat} (hn : within host entry (n + 1) = within host entry n)
    {g : Handle} (hg : Reached host entry g) : g ∈ within host entry n := by
  rw [← hn, within_succ, mem_discovered]
  induction hg with
  | entry => exact Or.inl rfl
  | @call f g _ hfg ih =>
    refine Or.inr ⟨f, ?_, hfg⟩
    rw [← hn, within_succ, mem_discovered]
    exact ih

/-- **A list of reached functions that is its own discovery list is in breadth-first order.** -/
theorem exists_eq_within (hl : l = discovered host entry l)
    (hr : ∀ g ∈ l, Reached host entry g) : ∃ n, l = within host entry n := by
  have hnodup : l.Nodup := by
    rw [hl]
    exact List.nodup_eraseDups _
  -- As long as the layers go on, the lists get longer, which the length of `l` ends.
  have key : ∀ n, (∃ m, l = within host entry m) ∨ n < (within host entry n).length := by
    intro n
    induction n with
    | zero => exact Or.inr (by simp)
    | succ n ih =>
      rcases ih with ih | ih
      · exact Or.inl ih
      by_cases hn : within host entry (n + 1) = within host entry n
      · refine Or.inl ⟨n, ?_⟩
        obtain ⟨rest, hrest⟩ := within_isPrefix hl n
        cases rest with
        | nil => simpa using hrest.symm
        | cons g rest =>
          have hg : g ∈ l := by rw [← hrest]; simp
          have hmem := mem_within_of_reached hn (hr g hg)
          rw [← hrest, List.nodup_append] at hnodup
          exact absurd rfl (hnodup.2.2 g hmem g (by simp))
      · refine Or.inr ?_
        rw [within_succ_eq_append] at hn ⊢
        have hne : layer host entry (n + 1) ≠ [] := by
          intro hnil
          rw [hnil, List.append_nil] at hn
          exact hn rfl
        have := List.length_pos_iff.mpr hne
        rw [List.length_append]
        omega
  rcases key l.length with h | h
  · exact h
  · have := (within_isPrefix hl l.length).length_le
    omega

end

end Freestanding.CallGraph
