import Freestanding.Proofs.Attempt
import Freestanding.Proofs.Program.Cells

/-!
# Where variables come from

A global variable of the output is made from a constant, and there are two sources for constants: the
cells of the scopes that were scanned, and the memory of the host.  What a variable says about itself,
its lines and its output name, is determined by its constant and its qualified name.

A scan visits scope after scope and takes what it has found along.  It comes to the same to list the cells
of all scopes first, and then to add one after the other.

## Main definitions

* `Scope.candidates` — the cells that are to become variables, in the order in which they are visited.
* `Binding.ofConstant` — the variable of a cell whose contents have a static form.
* `Binding.Origin` — where the variable at an address comes from.

## Main results

* `Scope.visit_eq_foldlM`, `Scope.scan_eq_foldlM` — a visit adds the cells one after the other.
* `Scope.origin_of_scan` — the variables of a scan come from cells.
* `Linker.resolveCell_cases` — looking up a cell adds a variable made up from memory, or none.
-/

namespace Freestanding

/-! ### The cells of a tree -/

/-- A cell that is to become a binding. -/
structure Candidate where
  /-- The scope of the cell. -/
  owner : ScopePath
  /-- The cell's entry in that scope. -/
  entry : Entry

/-- Add a candidate to a scan. -/
def BindingScan.addCandidate (scan : BindingScan) (c : Candidate) : Logged BindingScan :=
  scan.add c.owner c.entry

namespace Scope

mutual

/-- The candidates of a scope that is reached by a path: its own in order, then those inside. -/
def candidatesAt (path : ScopePath) : Scope → List Candidate
  | .mk _ entries children =>
    (entries.filter Entry.isCandidate).map (Candidate.mk path) ++ candidatesInside path children

/-- The candidates of the scopes inside a scope. -/
def candidatesInside (path : ScopePath) : List Scope → List Candidate
  | [] => []
  | s :: rest => candidatesAt (path.child s.name) s ++ candidatesInside path rest

end

/-- The candidates of a scope and of the scopes inside it. -/
def candidates (root : Scope) : List Candidate :=
  root.candidatesAt [root.name]

/-- The entries of a scope that are no candidates are passed over. -/
theorem foldlM_enter (path : ScopePath) (entries : List Entry) (scan : BindingScan) :
    entries.foldlM (BindingScan.enter path) scan =
      ((entries.filter Entry.isCandidate).map (Candidate.mk path)).foldlM BindingScan.addCandidate scan := by
  induction entries generalizing scan with
  | nil => rfl
  | cons e entries ih =>
    rw [List.foldlM_cons, BindingScan.enter, List.filter_cons]
    split
    · rw [List.map_cons, List.foldlM_cons]
      exact congrArg _ (funext ih)
    · rw [pure_bind, ih]

mutual

/-- **A visit adds the candidates of a scope one after the other.** -/
theorem visit_eq_foldlM (path : ScopePath) : ∀ (s : Scope) (scan : BindingScan),
    s.visit path scan = (s.candidatesAt path).foldlM BindingScan.addCandidate scan
  | .mk _ entries children, scan => by
    rw [visit, candidatesAt, List.foldlM_append, foldlM_enter]
    exact congrArg _ (funext (visitInside_eq_foldlM path children))

private theorem visitInside_eq_foldlM (path : ScopePath) : ∀ (ss : List Scope) (scan : BindingScan),
    visitInside path ss scan = (candidatesInside path ss).foldlM BindingScan.addCandidate scan
  | [], scan => by rw [visitInside, candidatesInside, List.foldlM_nil]
  | s :: rest, scan => by
    rw [visitInside, candidatesInside, List.foldlM_append, visit_eq_foldlM _ s]
    exact congrArg _ (funext (visitInside_eq_foldlM path rest))

end

theorem scan_eq_foldlM (root : Scope) : root.scan = root.candidates.foldlM BindingScan.addCandidate {} :=
  visit_eq_foldlM [root.name] root {}

end Scope

/-! ### Variables and their sources -/

namespace Binding

/-- The variable of a cell whose contents have the given static form. -/
def ofConstant (address : UInt64) (identifier : Text) (owner : ScopePath) (c : Constant) : Binding where
  address := address
  identifier := identifier
  owner := owner
  mangled := owner.mangle identifier
  definition := c.definition (owner.mangle identifier)
  declaration := c.declaration (owner.mangle identifier)

theorem make_of_constant? {v : Value} {c : Constant} (hc : v.constant? = some c) (address : UInt64)
    (identifier : Text) (owner : ScopePath) :
    (make address identifier owner v).run.value = .ok (ofConstant address identifier owner c) := by
  rw [make, hc]
  rfl

private theorem make_of_constant?_eq_none {v : Value} (hc : v.constant? = none) (address : UInt64)
    (identifier : Text) (owner : ScopePath) :
    ∃ e, (make address identifier owner v).run.value = .error e := by
  rw [make, hc]
  exact ⟨_, rfl⟩

/-- The name of the variable with a number among those made up in a scope. -/
def madeUpName (number : Nat) : Text :=
  "_global_" ++ Text.decimal number

/-- Where the variable at an address comes from: a cell of a scope, or the memory of the host.  A variable is
made up from memory where the scan has found no cell, and belongs to one of the given scopes. -/
inductive Origin (root : Scope) (heap : HeapImage) (scopes : List ScopePath) : UInt64 → Binding → Prop
  /-- The variable is a cell of a scope. -/
  | cell (c : Candidate) (k : Constant) (hc : c ∈ root.candidates)
      (hk : c.entry.cell.value.constant? = some k) :
      Origin root heap scopes c.entry.address
        (ofConstant c.entry.address c.entry.name c.owner k)
  /-- The variable has been made up. -/
  | memory (a : UInt64) (scope : ScopePath) (number : Nat) (v : Value) (k : Constant)
      (hnew : root.scan.value.bindings[a]? = none) (hscope : scope ∈ scopes)
      (hv : heap.reconstruct? a = some v) (hk : v.constant? = some k) :
      Origin root heap scopes a (ofConstant a (madeUpName number) scope k)

/-- Whatever its origin, a variable is made from the static form of a value. -/
theorem Origin.exists_constant {root : Scope} {heap : HeapImage} {scopes : List ScopePath} {a : UInt64}
    {b : Binding} (h : Origin root heap scopes a b) :
    ∃ (v : Value) (k : Constant), v.constant? = some k ∧ b = ofConstant a b.identifier b.owner k := by
  cases h with
  | cell c k _ hk => exact ⟨_, k, hk, rfl⟩
  | memory _ scope number v k _ _ _ hk => exact ⟨v, k, hk, rfl⟩

end Binding

/-! ### Scans -/

theorem Logged.value_foldlM {α σ : Type} (f : σ → α → Logged σ) (s : σ) (xs : List α) :
    (xs.foldlM f s).value = xs.foldl (fun s x => (f s x).value) s := by
  induction xs generalizing s with
  | nil => rfl
  | cons x xs ih => rw [List.foldlM_cons, Logged.value_bind, ih, List.foldl_cons]

namespace BindingScan

/-- A candidate becomes a variable if its contents have a static form, and is rejected otherwise. -/
theorem addCandidate_bindings (scan : BindingScan) (c : Candidate) :
    (scan.addCandidate c).value.bindings =
      match c.entry.cell.value.constant? with
      | some k => scan.bindings.insert c.entry.address
          (.ofConstant c.entry.address c.entry.name c.owner k)
      | none => scan.bindings := by
  rw [addCandidate, add, Logged.value_bind]
  cases hk : c.entry.cell.value.constant? with
  | some k =>
    rw [Binding.make_of_constant? hk]
    rfl
  | none =>
    obtain ⟨e, he⟩ := Binding.make_of_constant?_eq_none hk c.entry.address c.entry.name c.owner
    rw [he]
    rfl

end BindingScan

/-- **The variables of a scan come from cells.** -/
theorem Scope.origin_of_scan (root : Scope) (heap : HeapImage) (scopes : List ScopePath) {a : UInt64}
    {b : Binding} (h : root.scan.value.bindings[a]? = some b) : Binding.Origin root heap scopes a b := by
  -- the cells seen so far are a first part of the candidates
  have hall : ∀ (cs : List Candidate) (scan : BindingScan), cs ⊆ root.candidates →
      (∀ a b, scan.bindings[a]? = some b → Binding.Origin root heap scopes a b) →
      ∀ a b, (cs.foldl (fun s c => (BindingScan.addCandidate s c).value) scan).bindings[a]? = some b →
        Binding.Origin root heap scopes a b := by
    intro cs
    induction cs with
    | nil => exact fun scan _ hscan => hscan
    | cons c cs ih =>
      intro scan hsub hscan
      refine ih _ (fun x hx => hsub (List.mem_cons_of_mem _ hx)) fun a b hb => ?_
      rw [BindingScan.addCandidate_bindings] at hb
      split at hb
      · next k hk =>
        rcases Std.ExtTreeMap.getElem?_insert_cases hb with ⟨rfl, rfl⟩ | hb
        · exact .cell c k (hsub List.mem_cons_self) hk
        · exact hscan a b hb
      · exact hscan a b hb
  rw [Scope.scan_eq_foldlM, Logged.value_foldlM] at h
  exact hall root.candidates {} (List.Subset.refl _) (fun _ _ h => absurd h (by simp)) a b h

/-! ### Lookups -/

namespace Linker

/-- Making up a variable takes the next number of the scope. -/
theorem synthesize_value {heap : HeapImage} {a : UInt64} {v : Value} {k : Constant}
    (hv : heap.reconstruct? a = some v) (hk : v.constant? = some k) (scope : ScopePath)
    (counters : Counters) :
    (synthesize heap scope a counters).value =
      (counters.insert scope (counters.getD scope 0 + 1),
        .ok (.ofConstant a (Binding.madeUpName (counters.getD scope 0 + 1)) scope k)) := by
  simp only [synthesize, hv, Logged.value_bind, Binding.make_of_constant? hk]
  rfl

/-- **Looking up a cell adds a variable made up from memory, or none.** -/
theorem resolveCell_cases (heap : HeapImage) (f : Routine) (a : UInt64) (old : Text) (s : Linker)
    (refs : References) :
    ((resolveCell heap f a old s refs).value.1.known = s.known ∧
      (resolveCell heap f a old s refs).value.1.counters = s.counters) ∨
    s.known[a]? = none ∧ ∃ v k, heap.reconstruct? a = some v ∧ v.constant? = some k ∧
      (resolveCell heap f a old s refs).value.1.known = s.known.insert a
        (.ofConstant a (Binding.madeUpName (s.counters.getD f.scope 0 + 1)) f.scope k) ∧
      (resolveCell heap f a old s refs).value.1.counters =
        s.counters.insert f.scope (s.counters.getD f.scope 0 + 1) := by
  cases hknown : s.known[a]? with
  | some b =>
    left
    simp only [resolveCell, obtain, hknown, Logged.value_bind, Logged.value_pure, and_self]
  | none =>
    cases hv : heap.reconstruct? a with
    | none =>
      left
      obtain ⟨e, he⟩ := synthesize_eq_error f.scope s.counters hv
      simp only [resolveCell, obtain, hknown, he, Logged.value_bind, Logged.value_pure, and_self]
    | some v =>
      right
      obtain ⟨k, hk⟩ := heap.constant?_of_reconstruct? hv
      have hmade := synthesize_value hv hk f.scope s.counters
      refine ⟨rfl, v, k, rfl, hk, ?_, ?_⟩
      · simp only [resolveCell, obtain, hknown, hmade, Logged.value_bind, Logged.value_pure]
      · simp only [resolveCell, obtain, hknown, hmade, Logged.value_bind, Logged.value_pure]

end Linker

end Freestanding
