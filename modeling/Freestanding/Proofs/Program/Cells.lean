import Freestanding.Program.Link
import Freestanding.Proofs.OrderedMap

/-!
# Looking up cells

Linking looks up one cell after the other.  A lookup finds the variable that is known at an address,
or makes one up from the host's memory and remembers it, or reports that there is none.  Which of the
three it is depends only on the variables known at the start and on the memory: the table of variables
grows, but only by cells that could have been made up from the start.

So what a function's references become can be told from the table at the very end, however many
lookups lie in between.

## Main definitions

* `Linker.Resolvable` — a variable is known at an address, or can be made up.
* `Linker.Extends` — a table of variables that has grown while cells were looked up.
* `Linker.Looked` — what one lookup can do.
* `Linker.Filed` — the variables of the cells seen so far are in the units of their owners.
* `Linker.Advance` — what a number of lookups does to the state of linking.
* `Linker.References.resolve` — what references become, given a table of variables.

## Main results

* `Linker.looked_resolveCell` — a lookup does nothing else.
* `Linker.advance_resolveCells`, `Linker.resolveCells_eq_resolve` — the cells of one function.
-/

namespace Freestanding

/-! ### Variables made up from memory -/

/-- What is rebuilt from memory is a string or a byte string, and both have a static form. -/
theorem HeapImage.constant?_of_reconstruct? {heap : HeapImage} {a : UInt64} {v : Value}
    (h : heap.reconstruct? a = some v) : ∃ c, v.constant? = some c := by
  simp only [HeapImage.reconstruct?, Option.bind_eq_bind, Option.bind_eq_some_iff] at h
  obtain ⟨tag, -, h⟩ := h
  split at h
  · obtain ⟨length, -, h⟩ := Option.bind_eq_some_iff.mp h
    split at h
    · exact absurd h (by simp)
    · simp only [Option.bind_eq_some_iff] at h
      obtain ⟨start, -, bytes, -, h⟩ := h
      rw [← Option.some.inj h]
      exact ⟨_, rfl⟩
  · split at h
    · obtain ⟨size, -, h⟩ := Option.bind_eq_some_iff.mp h
      split at h
      · exact absurd h (by simp)
      · obtain ⟨bytes, -, h⟩ := Option.bind_eq_some_iff.mp h
        rw [← Option.some.inj h]
        exact ⟨_, rfl⟩
    · exact absurd h (by simp)

namespace Linker

/-- A variable is known at an address, or can be made up from what the host's memory holds there. -/
def Resolvable (heap : HeapImage) (known : Bindings) (a : UInt64) : Prop :=
  a ∈ known ∨ (heap.reconstruct? a).isSome

instance (heap : HeapImage) (known : Bindings) (a : UInt64) : Decidable (Resolvable heap known a) :=
  inferInstanceAs (Decidable (_ ∨ _))

theorem synthesize_eq_error {heap : HeapImage} {a : UInt64} (scope : ScopePath) (counters : Counters)
    (h : heap.reconstruct? a = none) :
    ∃ e, (synthesize heap scope a counters).value = (counters, .error e) := by
  rw [synthesize, h]
  exact ⟨_, rfl⟩

private theorem synthesize_eq_ok {heap : HeapImage} {a : UInt64} (scope : ScopePath) (counters : Counters)
    (h : (heap.reconstruct? a).isSome) :
    ∃ b counters', b.address = a ∧ b.owner = scope ∧
      (synthesize heap scope a counters).value = (counters', .ok b) := by
  obtain ⟨v, hv⟩ := Option.isSome_iff_exists.mp h
  obtain ⟨c, hc⟩ := heap.constant?_of_reconstruct? hv
  simp only [synthesize, hv, Binding.make, hc]
  exact ⟨_, _, rfl, rfl, rfl⟩

/-! ### Tables that grow -/

/-- One table of variables goes beyond another only by cells that could be made up. -/
structure Extends (heap : HeapImage) (known known' : Bindings) : Prop where
  /-- What is known stays. -/
  keep : ∀ (a : UInt64) (b : Binding), known[a]? = some b → known'[a]? = some b
  /-- What is new has been made up. -/
  made : ∀ (a : UInt64) (b : Binding), known'[a]? = some b →
    known[a]? = some b ∨ (heap.reconstruct? a).isSome ∧ b.address = a

namespace Extends

variable {heap : HeapImage} {known known' known'' : Bindings}

theorem refl (heap : HeapImage) (known : Bindings) : Extends heap known known :=
  ⟨fun _ _ h => h, fun _ _ h => .inl h⟩

theorem mem (h : Extends heap known known') {a : UInt64} (ha : a ∈ known) : a ∈ known' := by
  obtain ⟨b, hb⟩ := Std.ExtTreeMap.mem_iff_exists.mp ha
  exact Std.ExtTreeMap.mem_iff_exists.mpr ⟨b, h.keep a b hb⟩

theorem resolvable (h : Extends heap known known') {a : UInt64} (ha : a ∈ known') :
    Resolvable heap known a := by
  obtain ⟨b, hb⟩ := Std.ExtTreeMap.mem_iff_exists.mp ha
  rcases h.made a b hb with hk | ⟨hr, -⟩
  · exact .inl (Std.ExtTreeMap.mem_iff_exists.mpr ⟨b, hk⟩)
  · exact .inr hr

/-- The cells that can be resolved are the same at every stage. -/
theorem resolvable_iff (h : Extends heap known known') (a : UInt64) :
    Resolvable heap known' a ↔ Resolvable heap known a := by
  constructor
  · rintro (ha | ha)
    · exact h.resolvable ha
    · exact .inr ha
  · rintro (ha | ha)
    · exact .inl (h.mem ha)
    · exact .inr ha

theorem trans (h : Extends heap known known') (h' : Extends heap known' known'') :
    Extends heap known known'' where
  keep a b hb := h'.keep a b (h.keep a b hb)
  made a b hb := by
    rcases h'.made a b hb with hb | hb
    · exact h.made a b hb
    · exact .inr hb

/-- A cell that has been looked up has its final variable. -/
theorem getElem?_eq (h : Extends heap known known') {a : UInt64}
    (ha : Resolvable heap known a → a ∈ known) : known'[a]? = known[a]? := by
  by_cases hr : a ∈ known
  · obtain ⟨b, hb⟩ := Std.ExtTreeMap.mem_iff_exists.mp hr
    rw [hb, h.keep a b hb]
  · have hr' : a ∉ known' := fun h' => hr (ha (h.resolvable h'))
    rw [Std.ExtTreeMap.getElem?_eq_none hr, Std.ExtTreeMap.getElem?_eq_none hr']

end Extends

/-! ### One lookup -/

/-- A variable goes into a unit. -/
def file (a : UInt64) (b : Binding) (u : ScopeUnit) : ScopeUnit :=
  { u with bindings := u.bindings.insert a b }

/-- The references of a function once an old symbol stands for a variable. -/
def References.enter (refs : References) (old : Text) (b : Binding) : References where
  externals := refs.externals.insert b.symbol b.declaration
  renames := refs.renames.insert old b.symbol

/-- What looking up a cell can do to the state and to the references of the function: there is no
variable for the cell, and this is reported; or there is one, which is in the table afterwards. -/
inductive Looked (heap : HeapImage) (name : Text) (a : UInt64) (old : Text) (s : Linker)
    (refs : References) : Linker × References → Prop
  /-- The cell has no variable. -/
  | missing (h : ¬ Resolvable heap s.known a) :
    Looked heap name a old s refs
      ({ s with diagnostics := s.diagnostics ++ [.missingBinding name a] }, refs)
  /-- The cell has a variable, perhaps a new one. -/
  | found (b : Binding) (known : Bindings) (counters : Counters)
      (hext : Extends heap s.known known) (hb : known[a]? = some b)
      (hrest : ∀ a', a' ≠ a → known[a']? = s.known[a']?) :
    Looked heap name a old s refs
      ({ s with units := s.units.update b.owner (file a b), known, counters }, refs.enter old b)

/-- A table that takes in a variable made up from memory. -/
theorem extends_insert {heap : HeapImage} {known : Bindings} {a : UInt64} {b : Binding}
    (hnew : known[a]? = none) (hmade : (heap.reconstruct? a).isSome) (hb : b.address = a) :
    Extends heap known (known.insert a b) where
  keep a' b' hb' := by
    have hne : a ≠ a' := by
      rintro rfl
      rw [hnew] at hb'
      exact absurd hb' (by simp)
    rw [Std.ExtTreeMap.getElem?_insert, if_neg (by simpa using hne), hb']
  made a' b' hb' := by
    rw [Std.ExtTreeMap.getElem?_insert] at hb'
    split at hb'
    · rename_i h
      rw [← Std.LawfulEqOrd.eq_of_compare h, ← Option.some.inj hb']
      exact .inr ⟨hmade, hb⟩
    · exact .inl hb'

/-- **A lookup finds a variable, makes one up, or reports that there is none.** -/
theorem looked_resolveCell (heap : HeapImage) (f : Routine) (a : UInt64) (old : Text) (s : Linker)
    (refs : References) :
    Looked heap f.name a old s refs (resolveCell heap f a old s refs).value := by
  -- a known variable is used as it is; memory is asked only for a cell that has none
  cases hk : s.known[a]? with
  | some b =>
    simp only [resolveCell, obtain, hk, Logged.value_bind, Logged.value_pure]
    exact .found b s.known s.counters (.refl heap s.known) hk fun _ _ => rfl
  | none =>
    have hnot : a ∉ s.known := by
      rw [Std.ExtTreeMap.mem_iff_exists, hk]
      rintro ⟨b, hb⟩
      exact absurd hb (by simp)
    cases hr : heap.reconstruct? a with
    | none =>
      obtain ⟨e, he⟩ := synthesize_eq_error f.scope s.counters hr
      simp only [resolveCell, obtain, hk, he, Logged.value_bind, Logged.value_pure]
      refine .missing ?_
      rintro (h | h)
      · exact hnot h
      · rw [hr] at h
        exact absurd h (by simp)
    | some v =>
      have hmade : (heap.reconstruct? a).isSome := by rw [hr]; rfl
      obtain ⟨b, counters, ha, -, hb⟩ := synthesize_eq_ok f.scope s.counters hmade
      simp only [resolveCell, obtain, hk, hb, Logged.value_bind, Logged.value_pure]
      refine .found b (s.known.insert a b) counters (extends_insert hk hmade ha)
        Std.ExtTreeMap.getElem?_insert_self ?_
      intro a' ha'
      rw [Std.ExtTreeMap.getElem?_insert, if_neg (by simpa using Ne.symm ha')]

/-! ### Units -/

theorem getElem?_update (units : ScopeUnits) (scope scope' : ScopePath) (f : ScopeUnit → ScopeUnit) :
    (units.update scope f)[scope']? =
      if scope = scope' then some (f (units.unit scope)) else units[scope']? := by
  rw [ScopeUnits.update, Std.ExtTreeMap.getElem?_insert]
  by_cases h : scope = scope'
  · rw [if_pos (by simpa using h), if_pos h]
  · rw [if_neg (by simpa using h), if_neg h]

/-- The units of a program hold exactly the variables of the cells in `seen`, each in the unit of its
owner. -/
structure Filed (known : Bindings) (seen : List UInt64) (units : ScopeUnits) : Prop where
  /-- A unit stands under its scope. -/
  scope_eq : ∀ (scope : ScopePath) (u : ScopeUnit), units[scope]? = some u → u.scope = scope
  /-- A unit holds only variables that it owns, of cells that were seen. -/
  owned : ∀ (scope : ScopePath) (u : ScopeUnit) (a : UInt64) (b : Binding), units[scope]? = some u →
    u.bindings[a]? = some b → known[a]? = some b ∧ b.owner = scope ∧ a ∈ seen
  /-- The variable of a cell that was seen is in a unit. -/
  filed : ∀ a ∈ seen, ∀ b : Binding, known[a]? = some b →
    ∃ u, units[b.owner]? = some u ∧ u.bindings[a]? = some b

namespace Filed

variable {known : Bindings} {seen : List UInt64} {units : ScopeUnits}

theorem empty (known : Bindings) : Filed known [] ∅ where
  scope_eq scope u h := absurd h (by simp)
  owned scope u a b h := absurd h (by simp)
  filed a ha := absurd ha (by simp)

theorem unit_scope (h : Filed known seen units) (scope : ScopePath) :
    (units.unit scope).scope = scope := by
  rw [ScopeUnits.unit, Std.ExtTreeMap.getD_eq_getD_getElem?]
  cases hu : units[scope]? with
  | none => rfl
  | some u => exact h.scope_eq scope u hu

theorem unit_owned (h : Filed known seen units) {scope : ScopePath} {a : UInt64} {b : Binding}
    (hb : (units.unit scope).bindings[a]? = some b) :
    known[a]? = some b ∧ b.owner = scope ∧ a ∈ seen := by
  rw [ScopeUnits.unit, Std.ExtTreeMap.getD_eq_getD_getElem?] at hb
  cases hu : units[scope]? with
  | none =>
    rw [hu] at hb
    exact absurd hb (by simp)
  | some u =>
    rw [hu] at hb
    exact h.owned scope u a b hu hb

theorem unit_filed (h : Filed known seen units) {a : UInt64} {b : Binding} (ha : a ∈ seen)
    (hb : known[a]? = some b) : (units.unit b.owner).bindings[a]? = some b := by
  obtain ⟨u, hu, hub⟩ := h.filed a ha b hb
  rw [ScopeUnits.unit, Std.ExtTreeMap.getD_eq_getD_getElem?, hu]
  exact hub

/-- A unit may change in all but its variables. -/
theorem update (h : Filed known seen units) (scope : ScopePath) (f : ScopeUnit → ScopeUnit)
    (hscope : ∀ u, (f u).scope = u.scope) (hf : ∀ u, (f u).bindings = u.bindings) :
    Filed known seen (units.update scope f) where
  scope_eq scope' u hu := by
    rw [getElem?_update] at hu
    split at hu
    · rename_i hs
      rw [← Option.some.inj hu, hscope, h.unit_scope, hs]
    · exact h.scope_eq scope' u hu
  owned scope' u a b hu hb := by
    rw [getElem?_update] at hu
    split at hu
    · rename_i hs
      rw [← Option.some.inj hu, hf] at hb
      exact hs ▸ h.unit_owned hb
    · exact h.owned scope' u a b hu hb
  filed a ha b hb := by
    rw [getElem?_update]
    split
    · rename_i hs
      refine ⟨_, rfl, ?_⟩
      rw [hf, hs]
      exact h.unit_filed ha hb
    · exact h.filed a ha b hb

/-- A variable of the table goes into the unit of its owner. -/
theorem file (h : Filed known seen units) {known' : Bindings} {a : UInt64} {b : Binding}
    (hb : known'[a]? = some b) (hrest : ∀ a', a' ≠ a → known'[a']? = known[a']?)
    (hkeep : ∀ b', known[a]? = some b' → b' = b) :
    Filed known' (seen ++ [a]) (units.update b.owner (Linker.file a b)) where
  scope_eq scope' u hu := by
    rw [getElem?_update] at hu
    split at hu
    · rename_i hs
      rw [← Option.some.inj hu, Linker.file, h.unit_scope, hs]
    · exact h.scope_eq scope' u hu
  owned scope' u a' b' hu hb' := by
    -- what was in a unit before is still in the table: the cell keeps its variable if it had one
    have hold : known[a']? = some b' ∧ b'.owner = scope' ∧ a' ∈ seen →
        known'[a']? = some b' ∧ b'.owner = scope' ∧ a' ∈ seen ++ [a] := by
      rintro ⟨hk, ho, hm⟩
      refine ⟨?_, ho, List.mem_append_left _ hm⟩
      by_cases ha : a' = a
      · subst ha
        rw [hb, hkeep b' hk]
      · rw [hrest a' ha, hk]
    rw [getElem?_update] at hu
    split at hu
    · rename_i hs
      rw [← Option.some.inj hu, Linker.file, Std.ExtTreeMap.getElem?_insert] at hb'
      split at hb'
      · rename_i ha
        have ha : a = a' := by simpa using ha
        have hbb : b = b' := Option.some.inj hb'
        subst ha hbb
        exact ⟨hb, hs, by simp⟩
      · exact hold (hs ▸ h.unit_owned hb')
    · exact hold (h.owned scope' u a' b' hu hb')
  filed a' ha' b' hb' := by
    by_cases ha : a' = a
    · subst ha
      have hbb : b = b' := Option.some.inj (hb.symm.trans hb')
      subst hbb
      refine ⟨_, by rw [getElem?_update, if_pos rfl], ?_⟩
      exact Std.ExtTreeMap.getElem?_insert_self
    · have hmem : a' ∈ seen := by simpa [ha] using ha'
      rw [hrest a' ha] at hb'
      rw [getElem?_update]
      split
      · rename_i hs
        refine ⟨_, rfl, ?_⟩
        rw [Linker.file, Std.ExtTreeMap.getElem?_insert, if_neg (by simpa using Ne.symm ha), hs]
        exact h.unit_filed hmem hb'
      · exact h.filed a' hmem b' hb'

end Filed

/-! ### Lookups in a row -/

/-- The reports about those of the given cells that have no variable. -/
def reports (heap : HeapImage) (known : Bindings) (name : Text) (cells : List (UInt64 × Text)) :
    List Error :=
  (cells.filter fun c => ¬ Resolvable heap known c.1).map fun c => .missingBinding name c.1

theorem Extends.reports_eq {heap : HeapImage} {known known' : Bindings}
    (h : Extends heap known known') (name : Text) (cells : List (UInt64 × Text)) :
    reports heap known' name cells = reports heap known name cells := by
  simp only [reports, h.resolvable_iff]

/-- From one state of linking to a later one, where the cells at the addresses `looked` have been
looked up in between and `missed` has been reported. -/
structure Advance (heap : HeapImage) (s s' : Linker) (looked : List UInt64) (missed : List Error) :
    Prop where
  /-- The table has grown by made-up variables only. -/
  ext : Extends heap s.known s'.known
  /-- The variable of a cell that was looked up is in the table. -/
  settled : ∀ a ∈ looked, Resolvable heap s.known a → a ∈ s'.known
  /-- The variables are in the units of their owners. -/
  filed : ∀ seen, Filed s.known seen s.units → Filed s'.known (seen ++ looked) s'.units
  /-- The reports come after earlier ones. -/
  diagnostics : s'.diagnostics = s.diagnostics ++ missed

namespace Advance

variable {heap : HeapImage} {s s' s'' : Linker} {looked looked' : List UInt64}
  {missed missed' : List Error}

theorem refl (heap : HeapImage) (s : Linker) : Advance heap s s [] [] where
  ext := .refl heap s.known
  settled a ha := absurd ha (by simp)
  filed seen h := by rwa [List.append_nil]
  diagnostics := (List.append_nil _).symm

theorem trans (h : Advance heap s s' looked missed) (h' : Advance heap s' s'' looked' missed') :
    Advance heap s s'' (looked ++ looked') (missed ++ missed') where
  ext := h.ext.trans h'.ext
  settled a ha hr := by
    rcases List.mem_append.mp ha with ha | ha
    · exact h'.ext.mem (h.settled a ha hr)
    · exact h'.settled a ha ((h.ext.resolvable_iff a).mpr hr)
  filed seen hs := by
    rw [← List.append_assoc]
    exact h'.filed _ (h.filed seen hs)
  diagnostics := by rw [h'.diagnostics, h.diagnostics, List.append_assoc]

/-- The final variable of a cell that was looked up is the one that is in the table already. -/
theorem getElem?_eq (h : Advance heap s s' looked missed) {known : Bindings}
    (hext : Extends heap s'.known known) {a : UInt64} (ha : a ∈ looked) :
    known[a]? = s'.known[a]? :=
  hext.getElem?_eq fun hr => h.settled a ha ((h.ext.resolvable_iff a).mp hr)

end Advance

theorem Looked.advance {heap : HeapImage} {name : Text} {a : UInt64} {old : Text} {s : Linker}
    {refs : References} {r : Linker × References} (h : Looked heap name a old s refs r) :
    Advance heap s r.1 [a] (reports heap s.known name [(a, old)]) := by
  cases h with
  | missing h =>
    have hm : reports heap s.known name [(a, old)] = [.missingBinding name a] := by
      simp [reports, h]
    refine ⟨.refl heap s.known, ?_, ?_, by rw [hm]⟩
    · intro a' ha' hr
      rw [List.mem_singleton.mp ha'] at hr
      exact absurd hr h
    · -- the cell counts as seen, but it has no variable that could be in a unit
      intro seen hs
      refine ⟨hs.scope_eq, ?_, ?_⟩
      · intro scope u a' b hu hb
        obtain ⟨hk, ho, hm⟩ := hs.owned scope u a' b hu hb
        exact ⟨hk, ho, List.mem_append_left _ hm⟩
      · intro a' ha' b hb
        rcases List.mem_append.mp ha' with hm | hm
        · exact hs.filed a' hm b hb
        · rw [List.mem_singleton.mp hm] at hb
          exact absurd (.inl (Std.ExtTreeMap.mem_iff_exists.mpr ⟨b, hb⟩)) h
  | found b known counters hext hb hrest =>
    have hin : a ∈ known := Std.ExtTreeMap.mem_iff_exists.mpr ⟨b, hb⟩
    have hm : reports heap s.known name [(a, old)] = [] := by
      simp [reports, hext.resolvable hin]
    refine ⟨hext, ?_, ?_, by rw [hm, List.append_nil]⟩
    · intro a' ha' _
      rw [List.mem_singleton.mp ha']
      exact hin
    · intro seen hs
      refine hs.file hb hrest ?_
      intro b' hb'
      exact Option.some.inj ((hext.keep a b' hb').symm.trans hb)

/-- **Looking up the cells of a function**: the table grows, the variables go to the units of their
owners, and the cells without one are reported in order. -/
theorem advance_resolveCells (heap : HeapImage) (f : Routine) (cells : List (UInt64 × Text))
    (s : Linker) (refs : References) :
    Advance heap s (resolveCells heap f cells s refs).value.1 (cells.map Prod.fst)
      (reports heap s.known f.name cells) := by
  induction cells generalizing s refs with
  | nil => exact .refl heap s
  | cons c cells ih =>
    have hstep := (looked_resolveCell heap f c.1 c.2 s refs).advance
    have hrest := ih (resolveCell heap f c.1 c.2 s refs).value.1
      (resolveCell heap f c.1 c.2 s refs).value.2
    -- later cells are judged by the grown table, which resolves the same cells as the first one
    rw [hstep.ext.reports_eq] at hrest
    have hsplit : reports heap s.known f.name (c :: cells) =
        reports heap s.known f.name [c] ++ reports heap s.known f.name cells := by
      rw [reports, reports, reports, ← List.map_append, ← List.filter_append]
      rfl
    rw [hsplit]
    exact hstep.trans hrest

/-! ### References -/

/-- What the references of a function become, given the variables of all cells. -/
def References.resolve (known : Bindings) (refs : References) (cells : List (UInt64 × Text)) :
    References :=
  cells.foldl (fun refs c => (known[c.1]?).elim refs (refs.enter c.2)) refs

@[simp] theorem References.resolve_cons (known : Bindings) (refs : References) (c : UInt64 × Text)
    (cells : List (UInt64 × Text)) :
    refs.resolve known (c :: cells) =
      References.resolve known ((known[c.1]?).elim refs (refs.enter c.2)) cells := rfl

/-- **What references become can be told from the final table**, since a cell keeps the variable that
its first lookup gave it, and a cell that had none never gets one. -/
theorem resolveCells_eq_resolve (heap : HeapImage) (f : Routine) (cells : List (UInt64 × Text))
    (s : Linker) (refs : References) {known : Bindings}
    (hext : Extends heap (resolveCells heap f cells s refs).value.1.known known) :
    (resolveCells heap f cells s refs).value.2 = refs.resolve known cells := by
  induction cells generalizing s refs with
  | nil => rfl
  | cons c cells ih =>
    have hlook := looked_resolveCell heap f c.1 c.2 s refs
    have hafter := hlook.advance.getElem?_eq
      ((advance_resolveCells heap f cells (resolveCell heap f c.1 c.2 s refs).value.1
        (resolveCell heap f c.1 c.2 s refs).value.2).ext.trans hext) (List.mem_singleton.mpr rfl)
    have hhead : (resolveCell heap f c.1 c.2 s refs).value.2 =
        (known[c.1]?).elim refs (refs.enter c.2) := by
      rw [hafter]
      generalize (resolveCell heap f c.1 c.2 s refs).value = r at hlook ⊢
      cases hlook with
      | missing h =>
        rw [Std.ExtTreeMap.getElem?_eq_none fun hin => h (.inl hin)]
        rfl
      | found b known counters hext hb hrest =>
        simp only [hb, Option.elim_some]
    rw [References.resolve_cons, ← hhead]
    exact ih _ _ hext

namespace References

variable {known : Bindings}

private theorem externals_resolve (known : Bindings) (cells : List (UInt64 × Text)) (refs : References) :
    (refs.resolve known cells).externals = cells.foldl (fun m c =>
      ((known[c.1]?).map fun b => (b.symbol, b.declaration)).elim m fun e => m.insert e.1 e.2)
        refs.externals :=
  (List.foldl_hom References.externals fun refs c => by cases known[c.1]? <;> rfl).symm

private theorem renames_resolve (known : Bindings) (cells : List (UInt64 × Text)) (refs : References) :
    (refs.resolve known cells).renames = cells.foldl (fun m c =>
      ((known[c.1]?).map fun b => (c.2, b.symbol)).elim m fun e => m.insert e.1 e.2) refs.renames :=
  (List.foldl_hom References.renames fun refs c => by cases known[c.1]? <;> rfl).symm

/-- A symbol is declared by the line of some variable with that symbol, and its declaration is left alone
if there is none. -/
theorem externals_resolve_cases (known : Bindings) (cells : List (UInt64 × Text)) (refs : References)
    (symbol : Text) :
    (∃ c ∈ cells, ∃ b, known[c.1]? = some b ∧ b.symbol = symbol ∧
      (refs.resolve known cells).externals[symbol]? = some b.declaration) ∨
    ((∀ c ∈ cells, ∀ b, known[c.1]? = some b → b.symbol ≠ symbol) ∧
      (refs.resolve known cells).externals[symbol]? = refs.externals[symbol]?) := by
  rw [externals_resolve]
  rcases Std.ExtTreeMap.getElem?_foldl_elim_insert_cases
    (fun c : UInt64 × Text => (known[c.1]?).map fun b => (b.symbol, b.declaration)) cells refs.externals
      symbol with ⟨before, c, after, line, rfl, hc, -, hline⟩ | ⟨hnone, hsame⟩
  · obtain ⟨b, hb, he⟩ := Option.map_eq_some_iff.mp hc
    obtain ⟨rfl, rfl⟩ := Prod.mk.inj he
    exact .inl ⟨c, by simp, b, hb, rfl, hline⟩
  · refine .inr ⟨fun c hc b hb he => hnone c hc b.declaration ?_, hsame⟩
    rw [hb, Option.map_some, he]

/-- A cell's variable is declared. -/
theorem mem_externals_resolve {cells : List (UInt64 × Text)} (refs : References) {symbol : Text} :
    symbol ∈ (refs.resolve known cells).externals ↔
      symbol ∈ refs.externals ∨ ∃ c ∈ cells, ∃ b, known[c.1]? = some b ∧ b.symbol = symbol := by
  simp only [Std.ExtTreeMap.mem_iff_exists]
  rcases externals_resolve_cases known cells refs symbol with ⟨c, hc, b, hb, hs, hline⟩ | ⟨hnone, hsame⟩
  · exact iff_of_true ⟨_, hline⟩ (.inr ⟨c, hc, b, hb, hs⟩)
  · rw [hsame]
    refine (or_iff_left ?_).symm
    rintro ⟨c, hc, b, hb, hs⟩
    exact hnone c hc b hb hs

/-- An old symbol stands for the variable of the last cell behind it that has one, and it is not renamed
if no such cell has a variable. -/
theorem renames_resolve_last (known : Bindings) (cells : List (UInt64 × Text)) (refs : References)
    (t : Text) :
    (∃ before c after, cells = before ++ c :: after ∧ c.2 = t ∧
      (∀ c' ∈ after, c'.2 = t → known[c'.1]? = none) ∧
      ∃ b, known[c.1]? = some b ∧ (refs.resolve known cells).renames[t]? = some b.symbol) ∨
    ((∀ c ∈ cells, c.2 = t → known[c.1]? = none) ∧
      (refs.resolve known cells).renames[t]? = refs.renames[t]?) := by
  -- what is not inserted under the symbol of a cell is not there
  have hnone : ∀ c : UInt64 × Text,
      (∀ new, ((known[c.1]?).map fun b => (c.2, b.symbol)) ≠ some (t, new)) → c.2 = t →
        known[c.1]? = none := by
    rintro c h rfl
    refine Option.eq_none_iff_forall_ne_some.mpr fun b hb => h b.symbol ?_
    rw [hb, Option.map_some]
  rw [renames_resolve]
  rcases Std.ExtTreeMap.getElem?_foldl_elim_insert_cases
    (fun c : UInt64 × Text => (known[c.1]?).map fun b => (c.2, b.symbol)) cells refs.renames t with
      ⟨before, c, after, new, rfl, hc, hafter, hnew⟩ | ⟨hall, hsame⟩
  · obtain ⟨b, hb, he⟩ := Option.map_eq_some_iff.mp hc
    obtain ⟨hold, rfl⟩ := Prod.mk.inj he
    exact .inl ⟨before, c, after, rfl, hold, fun c' hc' => hnone c' (hafter c' hc'), b, hb, hnew⟩
  · exact .inr ⟨fun c hc => hnone c (hall c hc), hsame⟩

/-- An old symbol stands for the variable of some cell behind it, and it is not renamed if no such cell
has a variable. -/
theorem renames_resolve_cases (known : Bindings) (cells : List (UInt64 × Text)) (refs : References)
    (t : Text) :
    (∃ c ∈ cells, c.2 = t ∧
      ∃ b, known[c.1]? = some b ∧ (refs.resolve known cells).renames[t]? = some b.symbol) ∨
    ((∀ c ∈ cells, c.2 = t → known[c.1]? = none) ∧
      (refs.resolve known cells).renames[t]? = refs.renames[t]?) := by
  rcases renames_resolve_last known cells refs t with ⟨before, c, after, hcells, hold, -, hb⟩ | h
  · exact .inl ⟨c, by simp [hcells], hold, hb⟩
  · exact .inr h

end References

end Linker

end Freestanding
