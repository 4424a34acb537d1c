import Freestanding.Proofs.Binding.Origin
import Freestanding.Proofs.Host.Shape
import Freestanding.Proofs.Program.Resolution

/-!
# Units

A linked program is divided into units, one for each scope that owns a function or a variable.  Units come
into being on two occasions while functions are linked, when a function joins the unit of its scope and
when a variable goes to the unit of its owner, and the layouts of a unit are put together function by
function.  What a unit holds in the end can nevertheless be told from the functions alone, and so can
whether linking succeeds: it fails if two functions of one scope have different layouts for one container
type, in whatever order they come.

## Main definitions

* `Linker.Clash` — two functions of one scope disagree about a container type.
* `Linker.Gathers` — what units hold after some of the functions, as an invariant of linking.
* `Program.Grouped` — the units of a program.

## Main results

* `Linker.mergeLayouts_eq_ok`, `Linker.mergeLayouts_eq_error` — the layouts of a unit and of a function.
* `Linker.Gathers.join`, `Linker.Gathers.resolveCell`, `Linker.Gathers.linkAll` — one function, one lookup,
  and a whole run.
* `Program.link_grouped` — **when linking fails, and what the units are if it does not.**
-/

namespace Freestanding

namespace ScopeUnits

theorem unit_insert (units : ScopeUnits) (scope scope' : ScopePath) (u : ScopeUnit) :
    unit (units.insert scope u) scope' = if scope = scope' then u else units.unit scope' := by
  unfold unit
  rw [Std.ExtTreeMap.getD_insert]
  by_cases h : scope = scope'
  · rw [if_pos h, if_pos (by simpa using h)]
  · rw [if_neg h, if_neg (by simpa using h)]

private theorem unit_update (units : ScopeUnits) (scope scope' : ScopePath) (f : ScopeUnit → ScopeUnit) :
    unit (units.update scope f) scope' =
      if scope = scope' then f (units.unit scope) else units.unit scope' :=
  unit_insert units scope scope' (f (units.unit scope))

private theorem unit_of_getElem? {units : ScopeUnits} {scope : ScopePath} {u : ScopeUnit}
    (h : units[scope]? = some u) : units.unit scope = u := by
  unfold unit
  rw [Std.ExtTreeMap.getD_eq_getD_getElem?, h]
  rfl

end ScopeUnits

namespace Linker

/-! ### Layouts -/

/-- Two functions of one scope have different layouts for a container type. -/
def Clash (f g : CompiledRoutine) (symbol : Text) : Prop :=
  f.scope = g.scope ∧ ∃ layout layout', f.listing.layouts[symbol]? = some layout ∧
    g.listing.layouts[symbol]? = some layout' ∧ layout ≠ layout'

/-- Layouts that could be put together are all there, and no others. -/
theorem mergeLayouts_eq_ok {scope : ScopePath} {layouts layouts' : Std.ExtTreeMap Text Layout}
    {entries : List (Text × Layout)} (h : mergeLayouts scope layouts entries = .ok layouts')
    (symbol : Text) (layout : Layout) :
    layouts'[symbol]? = some layout ↔
      layouts[symbol]? = some layout ∨ (symbol, layout) ∈ entries := by
  induction entries generalizing layouts with
  | nil =>
    cases h
    simp
  | cons entry entries ih =>
    obtain ⟨s, l⟩ := entry
    rw [mergeLayouts] at h
    split at h
    · next existing hs =>
      split at h
      · next he =>
        -- the entry is there already
        subst he
        rw [ih h, List.mem_cons, Prod.mk.injEq]
        constructor
        · rintro (hl | hl)
          · exact Or.inl hl
          · exact Or.inr (Or.inr hl)
        · rintro (hl | ⟨rfl, rfl⟩ | hl)
          · exact Or.inl hl
          · exact Or.inl hs
          · exact Or.inr hl
      · cases h
    · next hs =>
      rw [ih h, List.mem_cons, Prod.mk.injEq, Std.ExtTreeMap.getElem?_insert]
      by_cases heq : s = symbol
      · subst heq
        rw [if_pos (by simp), hs, Option.some.injEq, eq_comm (a := l)]
        simp
      · rw [if_neg (by simpa using heq)]
        simp [Ne.symm heq]

/-- Layouts could not be put together because two of them are different. -/
theorem mergeLayouts_eq_error {scope : ScopePath} {layouts : Std.ExtTreeMap Text Layout}
    {entries : List (Text × Layout)} {e : Error} (h : mergeLayouts scope layouts entries = .error e) :
    ∃ symbol layout layout', e = .inconsistentLayout symbol scope.dotted ∧
      (layouts[symbol]? = some layout ∨ (symbol, layout) ∈ entries) ∧ (symbol, layout') ∈ entries ∧
        layout ≠ layout' := by
  induction entries generalizing layouts with
  | nil => cases h
  | cons entry entries ih =>
    obtain ⟨s, l⟩ := entry
    rw [mergeLayouts] at h
    split at h
    · next existing hs =>
      split at h
      · obtain ⟨symbol, layout, layout', he, hl, hl', hne⟩ := ih h
        refine ⟨symbol, layout, layout', he, ?_, List.mem_cons_of_mem _ hl', hne⟩
        exact hl.imp_right (List.mem_cons_of_mem _)
      · next hne => exact ⟨s, existing, l, (Except.error.inj h).symm, Or.inl hs, List.mem_cons_self, hne⟩
    · obtain ⟨symbol, layout, layout', he, hl, hl', hne⟩ := ih h
      refine ⟨symbol, layout, layout', he, ?_, List.mem_cons_of_mem _ hl', hne⟩
      rcases hl with hl | hl
      · rcases Std.ExtTreeMap.getElem?_insert_cases hl with ⟨rfl, rfl⟩ | hl
        · exact Or.inr List.mem_cons_self
        · exact Or.inl hl
      · exact Or.inr (List.mem_cons_of_mem _ hl)

/-- A function cannot join its unit if their layouts cannot be put together. -/
theorem mergeLayouts_of_join {s : Linker} {index : Nat} {f : CompiledRoutine} {e : Error}
    (h : s.join index f = .error e) :
    mergeLayouts f.scope (s.units.unit f.scope).layouts f.listing.layouts.toList = .error e := by
  simp only [join, bind, Except.bind] at h
  split at h
  · next hm =>
    cases h
    exact hm
  · cases h

/-! ### What units hold after some of the functions -/

/-- The state of linking after the functions `done`, where the variables `known` were known before. -/
structure Gathers (known : Bindings) (done : List CompiledRoutine) (s : Linker) : Prop where
  /-- A unit has the positions of the functions of its scope. -/
  mem_functions : ∀ (scope : ScopePath) (i : Nat), i ∈ (s.units.unit scope).functions ↔
    ∃ f, done[i]? = some f ∧ f.scope = scope
  /-- It has them in order. -/
  increasing : ∀ scope, (s.units.unit scope).functions.Pairwise (· < ·)
  /-- A unit has the layouts of the functions of its scope. -/
  layouts : ∀ (scope : ScopePath) (symbol : Text) (layout : Layout),
    (s.units.unit scope).layouts[symbol]? = some layout ↔
      ∃ f ∈ done, f.scope = scope ∧ f.listing.layouts[symbol]? = some layout
  /-- Each function has a unit. -/
  unit : ∀ f ∈ done, f.scope ∈ s.units
  /-- A unit has a function or a variable. -/
  origin : ∀ (scope : ScopePath) (u : ScopeUnit), s.units[scope]? = some u →
    (∃ f ∈ done, f.scope = scope) ∨ ∃ (a : UInt64) (b : Binding), u.bindings[a]? = some b
  /-- A variable that was not known is owned by the scope of a function that refers to it. -/
  owner : ∀ (a : UInt64) (b : Binding), s.known[a]? = some b →
    known[a]? = some b ∨ ∃ f ∈ done, a ∈ f.listing.addresses.cells ∧ b.owner = f.scope

namespace Gathers

variable {known : Bindings} {done : List CompiledRoutine} {s s' : Linker} {f : CompiledRoutine}

theorem start (known : Bindings) (counters : Counters) : Gathers known [] { known, counters } where
  mem_functions scope i := by
    show i ∈ (ScopeUnits.unit ∅ scope).functions ↔ _
    simp [ScopeUnits.unit]
  increasing scope := by
    show (ScopeUnits.unit ∅ scope).functions.Pairwise _
    simp [ScopeUnits.unit]
  layouts scope symbol layout := by
    show (ScopeUnits.unit ∅ scope).layouts[symbol]? = some layout ↔ _
    simp [ScopeUnits.unit]
  unit f hf := absurd hf (by simp)
  origin scope u hu := absurd hu (by simp)
  owner a b hb := Or.inl hb

/-- **A function joins its unit**: its position goes to the end, and its layouts are added. -/
theorem join (hg : Gathers known done s) (h : s.join done.length f = .ok s') :
    Gathers known (done ++ [f]) s' := by
  obtain ⟨layouts, hl, hs⟩ := Except.bind_eq_ok_iff.mp h
  cases hs
  have hold : ∀ {P : CompiledRoutine → Prop}, (∃ g ∈ done, P g) → ∃ g ∈ done ++ [f], P g := by
    rintro P ⟨g, hmem, hP⟩
    exact ⟨g, List.mem_append_left _ hmem, hP⟩
  refine ⟨?_, ?_, ?_, ?_, ?_, ?_⟩
  · intro scope i
    rw [ScopeUnits.unit_insert]
    simp only [List.getElem?_concat_eq_some_iff, or_and_right, exists_or, and_assoc]
    by_cases hscope : f.scope = scope
    · rw [if_pos hscope, List.mem_append, List.mem_singleton, hscope, hg.mem_functions]
      simp [hscope]
    · rw [if_neg hscope, hg.mem_functions]
      simp [hscope]
  · intro scope
    rw [ScopeUnits.unit_insert]
    split
    · refine List.pairwise_append.mpr ⟨hg.increasing f.scope, List.pairwise_singleton _ _, ?_⟩
      intro i hi j hj
      obtain ⟨g, hget, -⟩ := (hg.mem_functions f.scope i).mp hi
      rw [List.mem_singleton.mp hj]
      exact (List.getElem?_eq_some_iff.mp hget).1
    · exact hg.increasing scope
  · intro scope symbol layout
    rw [ScopeUnits.unit_insert]
    by_cases hscope : f.scope = scope
    · rw [if_pos hscope, mergeLayouts_eq_ok hl, hg.layouts,
        Std.ExtTreeMap.mem_toList_iff_getElem?_eq_some, hscope]
      simp [or_and_right, exists_or, hscope]
    · rw [if_neg hscope, hg.layouts]
      simp [or_and_right, exists_or, hscope]
  · intro g hgmem
    rw [Std.ExtTreeMap.mem_insert]
    rcases List.mem_append.mp hgmem with hmem | hmem
    · exact Or.inr (hg.unit g hmem)
    · rw [List.mem_singleton.mp hmem]
      exact Or.inl (by simp)
  · intro scope u hu
    rcases Std.ExtTreeMap.getElem?_insert_cases hu with ⟨rfl, -⟩ | hu
    · exact Or.inl ⟨f, by simp, rfl⟩
    · exact (hg.origin scope u hu).imp_left hold
  · intro a b hb
    exact (hg.owner a b hb).imp_right hold

/-- **A lookup** puts a variable into a unit, and leaves the functions and the layouts of all units
alone. -/
theorem resolveCell (hg : Gathers known done s) (hf : f ∈ done) {a : UInt64}
    (ha : a ∈ f.listing.addresses.cells) (heap : HeapImage) (old : Text) (refs : References) :
    Gathers known done (Linker.resolveCell heap f.toRoutine a old s refs).value.1 := by
  have hlook := looked_resolveCell heap f.toRoutine a old s refs
  have howner : ∀ (a' : UInt64) (b : Binding),
      (Linker.resolveCell heap f.toRoutine a old s refs).value.1.known[a']? = some b →
      known[a']? = some b ∨ ∃ g ∈ done, a' ∈ g.listing.addresses.cells ∧ b.owner = g.scope := by
    intro a' b hb
    rcases resolveCell_cases heap f.toRoutine a old s refs with ⟨hk, -⟩ | ⟨-, v, k, -, -, hk, -⟩
    · rw [hk] at hb
      exact hg.owner a' b hb
    · -- a variable that has been made up belongs to the scope of the function
      rw [hk] at hb
      rcases Std.ExtTreeMap.getElem?_insert_cases hb with ⟨rfl, rfl⟩ | hb
      · exact Or.inr ⟨f, hf, ha, rfl⟩
      · exact hg.owner a' b hb
  generalize (Linker.resolveCell heap f.toRoutine a old s refs).value = r at hlook howner
  cases hlook with
  | missing h => exact ⟨hg.mem_functions, hg.increasing, hg.layouts, hg.unit, hg.origin, howner⟩
  | found b known' counters hext hb hrest =>
    have hsame : ∀ scope, ((s.units.update b.owner (file a b)).unit scope).functions =
        (s.units.unit scope).functions ∧ ((s.units.update b.owner (file a b)).unit scope).layouts =
        (s.units.unit scope).layouts := by
      intro scope
      rw [ScopeUnits.unit_update]
      split
      · next hscope =>
        subst hscope
        exact ⟨rfl, rfl⟩
      · exact ⟨rfl, rfl⟩
    refine ⟨?_, ?_, ?_, ?_, ?_, howner⟩
    · intro scope i
      rw [(hsame scope).1]
      exact hg.mem_functions scope i
    · intro scope
      rw [(hsame scope).1]
      exact hg.increasing scope
    · intro scope symbol layout
      rw [(hsame scope).2]
      exact hg.layouts scope symbol layout
    · intro g hgmem
      exact Std.ExtTreeMap.mem_insert.mpr (Or.inr (hg.unit g hgmem))
    · intro scope u hu
      rcases Std.ExtTreeMap.getElem?_insert_cases hu with ⟨-, rfl⟩ | hu
      · exact Or.inr ⟨a, b, Std.ExtTreeMap.getElem?_insert_self⟩
      · exact hg.origin scope u hu

theorem resolveCells (hg : Gathers known done s) (hf : f ∈ done) {cells : List (UInt64 × Text)}
    (hcells : ∀ c ∈ cells, c.1 ∈ f.listing.addresses.cells) (heap : HeapImage) (refs : References) :
    Gathers known done (Linker.resolveCells heap f.toRoutine cells s refs).value.1 := by
  induction cells generalizing s refs with
  | nil => exact hg
  | cons c cells ih =>
    have hstep := hg.resolveCell hf (hcells c List.mem_cons_self) heap c.2 refs
    exact ih hstep (fun c' hc' => hcells c' (List.mem_cons_of_mem _ hc')) _

/-- Linking a function extends what the units hold by that function. -/
theorem link (hg : Gathers known done s) {heap : HeapImage} {routines : List Routine}
    {f' : CompiledRoutine} (h : (s.link heap routines done.length f).value = (s', .ok f')) :
    Gathers known (done ++ [f]) s' := by
  rw [Linker.link] at h
  split at h
  · cases h
  · next s₁ hjoin =>
    have hcells := (hg.join hjoin).resolveCells (f := f) (by simp)
      (fun c hc => Std.ExtTreeMap.mem_of_mem_toList hc) heap { externals := f.listing.externals }
    obtain ⟨rfl, -⟩ := Prod.mk.inj h
    exact hcells

/-- A function that cannot be linked disagrees with one of those before it about a container type. -/
theorem clash_of_link (hg : Gathers known done s) {heap : HeapImage} {routines : List Routine}
    {e : Error} (h : (s.link heap routines done.length f).value = (s', .error e)) :
    ∃ g ∈ done, ∃ symbol, Clash f g symbol ∧ e = .inconsistentLayout symbol f.scope.dotted := by
  rw [Linker.link] at h
  split at h
  · next e' hjoin =>
    obtain ⟨-, rfl⟩ : s = s' ∧ e' = e := by simpa using h
    obtain ⟨symbol, layout, layout', he, hl, hl', hne⟩ :=
      mergeLayouts_eq_error (mergeLayouts_of_join hjoin)
    rw [Std.ExtTreeMap.mem_toList_iff_getElem?_eq_some] at hl hl'
    -- a function has one layout for a symbol, so the other one is that of an earlier function
    rcases hl with hl | hl
    · obtain ⟨g, hgmem, hscope, hgl⟩ := (hg.layouts f.scope symbol layout).mp hl
      exact ⟨g, hgmem, symbol, ⟨hscope.symm, layout', layout, hl', hgl, hne.symm⟩, he⟩
    · exact absurd (Option.some.inj (hl.symm.trans hl')) hne
  · simp only [Logged.value_bind, Logged.value_pure, Prod.mk.injEq, reduceCtorEq, and_false] at h

/-- **Linking function after function**: the units hold what they should, or two functions clash. -/
theorem linkAll (hg : Gathers known done s) (heap : HeapImage) (routines : List Routine)
    (fs : List CompiledRoutine) :
    (∀ fs', (Linker.linkAll heap routines done.length fs s).value.2 = .ok fs' →
      Gathers known (done ++ fs) (Linker.linkAll heap routines done.length fs s).value.1) ∧
    ∀ e, (Linker.linkAll heap routines done.length fs s).value.2 = .error e →
      ∃ f ∈ done ++ fs, ∃ g ∈ done ++ fs, ∃ symbol, Clash f g symbol ∧
        e = .inconsistentLayout symbol f.scope.dotted := by
  induction fs generalizing done s with
  | nil =>
    refine ⟨?_, ?_⟩
    · intro fs' _
      rw [List.append_nil]
      exact hg
    · intro e he
      cases he
  | cons f fs ih =>
    rw [Linker.linkAll, Logged.value_bind]
    generalize hone : (s.link heap routines done.length f).value = one
    obtain ⟨s₁, result⟩ := one
    cases result with
    | error e =>
      refine ⟨fun fs' h => absurd h (by simp), ?_⟩
      intro e' he'
      obtain ⟨g, hgmem, symbol, hclash, he⟩ := hg.clash_of_link hone
      cases he'
      exact ⟨f, by simp, g, List.mem_append_left _ hgmem, symbol, hclash, he⟩
    | ok f' =>
      have hrest := ih (hg.link hone)
      rw [List.length_append, List.length_singleton, List.append_assoc, List.singleton_append] at hrest
      simp only [Logged.value_bind, Logged.value_pure]
      generalize (Linker.linkAll heap routines (done.length + 1) fs s₁).value = r at hrest ⊢
      obtain ⟨s₂, result⟩ := r
      cases result with
      | error e =>
        refine ⟨fun fs' h => absurd h (by simp [Except.map]), ?_⟩
        intro e' he'
        exact hrest.2 e' he'
      | ok rest =>
        refine ⟨fun fs' _ => hrest.1 rest rfl, ?_⟩
        intro e he
        cases he

/-- Functions whose layouts have been put together do not clash. -/
theorem not_clash (hg : Gathers known done s) {g : CompiledRoutine} (hf : f ∈ done) (hgmem : g ∈ done)
    (symbol : Text) : ¬ Clash f g symbol := by
  rintro ⟨hscope, layout, layout', hl, hl', hne⟩
  have hunit := (hg.layouts g.scope symbol layout).mpr ⟨f, hf, hscope, hl⟩
  rw [(hg.layouts g.scope symbol layout').mpr ⟨g, hgmem, rfl, hl'⟩] at hunit
  exact hne (Option.some.inj hunit).symm

end Gathers

end Linker

namespace Program

open Linker

/-- How functions and the variables they refer to are divided into units. -/
structure Grouped (known : Bindings) (functions : List CompiledRoutine) (p : Program) : Prop where
  /-- The functions are the same, in the same order. -/
  routines : p.functions.map CompiledRoutine.toRoutine = functions.map CompiledRoutine.toRoutine
  /-- There is a unit for the scope of each function and for the owner of each known variable that a
  function refers to, and for no other scope. -/
  mem_units_iff : ∀ scope, scope ∈ p.units ↔ (∃ f ∈ functions, f.scope = scope) ∨
    ∃ f ∈ functions, ∃ a ∈ f.listing.addresses.cells, ∃ b, known[a]? = some b ∧ b.owner = scope
  /-- A variable that was not known is owned by the scope of a function that refers to it, so it needs no
  unit of its own. -/
  owner : ∀ (a : UInt64) (b : Binding), a ∉ known → p.Holds a b →
    ∃ f ∈ functions, a ∈ f.listing.addresses.cells ∧ b.owner = f.scope
  /-- A unit stands under its scope. -/
  scope_eq : ∀ (scope : ScopePath) (u : ScopeUnit), p.units[scope]? = some u → u.scope = scope
  /-- The position of a function is in the unit of its scope and in no other. -/
  mem_functions_iff : ∀ (scope : ScopePath) (u : ScopeUnit) (i : Nat), p.units[scope]? = some u →
    (i ∈ u.functions ↔ ∃ f, functions[i]? = some f ∧ f.scope = scope)
  /-- The positions are in order, and none is there twice. -/
  increasing : ∀ (scope : ScopePath) (u : ScopeUnit), p.units[scope]? = some u →
    u.functions.Pairwise (· < ·)
  /-- The layouts of a unit are those of its functions together. -/
  layouts_iff : ∀ (scope : ScopePath) (u : ScopeUnit) (symbol : Text) (layout : Layout),
    p.units[scope]? = some u → (u.layouts[symbol]? = some layout ↔
      ∃ f ∈ functions, f.scope = scope ∧ f.listing.layouts[symbol]? = some layout)

/-- What has been gathered in the course of linking, seen from the program. -/
theorem grouped_of_gathers {heap : HeapImage} {counters : Counters} {known : Bindings}
    {functions : List CompiledRoutine} {p : Program}
    (h : (Program.link heap counters known functions).value.2 = .ok p) {s : Linker}
    (hunits : s.units = p.units) (hknown : s.known = table heap counters known functions)
    (hg : Gathers known functions s) : Grouped known functions p := by
  obtain ⟨hext, hsettled, hfiled, hfunctions, -⟩ := link_spec h
  have hunit : ∀ {scope : ScopePath} {u : ScopeUnit}, p.units[scope]? = some u →
      s.units.unit scope = u := by
    intro scope u hu
    rw [hunits]
    exact ScopeUnits.unit_of_getElem? hu
  have hcells : ∀ {a : UInt64}, a ∈ functions.flatMap cellsOf ↔
      ∃ f ∈ functions, a ∈ f.listing.addresses.cells := by
    intro a
    simp only [List.mem_flatMap, mem_cellsOf]
  have howner := hg.owner
  have horigin := hg.origin
  have hscopes := hg.unit
  rw [hknown] at howner
  rw [hunits] at horigin hscopes
  refine ⟨?_, ?_, ?_, hfiled.scope_eq, ?_, ?_, ?_⟩
  · rw [hfunctions, List.map_map]
    rfl
  · intro scope
    constructor
    · intro hmem
      obtain ⟨u, hu⟩ := Std.ExtTreeMap.mem_iff_exists.mp hmem
      rcases horigin scope u hu with hfun | ⟨a, b, hb⟩
      · exact Or.inl hfun
      · -- the unit of a variable that has been made up is that of a function
        obtain ⟨ht, rfl, hseen⟩ := hfiled.owned scope u a b hu hb
        obtain ⟨f, hf, ha⟩ := hcells.mp hseen
        rcases howner a b ht with hk | ⟨g, hgmem, -, hscope⟩
        · exact Or.inr ⟨f, hf, a, ha, b, hk, rfl⟩
        · exact Or.inl ⟨g, hgmem, hscope.symm⟩
    · rintro (⟨f, hf, rfl⟩ | ⟨f, hf, a, ha, b, hb, rfl⟩)
      · exact hscopes f hf
      · obtain ⟨u, hu, -⟩ := hfiled.filed a (hcells.mpr ⟨f, hf, ha⟩) b (hext.keep a b hb)
        exact Std.ExtTreeMap.mem_iff_exists.mpr ⟨u, hu⟩
  · rintro a b hnew ⟨scope, u, hu, hb⟩
    rcases howner a b (hfiled.owned scope u a b hu hb).1 with hk | hmade
    · exact absurd (Std.ExtTreeMap.mem_iff_exists.mpr ⟨b, hk⟩) hnew
    · exact hmade
  · intro scope u i hu
    rw [← hunit hu]
    exact hg.mem_functions scope i
  · intro scope u hu
    rw [← hunit hu]
    exact hg.increasing scope
  · intro scope u symbol layout hu
    rw [← hunit hu]
    exact hg.layouts scope symbol layout

/-- **When linking fails, and what the units are if it does not.**  Linking fails if two functions of one
scope have different layouts for one container type, whatever their order, and for no other reason; the
error names the container type and the scope.  If it succeeds, the functions are those that were given;
each is in the unit of its scope; and each unit has the layouts of its functions. -/
theorem link_grouped (heap : HeapImage) (counters : Counters) (known : Bindings)
    (functions : List CompiledRoutine) :
    ((∃ e, (Program.link heap counters known functions).value.2 = .error e) ↔
      ∃ f ∈ functions, ∃ g ∈ functions, ∃ symbol, Clash f g symbol) ∧
    (∀ e, (Program.link heap counters known functions).value.2 = .error e →
      ∃ f ∈ functions, ∃ g ∈ functions, ∃ symbol, Clash f g symbol ∧
        e = .inconsistentLayout symbol f.scope.dotted) ∧
    ∀ p, (Program.link heap counters known functions).value.2 = .ok p → Grouped known functions p := by
  have hgathers := (Gathers.start known counters).linkAll heap
    (functions.map CompiledRoutine.toRoutine) functions
  rw [List.nil_append, List.length_nil] at hgathers
  simp only [Program.link, Logged.value_bind, Logged.value_pure]
  generalize hrun : (linkAll heap (functions.map CompiledRoutine.toRoutine) 0 functions
    { known, counters }).value = run at hgathers ⊢
  obtain ⟨s, result⟩ := run
  obtain ⟨hok, herror⟩ := hgathers
  cases result with
  | error e =>
    obtain ⟨f, hf, g, hg, symbol, hclash, he⟩ := herror e rfl
    refine ⟨iff_of_true ⟨e, rfl⟩ ⟨f, hf, g, hg, symbol, hclash⟩, ?_, ?_⟩
    · intro e' he'
      rw [← Except.error.inj he']
      exact ⟨f, hf, g, hg, symbol, hclash, he⟩
    · intro p hp
      cases hp
  | ok fs =>
    have hg := hok fs rfl
    refine ⟨iff_of_false ?_ ?_, ?_, ?_⟩
    · rintro ⟨e, he⟩
      cases he
    · rintro ⟨f, hf, g, hgmem, symbol, hclash⟩
      exact hg.not_clash hf hgmem symbol hclash
    · intro e he
      cases he
    · intro p hp
      obtain rfl := Except.ok.inj hp
      have hlink : (Program.link heap counters known functions).value.2 =
          .ok { units := s.units, functions := fs, diagnostics := s.diagnostics } := by
        simp only [Program.link, Logged.value_bind, Logged.value_pure, hrun]
        rfl
      exact grouped_of_gathers hlink rfl (by rw [table, hrun]) hg

end Program

end Freestanding
