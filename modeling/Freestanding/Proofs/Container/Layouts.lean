import Freestanding.Container.Lowering
import Freestanding.Proofs.OrderedMap

/-!
# The layouts that a listing comes to know

Before anything is changed, the layouts of the container types that the code mentions are read off the
image of the host's memory.  A layout that is known already is not read again.

## Main results

* `Container.resolve_eq_ok`, `Container.mem_layouts_of_resolve` — **the layouts after a successful
  reading.**
* `Container.resolve_eq_self_iff` — there is nothing to read if and only if all layouts are known.
-/

namespace Freestanding

/-- A symbol stands for a container type if it does so at some address. -/
theorem AddressTable.isSome_containerAddress?_iff {table : AddressTable} {symbol : Text} :
    (table.containerAddress? symbol).isSome ↔ table.isContainer symbol := by
  rw [containerAddress?, isContainer, Option.isSome_map, List.find?_isSome, List.contains_iff_mem,
    Std.ExtTreeMap.values_eq_map_snd_toList, List.mem_map]
  simp only [beq_iff_eq]

namespace Container

/-- Only container types count as mentioned. -/
theorem isContainer_of_mem_mentioned {l : Listing} {symbol : Text} (h : symbol ∈ mentioned l) :
    l.addresses.isContainer symbol := by
  rw [mentioned, Std.ExtTreeSet.mem_toList, Std.ExtTreeSet.mem_ofList, List.contains_iff_mem] at h
  exact (List.mem_filter.mp h).2

variable {heap : HeapImage} {function : Text} {table : AddressTable}

private theorem value_readLayout (heap : HeapImage) (function symbol : Text) (address : UInt64) :
    (readLayout heap function symbol address).run.value =
      match heap.layout? address with
      | none => .error (.unreadable address ("container layout of " ++ symbol))
      | some layout => .ok layout := by
  unfold readLayout
  cases heap.layout? address with
  | none => rfl
  | some layout =>
    dsimp only
    split
    · rfl
    · rfl

/-- **The layouts after a successful reading**: those known before, and for the other symbols what the
memory says. -/
theorem resolve_eq_ok {symbols : List Text} {layouts layouts' : Layouts}
    (h : (resolve heap function table symbols layouts).value = (layouts', .ok ())) :
    (∀ s, layouts'[s]? = layouts[s]?.or
      (if s ∈ symbols then (table.containerAddress? s).bind heap.layout? else none)) ∧
      ∀ s ∈ symbols, table.isContainer s → s ∈ layouts' := by
  induction symbols generalizing layouts with
  | nil =>
    obtain ⟨rfl, -⟩ := Prod.mk.inj h
    exact ⟨fun s => by simp, nofun⟩
  | cons symbol symbols ih =>
    rw [resolve] at h
    split at h
    · next hnone =>
      obtain ⟨heq, hmem⟩ := ih h
      refine ⟨fun s => ?_, List.forall_mem_cons.mpr ⟨fun hcontainer => ?_, hmem⟩⟩
      · rw [heq s]
        by_cases hs : s = symbol
        · subst hs
          simp [hnone]
        · simp [hs]
      · rw [← AddressTable.isSome_containerAddress?_iff, hnone] at hcontainer
        cases hcontainer
    · next address haddress =>
      split at h
      · next hknown =>
        obtain ⟨heq, hmem⟩ := ih h
        obtain ⟨layout, hlayout⟩ :=
          Option.isSome_iff_exists.mp (Std.ExtTreeMap.mem_iff_isSome_getElem?.mp hknown)
        refine ⟨fun s => ?_, List.forall_mem_cons.mpr ⟨fun _ => ?_, hmem⟩⟩
        · rw [heq s]
          by_cases hs : s = symbol
          · subst hs
            simp [hlayout]
          · simp [hs]
        · rw [Std.ExtTreeMap.mem_iff_isSome_getElem?, heq, hlayout]
          rfl
      · next hnew =>
        rw [Logged.value_bind, value_readLayout] at h
        cases hread : heap.layout? address with
        | none =>
          rw [hread] at h
          cases (Prod.mk.inj h).2
        | some layout =>
          rw [hread] at h
          obtain ⟨heq, hmem⟩ := ih h
          have hunknown : layouts[symbol]? = none := by
            rw [← Option.not_isSome_iff_eq_none, ← Std.ExtTreeMap.mem_iff_isSome_getElem?]
            exact hnew
          refine ⟨fun s => ?_, List.forall_mem_cons.mpr ⟨fun _ => ?_, hmem⟩⟩
          · rw [heq s]
            by_cases hs : s = symbol
            · subst hs
              simp [hunknown, haddress, hread]
            · simp [hs, Std.ExtTreeMap.getElem?_insert, Ne.symm hs]
          · rw [Std.ExtTreeMap.mem_iff_isSome_getElem?, heq, Std.ExtTreeMap.getElem?_insert_self]
            rfl

/-- Of the container types, those are known afterwards that were known before or asked for. -/
theorem mem_layouts_of_resolve {symbols : List Text} {layouts layouts' : Layouts}
    (h : (resolve heap function table symbols layouts).value = (layouts', .ok ())) {s : Text}
    (hs : table.isContainer s) : s ∈ layouts' ↔ s ∈ symbols ∨ s ∈ layouts := by
  obtain ⟨heq, hmem⟩ := resolve_eq_ok h
  constructor
  · intro hlayout
    by_cases hsymbol : s ∈ symbols
    · exact .inl hsymbol
    · rw [Std.ExtTreeMap.mem_iff_isSome_getElem?, heq, if_neg hsymbol, Option.or_none] at hlayout
      exact .inr (Std.ExtTreeMap.mem_iff_isSome_getElem?.mpr hlayout)
  · rintro (hsymbol | hlayout)
    · exact hmem s hsymbol hs
    · rw [Std.ExtTreeMap.mem_iff_isSome_getElem?, heq, Option.isSome_or,
        Std.ExtTreeMap.mem_iff_isSome_getElem?.mp hlayout, Bool.true_or]

/-- There is nothing to read if and only if all layouts are known. -/
theorem resolve_eq_self_iff {symbols : List Text} {layouts : Layouts} :
    (resolve heap function table symbols layouts).value = (layouts, .ok ()) ↔
      ∀ s ∈ symbols, table.isContainer s → s ∈ layouts := by
  refine ⟨fun h => (resolve_eq_ok h).2, fun h => ?_⟩
  induction symbols with
  | nil => rfl
  | cons symbol symbols ih =>
    obtain ⟨hsymbol, hsymbols⟩ := List.forall_mem_cons.mp h
    rw [resolve]
    split
    · exact ih hsymbols
    · next address haddress =>
      have hcontainer : table.isContainer symbol := by
        rw [← AddressTable.isSome_containerAddress?_iff, haddress]
        rfl
      rw [if_pos (hsymbol hcontainer)]
      exact ih hsymbols

end Container

end Freestanding
