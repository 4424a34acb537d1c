import Freestanding.Proofs.Attempt
import Freestanding.Proofs.Host.Handles
import Freestanding.Proofs.Lists
import Mathlib.Data.List.Basic

/-!
# Loading a recording

The functions of a recording refer to one another by position.  A signature may be recorded more than
once, so positions are not handles: the handle of a function is the place of its signature among all
signatures, each counted where it first occurs.  Loading goes over a recording twice.  The first time it
gives out handles, and of the functions with one handle the last one stays; the second time it puts the
calls of all of them together, with handles for positions.  It fails if a position lies outside the
recording.

Handles have 32 bits.  As long as there are no more signatures than handles, functions have the same
handle only if they have the same signature.

## Main definitions

* `Host.signaturesOf`, `Host.handleOf` — the signatures of a recording, and the handles of its functions.
* `Host.occurrences`, `Host.calls` — the functions with one handle, and the calls of a function.
* `Host.Loaded` — the host of a recording, told from the recording alone.
* `Host.Reloaded` — the host of the recording of a host.

## Main results

* `Host.addAll_functions`, `Host.foldlM_addCallees` — the first and the second time.
* `Host.Built.handle?_of_getElem?` — a function lies at the place of its handle.
* `Host.ofRecording_exact` — **when loading fails, what it gives, and that it undoes saving.**
-/

namespace Freestanding

namespace SignatureTable

variable {t : SignatureTable}

/-- The table in which the given signatures have been entered, one after the other. -/
def ofSignatures (ss : List Signature) : SignatureTable :=
  ss.foldl enter {}

/-- Interning a signature adds it unless it is there. -/
theorem Indexed.signatures_intern (ht : t.Indexed) (s : Signature) :
    (t.intern s).1.signatures = if s ∈ t.signatures then t.signatures else t.signatures ++ [s] := by
  rcases t.intern_cases s with ⟨a, ha, he⟩ | ⟨hs, he⟩
  · obtain ⟨i, hi, -⟩ := (ht.handle?_iff s a).mp ha
    rw [he, if_pos (List.mem_of_getElem? hi)]
  · rw [he, if_neg (ht.notMem hs)]
    rfl

private theorem intern_eq_ofSignatures (h : t = ofSignatures t.signatures) (s : Signature) :
    (t.intern s).1 = ofSignatures (t.intern s).1.signatures := by
  rcases t.intern_cases s with ⟨a, -, he⟩ | ⟨-, he⟩
  · rw [he]
    exact h
  · rw [he]
    show t.enter s = ofSignatures (t.signatures ++ [s])
    rw [ofSignatures, List.foldl_append, ← ofSignatures, ← h]
    rfl

/-- A handle that has been given out stays. -/
theorem handle?_intern_of_some {s : Signature} {a : Handle} (h : t.handle? s = some a)
    (s' : Signature) : (t.intern s').1.handle? s = some a := by
  rcases t.intern_cases s' with ⟨b, -, he⟩ | ⟨hnone, he⟩
  · rw [he]
    exact h
  · have hne : s ≠ s' := fun heq => by simp [← heq, h] at hnone
    rw [he, handle?_enter, if_neg hne, h]

/-- The handle of a signature is its place among the signatures. -/
theorem Indexed.handle?_eq_idxOf (ht : t.Indexed) {s : Signature} (hs : s ∈ t.signatures) :
    t.handle? s = some (.ofPosition (t.signatures.idxOf s)) :=
  (ht.handle?_iff s _).mpr ⟨_, List.getElem?_idxOf hs, rfl⟩

end SignatureTable

namespace Host

/-! ### Records and their places -/

/-- What holds of an empty host, stays when a function is recorded, and depends on the table and the
signatures of the records alone, holds of every host that can be made. -/
theorem Built.induction_add {P : Host → Prop} (hempty : P {})
    (hadd : ∀ (h : Host) (f : Recorded), h.Built → P h → P (h.add f).1)
    (hsame : ∀ h h' : Host, h'.table = h.table →
      h'.functions.map Recorded.signature = h.functions.map Recorded.signature → P h → P h')
    {h : Host} (hb : h.Built) : P h := by
  have hstep : ∀ {h h' : Host}, h.Built → Step h h' → P h → P h' := by
    intro h h' hb hs hP
    rcases hs.cases_add with ⟨f, rfl⟩ | ⟨htable, hfunctions⟩
    · exact hadd h f hb hP
    · exact hsame h h' htable hfunctions hP
  induction hb with
  | empty => exact hempty
  | add f hb ih => exact hstep hb (.add _ f) ih
  | addCallee caller callee hb ih => exact hstep hb (.addCallee _ caller callee) ih
  | compile hb he ih => exact hstep hb (.compile he) ih
  | note onDemand hb ih => exact hstep hb (.note _ onDemand) ih

theorem Built.indexed {h : Host} (hb : h.Built) : h.table.Indexed := by
  refine hb.induction_add (P := fun h => h.table.Indexed) .empty ?_ ?_
  · intro h f _ ih
    exact ih.intern f.signature
  · intro h h' htable _ ih
    rw [htable]
    exact ih

/-- A table is determined by its signatures. -/
theorem Built.table_eq {h : Host} (hb : h.Built) : h.table = .ofSignatures h.table.signatures := by
  refine hb.induction_add (P := fun h => h.table = .ofSignatures h.table.signatures) rfl ?_ ?_
  · intro h f _ ih
    exact SignatureTable.intern_eq_ofSignatures ih f.signature
  · intro h h' htable _ ih
    rw [htable]
    exact ih

/-- A record is written over another one or right behind the last. -/
theorem Aligned.position_add_le {h : Host} (ha : h.Aligned) (f : Recorded) :
    (h.add f).2.position ≤ h.functions.length := by
  have hlen := ha.length_eq
  show (h.table.intern f.signature).2.position ≤ h.functions.length
  rcases h.table.intern_cases f.signature with ⟨a, hfound, he⟩ | ⟨-, he⟩
  · have hlt := ha.handle_lt _ a hfound
    have hpos := a.position_lt
    rw [he]
    show a.position ≤ _
    omega
  · have hmod := Nat.mod_lt h.table.size (show 0 < UInt32.size by decide)
    have hle := Nat.mod_le h.table.size UInt32.size
    rw [he, Handle.position_ofPosition_eq_mod]
    omega

/-- Recording a function writes one record. -/
theorem Aligned.functions_add {h : Host} (ha : h.Aligned) (f : Recorded) (i : Nat) :
    (h.add f).1.functions[i]? = if i = (h.add f).2.position then some f else h.functions[i]? := by
  have hle := ha.position_add_le f
  show (if (h.add f).2.position < h.functions.length then h.functions.set (h.add f).2.position f
    else h.functions ++ [f])[i]? = _
  split
  · next hlt =>
    by_cases hi : i = (h.add f).2.position
    · rw [if_pos hi, hi, List.getElem?_set_self hlt]
    · rw [if_neg hi, List.getElem?_set_ne (Ne.symm hi)]
  · next hge =>
    have hlast : (h.add f).2.position = h.functions.length := by omega
    rw [hlast]
    by_cases hi : i = h.functions.length
    · rw [if_pos hi, hi, List.getElem?_concat_length]
    · rw [if_neg hi]
      rcases Nat.lt_or_gt_of_ne hi with hlt | hgt
      · rw [List.getElem?_append_left hlt]
      · rw [List.getElem?_eq_none (by simpa using Nat.succ_le_of_lt hgt),
          List.getElem?_eq_none (Nat.le_of_lt hgt)]

/-- **A function lies at the place of its handle**, however many signatures there are. -/
theorem Built.handle?_of_getElem? {h : Host} (hb : h.Built) {i : Nat} {f : Recorded}
    (hi : h.functions[i]? = some f) : h.table.handle? f.signature = some (.ofPosition i) := by
  let P (h : Host) : Prop := ∀ (i : Nat) (s : Signature),
    (h.functions.map Recorded.signature)[i]? = some s → h.table.handle? s = some (.ofPosition i)
  suffices hall : P h from hall i f.signature (by rw [List.getElem?_map, hi]; rfl)
  refine hb.induction_add (P := P) (fun i s h => by simp at h) ?_ ?_
  · intro h f hb ih i s hs
    rw [List.getElem?_map, hb.aligned.functions_add] at hs
    split at hs
    · next hi =>
      -- the record that has been written
      obtain rfl : f.signature = s := Option.some.inj hs
      rw [hi, Handle.ofPosition_position]
      exact h.table.handle?_intern f.signature
    · refine SignatureTable.handle?_intern_of_some (ih i s ?_) f.signature
      rw [List.getElem?_map]
      exact hs
  · intro h h' htable hfunctions ih i s hs
    rw [hfunctions] at hs
    rw [htable]
    exact ih i s hs

/-! ### Giving out handles -/

/-- The signatures of a recording, each where it first occurs. -/
def signaturesOf (fs : List Recorded) : List Signature :=
  (fs.map Recorded.signature).eraseDups

/-- The handle of a function of a recording: the place of its signature. -/
def handleOf (fs : List Recorded) (f : Recorded) : Handle :=
  .ofPosition ((signaturesOf fs).idxOf f.signature)

variable {fs : List Recorded}

theorem mem_signaturesOf {s : Signature} : s ∈ signaturesOf fs ↔ ∃ f ∈ fs, f.signature = s := by
  rw [signaturesOf, List.mem_eraseDups, List.mem_map]

private theorem signatures_addAll {h : Host} (hb : h.Built) {done : List Signature}
    (hs : h.table.signatures = done.eraseDups) (fs : List Recorded) :
    (h.addAll fs).1.table.signatures = (done ++ fs.map Recorded.signature).eraseDups := by
  induction fs generalizing h done with
  | nil => rw [List.map_nil, List.append_nil]; exact hs
  | cons f fs ih =>
    have hadd : (h.add { f with callees := [] }).1.table.signatures =
        (done ++ [f.signature]).eraseDups := by
      rw [List.eraseDups_concat, ← hs]
      refine (hb.indexed.signatures_intern f.signature).trans ?_
      rw [hs]
      simp only [List.mem_eraseDups]
    refine (ih (hb.add _) hadd).trans ?_
    rw [List.append_assoc, List.singleton_append, List.map_cons]

/-- The signatures of a recording, as a host without functions takes them in. -/
theorem signatures_addAll_empty (fs : List Recorded) :
    (({} : Host).addAll fs).1.table.signatures = signaturesOf fs := by
  have hempty : ({} : Host).table.signatures = ([] : List Signature).eraseDups := rfl
  exact signatures_addAll .empty hempty fs

private theorem handle?_addAll {h : Host} {s : Signature} {a : Handle} (hs : h.table.handle? s = some a)
    (fs : List Recorded) : (h.addAll fs).1.table.handle? s = some a := by
  induction fs generalizing h with
  | nil => exact hs
  | cons f fs ih => exact ih (SignatureTable.handle?_intern_of_some hs f.signature)

/-- The handles that are given out are those of the signatures. -/
theorem handles_addAll (h : Host) (fs : List Recorded) :
    (h.addAll fs).2.map some = fs.map fun f => (h.addAll fs).1.table.handle? f.signature := by
  induction fs generalizing h with
  | nil => rfl
  | cons f fs ih =>
    have hhead : ((h.add { f with callees := [] }).1.addAll fs).1.table.handle? f.signature =
        some (h.add { f with callees := [] }).2 :=
      handle?_addAll (h.table.handle?_intern f.signature) fs
    show some (h.add { f with callees := [] }).2 ::
      ((h.add { f with callees := [] }).1.addAll fs).2.map some = _
    rw [List.map_cons, ih, ← hhead]
    rfl

/-- **The first time**: of the functions with one handle the last one stays. -/
theorem addAll_functions {h : Host} (hb : h.Built) (fs : List Recorded) (i : Nat) :
    (h.addAll fs).1.functions[i]? =
      (((fs.zip (h.addAll fs).2).filter (·.2.position = i)).getLast?.map fun x =>
        { x.1 with callees := [] }).or h.functions[i]? := by
  induction fs generalizing h with
  | nil => rfl
  | cons f fs ih =>
    show ((h.add { f with callees := [] }).1.addAll fs).1.functions[i]? = _
    rw [ih (hb.add _), hb.aligned.functions_add]
    show _ = ((((f, (h.add { f with callees := [] }).2) ::
      fs.zip ((h.add { f with callees := [] }).1.addAll fs).2).filter (·.2.position = i)).getLast?.map
        fun x => { x.1 with callees := [] }).or h.functions[i]?
    by_cases hi : i = (h.add { f with callees := [] }).2.position
    · rw [if_pos hi, List.filter_cons_of_pos (by simpa using hi.symm), List.getLast?_cons]
      cases List.getLast? _ <;> rfl
    · rw [if_neg hi, List.filter_cons_of_neg (by simpa using Ne.symm hi)]

private theorem compiledOnDemand_addAll (h : Host) (fs : List Recorded) :
    (h.addAll fs).1.compiledOnDemand = h.compiledOnDemand := by
  induction fs generalizing h with
  | nil => rfl
  | cons f fs ih => exact ih _

/-! ### Recording calls -/

/-- One host is another one with more calls: `more` has those of the function at each place. -/
structure GainsCalls (h h' : Host) (more : Nat → List Nat) : Prop where
  /-- The signatures are the same. -/
  table_eq : h'.table = h.table
  /-- The same functions have been compiled. -/
  compiled_eq : h'.compiledOnDemand = h.compiledOnDemand
  /-- The records are the same up to the new calls. -/
  functions_eq : ∀ i, h'.functions[i]? =
    h.functions[i]?.map fun (r : Recorded) => { r with callees := r.callees ++ more i }

namespace GainsCalls

theorem refl (h : Host) : GainsCalls h h fun _ => [] where
  table_eq := rfl
  compiled_eq := rfl
  functions_eq i := by simp

theorem trans {h h₁ h₂ : Host} {more more' : Nat → List Nat} (h₀₁ : GainsCalls h h₁ more)
    (h₁₂ : GainsCalls h₁ h₂ more') : GainsCalls h h₂ fun i => more i ++ more' i where
  table_eq := h₁₂.table_eq.trans h₀₁.table_eq
  compiled_eq := h₁₂.compiled_eq.trans h₀₁.compiled_eq
  functions_eq i := by
    rw [h₁₂.functions_eq, h₀₁.functions_eq, Option.map_map]
    simp only [Function.comp_def, List.append_assoc]

theorem addCallee (h : Host) (caller callee : Handle) :
    GainsCalls h (h.addCallee caller callee)
      fun i => if caller.position = i then [callee.position] else [] where
  table_eq := rfl
  compiled_eq := rfl
  functions_eq i := by
    rw [Host.addCallee, List.getElem?_modify]
    refine congrArg (Option.map · h.functions[i]?) (funext fun r => ?_)
    split
    · rfl
    · rw [List.append_nil]

end GainsCalls

/-- The handles at some positions, by number. -/
def targets (handles : List Handle) (positions : List Nat) : List Nat :=
  positions.filterMap fun c => handles[c]?.map Handle.position

/-- Recording the calls of one function. -/
theorem addCallees_of_lt {handles : List Handle} {callees : List Nat}
    (hc : ∀ c ∈ callees, c < handles.length) (caller : Handle) (h : Host) :
    ∃ h', h.addCallees handles caller callees = .ok h' ∧
      GainsCalls h h' fun i => if caller.position = i then targets handles callees else [] := by
  induction callees generalizing h with
  | nil =>
    refine ⟨h, rfl, ?_⟩
    simpa [targets] using GainsCalls.refl h
  | cons c callees ih =>
    have hget : handles[c]? = some (handles.get ⟨c, hc c List.mem_cons_self⟩) :=
      List.getElem?_eq_getElem _
    generalize handles.get ⟨c, hc c List.mem_cons_self⟩ = target at hget
    obtain ⟨h', he, hgains⟩ := ih (fun d hd => hc d (List.mem_cons_of_mem c hd)) (h.addCallee caller target)
    refine ⟨h', by rw [Host.addCallees, hget]; exact he, ?_⟩
    have hboth := (GainsCalls.addCallee h caller target).trans hgains
    have htargets : targets handles (c :: callees) = target.position :: targets handles callees := by
      rw [targets, List.filterMap_cons_some (by rw [hget]; rfl), ← targets]
    convert hboth using 2 with i
    split
    · rw [htargets]
      rfl
    · rfl

/-- The calls of a function cannot be recorded if a position is too great: the first one is the reason. -/
theorem addCallees_of_find? {handles : List Handle} {callees : List Nat} {c : Nat}
    (hc : callees.find? (handles.length ≤ ·) = some c) (caller : Handle) (h : Host) :
    h.addCallees handles caller callees = .error (.unknownFunction (Handle.ofPosition c).id) := by
  induction callees generalizing h with
  | nil => cases hc
  | cons d callees ih =>
    rw [Host.addCallees]
    by_cases hd : handles.length ≤ d
    · rw [List.find?_cons_of_pos (by simpa using hd), Option.some.injEq] at hc
      rw [List.getElem?_eq_none hd, hc]
    · rw [List.find?_cons_of_neg (by simpa using hd)] at hc
      rw [List.getElem?_eq_getElem (Nat.lt_of_not_le hd)]
      exact ih hc _

/-- **The second time**: the calls of all functions with one handle come together. -/
theorem foldlM_addCallees {handles : List Handle} (l : List (Recorded × Handle))
    (hc : ∀ x ∈ l, ∀ c ∈ x.1.callees, c < handles.length) (h : Host) :
    ∃ h', l.foldlM (fun h x => h.addCallees handles x.2 x.1.callees) h = .ok h' ∧
      GainsCalls h h' fun i =>
        (l.filter (·.2.position = i)).flatMap fun x => targets handles x.1.callees := by
  induction l generalizing h with
  | nil => exact ⟨h, rfl, .refl h⟩
  | cons x l ih =>
    obtain ⟨h₁, he₁, hgains₁⟩ := addCallees_of_lt (hc x List.mem_cons_self) x.2 h
    obtain ⟨h₂, he₂, hgains₂⟩ := ih (fun y hy => hc y (List.mem_cons_of_mem x hy)) h₁
    refine ⟨h₂, ?_, ?_⟩
    · rw [List.foldlM_cons, he₁]
      exact he₂
    · convert hgains₁.trans hgains₂ using 2 with i
      by_cases hi : x.2.position = i
      · rw [List.filter_cons_of_pos (by simpa using hi), List.flatMap_cons, if_pos hi]
      · rw [List.filter_cons_of_neg (by simpa using hi), if_neg hi, List.nil_append]

private theorem foldlM_addCallees_of_find? {handles : List Handle} {l : List (Recorded × Handle)} {c : Nat}
    (hc : (l.flatMap (·.1.callees)).find? (handles.length ≤ ·) = some c) (h : Host) :
    l.foldlM (fun h x => h.addCallees handles x.2 x.1.callees) h =
      .error (.unknownFunction (Handle.ofPosition c).id) := by
  induction l generalizing h with
  | nil => cases hc
  | cons x l ih =>
    rw [List.flatMap_cons, List.find?_append] at hc
    cases hx : x.1.callees.find? (handles.length ≤ ·) with
    | some d =>
      rw [hx] at hc
      obtain rfl : d = c := Option.some.inj hc
      rw [List.foldlM_cons, addCallees_of_find? hx]
      rfl
    | none =>
      rw [hx, Option.none_or] at hc
      have hlt : ∀ d ∈ x.1.callees, d < handles.length := by
        simpa using List.find?_eq_none.mp hx
      obtain ⟨h₁, he₁, -⟩ := addCallees_of_lt hlt x.2 h
      rw [List.foldlM_cons, he₁]
      exact ih hc h₁

/-! ### Loading -/

/-- The functions of a recording that have a handle. -/
def occurrences (fs : List Recorded) (a : Handle) : List Recorded :=
  fs.filter (handleOf fs · = a)

/-- The functions that a function of a recording calls, by the numbers of their handles. -/
def calls (fs : List Recorded) (f : Recorded) : List Nat :=
  f.callees.filterMap fun c => fs[c]?.map fun g => (handleOf fs g).position

/-- The host of a recording. -/
structure Loaded (fs : List Recorded) (h : Host) : Prop where
  /-- It has each signature once, in the order in which they first occur. -/
  signatures_eq : h.table.signatures = signaturesOf fs
  /-- The handle of a signature is its place there. -/
  handle?_eq : ∀ f ∈ fs, h.table.handle? f.signature = some (handleOf fs f)
  /-- Under a handle lies the last function that has it, with the calls of all functions that have it.
  Nothing lies elsewhere. -/
  functions_eq : ∀ a : Handle, h.functions[a.position]? =
    (occurrences fs a).getLast?.map fun (last : Recorded) =>
      { last with callees := (occurrences fs a).flatMap (calls fs) }
  /-- If there are no more signatures than handles, there is one function for each signature, and the
  functions with one handle are those with one signature. -/
  one_each : (signaturesOf fs).length ≤ UInt32.size →
    h.functions.map Recorded.signature = signaturesOf fs ∧
    ∀ f ∈ fs, occurrences fs (handleOf fs f) = fs.filter (·.signature = f.signature)
  /-- Nothing has been compiled yet. -/
  compiledOnDemand_eq : h.compiledOnDemand = []

/-- In a recording with no more signatures than handles, handles tell signatures apart. -/
theorem handleOf_eq_iff (hsize : (signaturesOf fs).length ≤ UInt32.size) {f g : Recorded} (hf : f ∈ fs)
    (hg : g ∈ fs) : handleOf fs f = handleOf fs g ↔ f.signature = g.signature := by
  have hlt : ∀ k ∈ fs, (signaturesOf fs).idxOf k.signature < UInt32.size := fun k hk =>
    Nat.lt_of_lt_of_le (List.idxOf_lt_length_iff.mpr (mem_signaturesOf.mpr ⟨k, hk, rfl⟩)) hsize
  rw [handleOf, handleOf, Handle.ofPosition_eq_iff (hlt f hf), Handle.position_ofPosition (hlt g hg)]
  exact List.idxOf_inj (mem_signaturesOf.mpr ⟨f, hf, rfl⟩)

/-- The handles that loading a recording gives out. -/
theorem addAll_handles (fs : List Recorded) : (({} : Host).addAll fs).2 = fs.map (handleOf fs) := by
  have hsignatures := signatures_addAll_empty fs
  refine List.map_injective_iff.mpr (fun _ _ => Option.some.inj) ?_
  rw [handles_addAll, List.map_map]
  refine List.map_congr_left fun f hf => ?_
  have hmem : f.signature ∈ (({} : Host).addAll fs).1.table.signatures := by
    rw [hsignatures]
    exact mem_signaturesOf.mpr ⟨f, hf, rfl⟩
  rw [(Built.empty.addAll fs).indexed.handle?_eq_idxOf hmem, hsignatures]
  rfl

private theorem targets_map_handleOf (fs : List Recorded) (f : Recorded) :
    targets (fs.map (handleOf fs)) f.callees = calls fs f := by
  unfold targets calls
  simp only [List.getElem?_map, Option.map_map, Function.comp_def]

theorem ofRecording_eq (fs : List Recorded) :
    ofRecording fs = (fs.map fun f => (f, handleOf fs f)).foldlM
      (fun h x => h.addCallees (fs.map (handleOf fs)) x.2 x.1.callees) (({} : Host).addAll fs).1 := by
  rw [List.map_prod_left_eq_zip, ← addAll_handles]
  rfl

/-- **Loading fails because of the first position that is too great.** -/
theorem ofRecording_of_find? {c : Nat}
    (hc : (fs.flatMap Recorded.callees).find? (fs.length ≤ ·) = some c) :
    ofRecording fs = .error (.unknownFunction (Handle.ofPosition c).id) := by
  rw [ofRecording_eq]
  refine foldlM_addCallees_of_find? ?_ _
  rw [List.flatMap_map, List.length_map]
  exact hc

/-- **What loading gives**, if all positions are in range. -/
theorem loaded_of_lt (hc : ∀ f ∈ fs, ∀ c ∈ f.callees, c < fs.length) :
    ∃ h, ofRecording fs = .ok h ∧ Loaded fs h := by
  have hrange : ∀ x ∈ fs.map fun f => (f, handleOf fs f), ∀ c ∈ x.1.callees,
      c < (fs.map (handleOf fs)).length := by
    intro x hx
    obtain ⟨f, hf, rfl⟩ := List.mem_map.mp hx
    rw [List.length_map]
    exact hc f hf
  obtain ⟨h, he, hgains⟩ := foldlM_addCallees _ hrange (({} : Host).addAll fs).1
  rw [← ofRecording_eq] at he
  have hbuilt := built_of_ofRecording he
  have hsignatures : h.table.signatures = signaturesOf fs := by
    rw [hgains.table_eq, signatures_addAll_empty fs]
  -- the functions with a handle, as they come when handles are given out
  have hfilter : ∀ a : Handle, ((fs.map fun f => (f, handleOf fs f)).filter (·.2.position = a.position)) =
      (occurrences fs a).map fun f => (f, handleOf fs f) := by
    intro a
    rw [List.filter_map, occurrences]
    refine congrArg (List.map _) (List.filter_congr fun f _ => ?_)
    rw [Function.comp_apply, decide_eq_decide]
    constructor
    · intro heq
      rw [← (handleOf fs f).ofPosition_position, heq, Handle.ofPosition_position]
    · exact congrArg Handle.position
  refine ⟨h, he, hsignatures, fun f hf => ?_, fun a => ?_, fun hsize => ⟨?_, fun f hf => ?_⟩, ?_⟩
  · have hmem : f.signature ∈ h.table.signatures := by
      rw [hsignatures]
      exact mem_signaturesOf.mpr ⟨f, hf, rfl⟩
    rw [hbuilt.indexed.handle?_eq_idxOf hmem, hsignatures]
    rfl
  · rw [hgains.functions_eq, addAll_functions .empty, addAll_handles, ← List.map_prod_left_eq_zip,
      hfilter, List.getLast?_map, List.flatMap_map]
    simp only [targets_map_handleOf]
    cases (occurrences fs a).getLast? <;> rfl
  · have hsmall : h.size ≤ UInt32.size := by rw [size, SignatureTable.size, hsignatures]; exact hsize
    have hin := hbuilt.reaches.inStep ⟨.empty, rfl⟩ hsmall
    rw [hin.signature_eq, hsignatures]
  · refine List.filter_congr fun g hg => ?_
    rw [decide_eq_decide]
    exact handleOf_eq_iff hsize hg hf
  · exact hgains.compiled_eq.trans (compiledOnDemand_addAll {} fs)

/-! ### Saving and loading -/

/-- The host `h'` that comes of the recording of a host. -/
structure Reloaded (h h' : Host) : Prop where
  /-- It has the same functions, with all that is recorded about them. -/
  functions_eq : h'.functions = h.functions
  /-- Under each handle it names the same callees. -/
  callees_eq : ∀ a, h'.callees a = h.callees a
  /-- Its functions have the same handles. -/
  handle?_eq : ∀ f ∈ h.functions, h'.table.handle? f.signature = h.table.handle? f.signature
  /-- If there are no more signatures than handles, it is the same host, in which nothing has been
  compiled on demand yet. -/
  eq : h.size ≤ UInt32.size → h' = { h with compiledOnDemand := [] }

namespace Built

variable {h : Host}

/-- No two functions of a host have the same signature. -/
theorem nodup_signatures (hb : h.Built) : (h.functions.map Recorded.signature).Nodup := by
  refine List.nodup_iff_injective_getElem.mpr fun i j hij => Fin.ext ?_
  have hle := hb.aligned.length_le
  have hplace : ∀ k (hk : k < (h.functions.map Recorded.signature).length),
      h.table.handle? (h.functions.map Recorded.signature)[k] = some (.ofPosition k) := by
    intro k hk
    rw [List.getElem_map]
    exact hb.handle?_of_getElem? (List.getElem?_eq_getElem _)
  dsimp only at hij
  have hi := hplace i i.isLt
  rw [hij, hplace j j.isLt, Option.some.injEq, eq_comm] at hi
  have hlt : ∀ k : Fin (h.functions.map Recorded.signature).length, k.val < UInt32.size := fun k =>
    Nat.lt_of_lt_of_le (by simpa using k.isLt) hle
  rwa [Handle.ofPosition_eq_iff (hlt i), Handle.position_ofPosition (hlt j)] at hi

theorem signaturesOf_functions (hb : h.Built) :
    signaturesOf h.functions = h.functions.map Recorded.signature :=
  List.eraseDups_eq_self hb.nodup_signatures

/-- A function of a host has the handle of its place. -/
theorem handleOf_functions (hb : h.Built) {i : Nat} {f : Recorded} (hi : h.functions[i]? = some f) :
    handleOf h.functions f = .ofPosition i := by
  obtain ⟨hlt, rfl⟩ := List.getElem?_eq_some_iff.mp hi
  have hidx := hb.nodup_signatures.idxOf_getElem i (by simpa using hlt)
  rw [List.getElem_map] at hidx
  rw [handleOf, hb.signaturesOf_functions, hidx]

/-- Calls that are in range are calls of handles already. -/
theorem calls_functions (hb : h.Built) {f : Recorded}
    (hc : ∀ c ∈ f.callees, c < h.functions.length) : calls h.functions f = f.callees := by
  have hsame : ∀ c ∈ f.callees,
      (h.functions[c]?.map fun g => (handleOf h.functions g).position) = some c := by
    intro c hmem
    have hget := List.getElem?_eq_getElem (hc c hmem)
    rw [hget, Option.map_some, hb.handleOf_functions hget,
      Handle.position_ofPosition (Nat.lt_of_lt_of_le (hc c hmem) hb.aligned.length_le)]
  rw [calls, List.filterMap_congr hsame, List.filterMap_some]

/-- **Loading undoes saving.** -/
theorem reloaded (hb : h.Built) (hc : ∀ f ∈ h.functions, ∀ c ∈ f.callees, c < h.functions.length) :
    ∃ h', ofRecording h.recording = .ok h' ∧ Reloaded h h' := by
  obtain ⟨h', he, hl⟩ := loaded_of_lt hc
  have hb' := built_of_ofRecording he
  have hsize : (signaturesOf h.functions).length ≤ UInt32.size := by
    rw [hb.signaturesOf_functions, List.length_map]
    exact hb.aligned.length_le
  obtain ⟨hsignatures, hoccurrences⟩ := hl.one_each hsize
  have hlength : h'.functions.length = h.functions.length := by
    have := congrArg List.length hsignatures
    rwa [hb.signaturesOf_functions, List.length_map, List.length_map] at this
  have hfunctions : h'.functions = h.functions := by
    refine List.ext_getElem? fun i => ?_
    rcases Nat.lt_or_ge i h.functions.length with hlt | hge
    · -- the function at a place is the only one with its signature
      have hget := List.getElem?_eq_getElem hlt
      have hmem := List.mem_of_getElem? hget
      have hlast := hl.functions_eq (.ofPosition i)
      rw [← hb.handleOf_functions hget, hoccurrences _ hmem,
        List.filter_eq_singleton_of_nodup hb.nodup_signatures hmem, hb.handleOf_functions hget,
        Handle.position_ofPosition (Nat.lt_of_lt_of_le hlt hb.aligned.length_le)] at hlast
      rw [hlast, hget]
      simp [hb.calls_functions (hc _ hmem)]
    · rw [List.getElem?_eq_none hge, List.getElem?_eq_none (by rw [hlength]; exact hge)]
  refine ⟨h', he, hfunctions, fun a => ?_, fun f hf => ?_, fun hsmall => ?_⟩
  · rw [Host.callees, Host.callees, Host.get, Host.get, hfunctions]
  · obtain ⟨i, hi⟩ := List.mem_iff_getElem?.mp hf
    rw [hl.handle?_eq f hf, hb.handleOf_functions hi, hb.handle?_of_getElem? hi]
  · have hin := hb.reaches.inStep ⟨.empty, rfl⟩ hsmall
    have htable : h'.table = h.table := by
      rw [hb'.table_eq, hb.table_eq, hl.signatures_eq, hb.signaturesOf_functions, hin.signature_eq]
    have hdemand := hl.compiledOnDemand_eq
    cases h'
    simp only at hfunctions htable hdemand
    rw [hfunctions, htable, hdemand]

end Built

/-- **Loading and saving recordings.**  Loading a recording fails if some function calls a position outside
of it, and for no other reason; the error names the first such position, going through the functions and
their calls in order.  Otherwise each signature gets the handle of its place among all signatures, and the
function under a handle is the last one that has it, with the calls of all that have it.  Loading the
recording of a host whose calls are in range gives that host again. -/
theorem ofRecording_exact (fs : List Recorded) :
    ((∃ e, ofRecording fs = .error e) ↔ ∃ f ∈ fs, ∃ c ∈ f.callees, fs.length ≤ c) ∧
    (∀ e, ofRecording fs = .error e →
      ∃ c, (fs.flatMap Recorded.callees).find? (fs.length ≤ ·) = some c ∧
        e = .unknownFunction (Handle.ofPosition c).id) ∧
    (∀ h, ofRecording fs = .ok h → Loaded fs h) ∧
    ∀ h : Host, h.Built → (∀ f ∈ h.functions, ∀ c ∈ f.callees, c < h.functions.length) →
      ∃ h', ofRecording h.recording = .ok h' ∧ Reloaded h h' := by
  cases hc : (fs.flatMap Recorded.callees).find? (fs.length ≤ ·) with
  | some c =>
    have herror := ofRecording_of_find? hc
    obtain ⟨f, hf, hmem⟩ := List.mem_flatMap.mp (List.mem_of_find?_eq_some hc)
    have hle : fs.length ≤ c := by simpa using List.find?_some hc
    refine ⟨iff_of_true ⟨_, herror⟩ ⟨f, hf, c, hmem, hle⟩, fun e he => ⟨c, rfl, ?_⟩, fun h he => ?_,
      fun h hb hc => hb.reloaded hc⟩
    · rw [herror] at he
      exact (Except.error.inj he).symm
    · rw [herror] at he
      cases he
  | none =>
    have hlt : ∀ f ∈ fs, ∀ c ∈ f.callees, c < fs.length := by
      intro f hf c hmem
      have hnot := List.find?_eq_none.mp hc c (List.mem_flatMap.mpr ⟨f, hf, hmem⟩)
      simpa using hnot
    obtain ⟨h, hok, hloaded⟩ := loaded_of_lt hlt
    refine ⟨iff_of_false ?_ ?_, fun e he => ?_, fun h' he => ?_, fun h hb hc => hb.reloaded hc⟩
    · intro hex
      obtain ⟨e, he⟩ := hex
      rw [hok] at he
      cases he
    · intro hex
      obtain ⟨f, hf, c, hmem, hle⟩ := hex
      exact Nat.not_lt.mpr hle (hlt f hf c hmem)
    · rw [hok] at he
      cases he
    · rw [hok] at he
      exact Except.ok.inj he ▸ hloaded

/-- Three recordings of two functions, which call one another by position.  The first and the last are of
one function, whose scope is written in two ways. -/
def namesakes : List Recorded := [
  { name := "f", scope := "Main", callees := [1, 2], ir := "old" },
  { name := "g", scope := "Main", callees := [2], ir := "g" },
  { name := "f", scope := ".Main", callees := [0, 1], ir := "new", compiled := true }]

/-- The two functions, loaded, saved and loaded again. -/
theorem ofRecording_exact_namesakes :
    ∃ h, ofRecording namesakes = .ok h ∧
      h.functions = [
        { name := "f", scope := ".Main", callees := [1, 0, 0, 1], ir := "new", compiled := true },
        { name := "g", scope := "Main", callees := [0], ir := "g" }] ∧
      Loaded namesakes h ∧ ofRecording h.recording = .ok h := by
  have hload : (ofRecording namesakes).toOption.map (fun h => (h.functions, h.size, h.compiledOnDemand)) =
      some ([
        { name := "f", scope := ".Main", callees := [1, 0, 0, 1], ir := "new", compiled := true },
        { name := "g", scope := "Main", callees := [0], ir := "g" }], 2, []) := by decide +kernel
  obtain ⟨h, hok, hh⟩ := Except.exists_of_map_toOption hload
  obtain ⟨hfunctions, hsize, hdemand⟩ : h.functions = _ ∧ h.size = 2 ∧ h.compiledOnDemand = [] := by
    simpa using hh
  obtain ⟨-, -, hloaded, hreloaded⟩ := ofRecording_exact namesakes
  obtain ⟨h', hok', hsame⟩ := hreloaded h (built_of_ofRecording hok) (by rw [hfunctions]; decide)
  obtain rfl : h' = h := by
    rw [hsame.eq (by rw [hsize]; decide), ← hdemand]
  exact ⟨h', hok, hfunctions, hloaded h' hok, hok'⟩

end Host

end Freestanding
