import Freestanding.Proofs.Host.Shape
import Mathlib.Logic.Relation

/-!
# Handles keep their meaning

A host holds each signature three times: in the list of signatures, in the index, and in the record of
the function.  Recording a function again replaces its record, and two scopes that differ as texts may be
the same scope, so the three have to be kept in step.  They are, whatever is done to the host, as long
as there are no more signatures than handles.  A handle that has been given out therefore stands for one
signature, and that signature for the handle.

## Main definitions

* `SignatureTable.Indexed` — the index of a table leads to the places of its signatures.
* `Host.InStep` — table and records agree.
* `Host.Step`, `Host.Reaches` — what can be done to a host, once and repeatedly.
* `Host.HandlesKept` — what handles mean in a host and meant on the way to it.

## Main results

* `Host.InStep.step`, `Host.Reaches.inStep` — one step, and many.
* `Host.handles_kept` — **handles keep their meaning.**
-/

namespace Freestanding

namespace SignatureTable

/-- No signature stands twice in the table, and the index leads from the signature at each place to the
handle with that number, and from nothing else anywhere. -/
structure Indexed (t : SignatureTable) : Prop where
  /-- The signatures are different. -/
  nodup : t.signatures.Nodup
  /-- The index has the places of the signatures. -/
  handle?_iff : ∀ s a, t.handle? s = some a ↔ ∃ i, t.signatures[i]? = some s ∧ a = .ofPosition i

namespace Indexed

variable {t : SignatureTable} {s : Signature}

theorem empty : Indexed {} where
  nodup := List.nodup_nil
  handle?_iff s a := by
    show List.lookup s [] = some a ↔ _
    simp

/-- A signature that the index does not have is not in the table. -/
theorem notMem (ht : t.Indexed) (hs : t.handle? s = none) : s ∉ t.signatures := by
  intro hmem
  obtain ⟨i, hi⟩ := List.mem_iff_getElem?.mp hmem
  have hfound := (ht.handle?_iff s _).mpr ⟨i, hi, rfl⟩
  rw [hs] at hfound
  cases hfound

theorem enter (ht : t.Indexed) (hs : t.handle? s = none) : (t.enter s).Indexed where
  nodup := by
    show (t.signatures ++ [s]).Nodup
    refine List.nodup_append.mpr ⟨ht.nodup, by simp, ?_⟩
    intro s₁ h₁ s₂ h₂
    rw [List.mem_singleton.mp h₂]
    rintro rfl
    exact ht.notMem hs h₁
  handle?_iff s' a := by
    show _ ↔ ∃ i, (t.signatures ++ [s])[i]? = some s' ∧ a = .ofPosition i
    simp only [handle?_enter, List.getElem?_concat_eq_some_iff, or_and_right, exists_or]
    by_cases h : s' = s
    · -- the new signature: it stands at the end and nowhere before
      subst h
      rw [if_pos rfl, Option.some.injEq]
      constructor
      · intro ha
        exact Or.inr ⟨t.size, ⟨rfl, rfl⟩, ha.symm⟩
      · rintro (⟨i, hi, -⟩ | ⟨i, ⟨rfl, -⟩, rfl⟩)
        · exact absurd (List.mem_of_getElem? hi) (ht.notMem hs)
        · rfl
    · -- any other signature stands where it stood
      rw [if_neg h, ht.handle?_iff]
      refine (or_iff_left ?_).symm
      rintro ⟨i, ⟨-, heq⟩, -⟩
      exact h heq.symm

theorem intern (ht : t.Indexed) (s : Signature) : (t.intern s).1.Indexed := by
  rcases t.intern_cases s with ⟨a, -, he⟩ | ⟨hs, he⟩
  · rw [he]
    exact ht
  · rw [he]
    exact ht.enter hs

/-- While there are no more signatures than handles, the index and the list of signatures are inverse to
each other. -/
theorem handle?_eq_some_iff (ht : t.Indexed) (hsize : t.size ≤ UInt32.size) (a : Handle) :
    t.handle? s = some a ↔ t.get? a = some s := by
  rw [ht.handle?_iff]
  unfold get?
  constructor
  · rintro ⟨i, hi, rfl⟩
    have hlt : i < t.size := (List.getElem?_eq_some_iff.mp hi).1
    rwa [Handle.position_ofPosition (by omega)]
  · intro hi
    exact ⟨a.position, hi, a.ofPosition_position.symm⟩

end Indexed

/-- What has been interned is found under the handle that was given out. -/
theorem handle?_intern (t : SignatureTable) (s : Signature) :
    (t.intern s).1.handle? s = some (t.intern s).2 := by
  rcases t.intern_cases s with ⟨a, ha, he⟩ | ⟨-, he⟩
  · rw [he]
    exact ha
  · rw [he, handle?_enter, if_pos rfl]

private theorem isPrefix_intern (t : SignatureTable) (s : Signature) :
    t.signatures <+: (t.intern s).1.signatures := by
  rcases t.intern_cases s with ⟨a, -, he⟩ | ⟨-, he⟩
  · exact he ▸ List.prefix_refl t.signatures
  · rw [he]
    exact List.prefix_append t.signatures [s]

end SignatureTable

theorem Recorded.signature_eq_iff {f g : Recorded} : f.signature = g.signature ↔
    f.name = g.name ∧ ScopePath.parse f.scope = ScopePath.parse g.scope ∧ f.arguments = g.arguments := by
  unfold Recorded.signature
  rw [Signature.mk.injEq]

namespace Host

/-! ### Table and records -/

/-- A record may be replaced by one with the same signature. -/
theorem map_signature_set {fs : List Recorded} {i : Nat} {f : Recorded}
    (hi : (fs.map Recorded.signature)[i]? = some f.signature) :
    (fs.set i f).map Recorded.signature = fs.map Recorded.signature := by
  obtain ⟨hlt, heq⟩ := List.getElem?_eq_some_iff.mp hi
  rw [List.map_set, ← heq, List.set_getElem_self]

/-- The table leads to its signatures, and the records have these signatures, one after the other. -/
structure InStep (h : Host) : Prop where
  /-- The table is in order. -/
  indexed : h.table.Indexed
  /-- Each record has the signature of its place. -/
  signature_eq : h.functions.map Recorded.signature = h.table.signatures

namespace InStep

variable {h h' : Host}

theorem length_eq (hi : h.InStep) : h.functions.length = h.table.size := by
  rw [SignatureTable.size, ← hi.signature_eq, List.length_map]

/-- The place of the record that recording a function writes: a record that is there, or the next one. -/
theorem position_add (hi : h.InStep) {f : Recorded} (hsize : (h.add f).1.size ≤ UInt32.size) :
    h.table.signatures[(h.add f).2.position]? = some f.signature ∧
        (h.add f).1.table = h.table ∧
        (h.add f).1.functions = h.functions.set (h.add f).2.position f ∨
      (h.add f).2.position = h.functions.length ∧
        (h.add f).1.table.signatures = h.table.signatures ++ [f.signature] ∧
        (h.add f).1.functions = h.functions ++ [f] := by
  have hlen := hi.length_eq
  unfold Host.add at hsize ⊢
  rcases h.table.intern_cases f.signature with ⟨a, ha, he⟩ | ⟨-, he⟩
  · left
    simp only [he] at hsize ⊢
    have hplace := (hi.indexed.handle?_eq_some_iff hsize a).mp ha
    have hlt : a.position < h.table.size := (List.getElem?_eq_some_iff.mp hplace).1
    rw [if_pos (by omega)]
    exact ⟨hplace, trivial, rfl⟩
  · right
    simp only [he] at hsize ⊢
    have hroom : h.table.size < UInt32.size := by
      have : (h.table.enter f.signature).size ≤ UInt32.size := hsize
      rw [SignatureTable.size_enter] at this
      omega
    rw [Handle.position_ofPosition hroom, if_neg (by omega)]
    exact ⟨hlen.symm, rfl, rfl⟩

theorem add (hi : h.InStep) {f : Recorded} (hsize : (h.add f).1.size ≤ UInt32.size) :
    (h.add f).1.InStep where
  indexed := hi.indexed.intern f.signature
  signature_eq := by
    rcases hi.position_add hsize with ⟨hplace, htable, hfunctions⟩ | ⟨-, htable, hfunctions⟩
    · -- the new record has the signature of the old one
      rw [← hi.signature_eq] at hplace
      rw [hfunctions, htable, map_signature_set hplace, hi.signature_eq]
    · rw [hfunctions, htable, List.map_append, hi.signature_eq]
      rfl

/-- **Recording a function writes one record**: that of the handle it gives. -/
theorem get_add (hi : h.InStep) {f : Recorded} (hsize : (h.add f).1.size ≤ UInt32.size) (a : Handle) :
    (h.add f).1.get a = if a = (h.add f).2 then .ok f else h.get a := by
  have hpos : a.position = (h.add f).2.position → a = (h.add f).2 := by
    intro heq
    rw [← a.ofPosition_position, heq, Handle.ofPosition_position]
  have hlen := hi.length_eq
  unfold Host.get
  rcases hi.position_add hsize with ⟨hplace, -, hfunctions⟩ | ⟨hnew, -, hfunctions⟩
  · have hlt : (h.add f).2.position < h.table.size := (List.getElem?_eq_some_iff.mp hplace).1
    rw [hfunctions]
    by_cases ha : a = (h.add f).2
    · rw [if_pos ha, ha, List.getElem?_set_self (by omega)]
    · rw [if_neg ha, List.getElem?_set_ne fun heq => ha (hpos heq.symm)]
  · rw [hfunctions]
    by_cases ha : a = (h.add f).2
    · rw [if_pos ha, ha, hnew, List.getElem?_concat_length]
    · have hne : a.position ≠ h.functions.length := fun heq => ha (hpos (heq.trans hnew.symm))
      rw [if_neg ha]
      rcases Nat.lt_or_gt_of_ne hne with hlt | hgt
      · rw [List.getElem?_append_left hlt]
      · rw [List.getElem?_eq_none (by simpa using Nat.succ_le_of_lt hgt),
          List.getElem?_eq_none (by omega)]

/-- In step, a handle is described by a signature if the index has it under that signature. -/
theorem describe_eq_ok_iff (hi : h.InStep) (hsize : h.size ≤ UInt32.size) {a : Handle} {s : Signature} :
    h.describe a = .ok s ↔ h.table.handle? s = some a := by
  rw [hi.indexed.handle?_eq_some_iff hsize]
  unfold Host.describe
  cases h.table.get? a with
  | none => simp
  | some s' => simp

end InStep

/-! ### Steps -/

/-- What can be done to a host. -/
inductive Step : Host → Host → Prop
  /-- Record a function. -/
  | add (h : Host) (f : Recorded) : Step h (h.add f).1
  /-- Record a call. -/
  | addCallee (h : Host) (caller callee : Handle) : Step h (h.addCallee caller callee)
  /-- Have a function compiled. -/
  | compile {h h' : Host} {f : Handle} (he : h.ensureCompiled f = .ok h') : Step h h'
  /-- Change the list of functions compiled on demand, which is open to everyone. -/
  | note (h : Host) (onDemand : List Handle) : Step h { h with compiledOnDemand := onDemand }

/-- One host comes from another by steps. -/
def Reaches : Host → Host → Prop :=
  Relation.ReflTransGen Step

/-- A host that can be made comes from the empty one. -/
theorem Built.reaches {h : Host} (hb : h.Built) : Reaches {} h := by
  induction hb with
  | empty => exact .refl
  | add f _ ih => exact ih.tail (.add _ f)
  | addCallee caller callee _ ih => exact ih.tail (.addCallee _ caller callee)
  | compile _ he ih => exact ih.tail (.compile he)
  | note onDemand _ ih => exact ih.tail (.note _ onDemand)

/-- A step records a function, or it leaves the table and the signatures of all records alone. -/
theorem Step.cases_add {h h' : Host} (hs : Step h h') :
    (∃ f, h' = (h.add f).1) ∨
      h'.table = h.table ∧
        h'.functions.map Recorded.signature = h.functions.map Recorded.signature := by
  cases hs with
  | add f => exact Or.inl ⟨f, rfl⟩
  | addCallee caller callee =>
    refine Or.inr ⟨rfl, List.ext_getElem? fun i => ?_⟩
    unfold Host.addCallee
    rw [List.getElem?_map, List.getElem?_map, List.getElem?_modify]
    cases h.functions[i]? with
    | none => rfl
    | some r =>
      show some (Recorded.signature (if caller.position = i then _ else r)) = some r.signature
      split <;> rfl
  | @compile _ f he =>
    right
    unfold Host.ensureCompiled Host.get at he
    cases hr : h.functions[f.position]? with
    | none =>
      rw [hr] at he
      cases he
    | some r =>
      simp only [hr, bind, Except.bind, pure, Except.pure] at he
      split at he
      · cases he
        exact ⟨rfl, rfl⟩
      · cases he
        refine ⟨rfl, map_signature_set ?_⟩
        rw [List.getElem?_map, hr]
        rfl
  | note onDemand => exact Or.inr ⟨rfl, rfl⟩

/-- Signatures are never taken back. -/
theorem Step.isPrefix {h h' : Host} (hs : Step h h') :
    h.table.signatures <+: h'.table.signatures := by
  rcases hs.cases_add with ⟨f, rfl⟩ | ⟨htable, -⟩
  · exact h.table.isPrefix_intern f.signature
  · exact htable ▸ List.prefix_refl h.table.signatures

/-- **One step keeps table and records in step**, if it leaves enough handles. -/
theorem InStep.step {h h' : Host} (hi : h.InStep) (hs : Step h h') (hsize : h'.size ≤ UInt32.size) :
    h'.InStep := by
  rcases hs.cases_add with ⟨f, rfl⟩ | ⟨htable, hfunctions⟩
  · exact hi.add hsize
  · refine ⟨?_, ?_⟩
    · rw [htable]
      exact hi.indexed
    · rw [hfunctions, htable]
      exact hi.signature_eq

namespace Reaches

variable {h h' : Host}

theorem isPrefix (hr : h.Reaches h') : h.table.signatures <+: h'.table.signatures := by
  induction hr with
  | refl => exact List.prefix_refl _
  | tail _ hs ih => exact ih.trans hs.isPrefix

private theorem size_le (hr : h.Reaches h') : h.size ≤ h'.size :=
  hr.isPrefix.length_le

/-- **Many steps keep table and records in step.** -/
theorem inStep (hr : h.Reaches h') (hi : h.InStep) (hsize : h'.size ≤ UInt32.size) : h'.InStep := by
  -- the tables before had fewer signatures, so the bound at the end is one for all steps
  induction hr with
  | refl => exact hi
  | tail _ hs ih =>
    have hle := hs.isPrefix.length_le
    exact (ih (Nat.le_trans hle hsize)).step hs hsize

/-- A handle that is described goes on to be described in the same way. -/
theorem describe_eq (hr : h.Reaches h') {a : Handle} {s : Signature} (hd : h.describe a = .ok s) :
    h'.describe a = .ok s := by
  obtain ⟨rest, hrest⟩ := hr.isPrefix
  unfold Host.describe SignatureTable.get? at hd ⊢
  cases hs : h.table.signatures[a.position]? with
  | none =>
    rw [hs] at hd
    cases hd
  | some s' =>
    have hlt := (List.getElem?_eq_some_iff.mp hs).1
    rw [hs] at hd
    rw [← hrest, List.getElem?_append_left hlt, hs]
    exact hd

end Reaches

/-! ### Handles on the way to a host -/

/-- What handles mean in a host, and what they meant on the way to it from a start. -/
structure HandlesKept (start h : Host) : Prop where
  /-- There are as many records as signatures. -/
  length_eq : h.functions.length = h.table.size
  /-- The signatures are different, and the index leads from each to the handle of its place. -/
  indexed : h.table.Indexed
  /-- The record at each place has the signature at that place. -/
  signature_eq : h.functions.map Recorded.signature = h.table.signatures
  /-- A handle is described as it ever was. -/
  describe_eq : ∀ (h₀ : Host) (a : Handle) (s : Signature), start.Reaches h₀ → h₀.Reaches h →
    h₀.describe a = .ok s → h.describe a = .ok s
  /-- A handle that recording a function gave is described by the signature of that function. -/
  describe_add : ∀ (h₀ : Host) (f : Recorded), start.Reaches h₀ → (h₀.add f).1.Reaches h →
    h.describe (h₀.add f).2 = .ok f.signature
  /-- Recording two functions gave the same handle if they have the same name, scope and arguments. -/
  add_eq_iff : ∀ (h₀ h₁ : Host) (f g : Recorded), start.Reaches h₀ → (h₀.add f).1.Reaches h₁ →
    (h₁.add g).1.Reaches h → ((h₀.add f).2 = (h₁.add g).2 ↔
      f.name = g.name ∧ ScopePath.parse f.scope = ScopePath.parse g.scope ∧ f.arguments = g.arguments)
  /-- Recording a function changed no record but that of the handle it gave. -/
  get_add : ∀ (h₀ : Host) (f : Recorded), start.Reaches h₀ → (h₀.add f).1.Reaches h →
    ∀ a, (h₀.add f).1.get a = if a = (h₀.add f).2 then .ok f else h₀.get a

/-- A recorded function is described by its signature, under the handle that it was given. -/
theorem InStep.describe_add {h : Host} (hi : h.InStep) {f : Recorded}
    (hsize : (h.add f).1.size ≤ UInt32.size) : (h.add f).1.describe (h.add f).2 = .ok f.signature :=
  ((hi.add hsize).describe_eq_ok_iff hsize).mpr (h.table.handle?_intern f.signature)

/-- **Handles keep their meaning.**  Whatever is done to a host, from an empty one or one made from a
recording, and as long as there are no more signatures than handles: signatures, index and records stay
in step, so a handle stands for one signature and the signature for the handle, from the moment it was
given out; and recording a function touches no record but its own. -/
theorem handles_kept {start h : Host}
    (hstart : start = {} ∨ ∃ functions, ofRecording functions = .ok start) (hr : start.Reaches h)
    (hsize : h.size ≤ UInt32.size) : HandlesKept start h := by
  have hempty : InStep {} := ⟨.empty, rfl⟩
  have hbuilt : start.Built := by
    rcases hstart with rfl | ⟨functions, he⟩
    · exact .empty
    · exact built_of_ofRecording he
  -- every host on the way is in step, since it has at most as many signatures
  have hway : ∀ h₀ : Host, start.Reaches h₀ → h₀.Reaches h →
      h₀.size ≤ UInt32.size ∧ h₀.InStep := by
    intro h₀ h₁ h₂
    have hle := Nat.le_trans h₂.size_le hsize
    exact ⟨hle, Reaches.inStep (hbuilt.reaches.trans h₁) hempty hle⟩
  have hadd : ∀ (h₀ : Host) (f : Recorded), start.Reaches h₀ → start.Reaches (h₀.add f).1 :=
    fun h₀ f h₁ => h₁.tail (.add h₀ f)
  -- what recording a function says about the host before and after
  have hrecord : ∀ (h₀ : Host) (f : Recorded), start.Reaches h₀ → (h₀.add f).1.Reaches h →
      h₀.InStep ∧ (h₀.add f).1.size ≤ UInt32.size := by
    intro h₀ f h₁ h₂
    exact ⟨(hway h₀ h₁ (.head (.add h₀ f) h₂)).2, (hway _ (hadd h₀ f h₁) h₂).1⟩
  have hdescribe : ∀ (h₀ : Host) (f : Recorded), start.Reaches h₀ → (h₀.add f).1.Reaches h →
      h.describe (h₀.add f).2 = .ok f.signature := by
    intro h₀ f h₁ h₂
    obtain ⟨hi, hle⟩ := hrecord h₀ f h₁ h₂
    exact h₂.describe_eq (hi.describe_add hle)
  have hin := (hway h hr .refl).2
  refine ⟨hin.length_eq, hin.indexed, hin.signature_eq, ?_, hdescribe, ?_, ?_⟩
  · intro h₀ a s _ h₂ hd
    exact h₂.describe_eq hd
  · intro h₀ h₁ f g hs h₀₁ h₁g
    have hs₁ : start.Reaches h₁ := (hadd h₀ f hs).trans h₀₁
    have hf := hdescribe h₀ f hs (h₀₁.trans (.head (.add h₁ g) h₁g))
    have hg := hdescribe h₁ g hs₁ h₁g
    rw [← Recorded.signature_eq_iff]
    constructor
    · intro heq
      rw [heq, hg] at hf
      exact (Except.ok.inj hf).symm
    · -- the index has one handle for the signature
      intro heq
      rw [hin.describe_eq_ok_iff hsize] at hf hg
      rw [heq, hg] at hf
      exact (Option.some.inj hf).symm
  · intro h₀ f hs h₂
    obtain ⟨hi, hle⟩ := hrecord h₀ f hs h₂
    exact hi.get_add hle

/-- The area of a circle. -/
def circleArea : Recorded :=
  { name := "area", scope := "Main.Geo", arguments := ["Circle"], ir := "old" }

/-- A host with the areas of circles and of squares.  The first one calls the second, and is then
recorded again, with its scope written in another way. -/
def areaHost : Host :=
  let h := (({} : Host).add circleArea).1
  let h := ((h.add { circleArea with arguments := ["Square"] }).1.addCallee ⟨0⟩ ⟨1⟩)
  (h.add { circleArea with scope := ".Main..Geo", ir := "new" }).1

theorem handles_kept_areaHost :
    areaHost.functions.map Recorded.ir = (["new", "old"] : List Text) ∧ areaHost.size = 2 ∧
      HandlesKept {} areaHost := by
  have hsize : areaHost.size = 2 := by decide
  refine ⟨by decide, hsize, handles_kept (.inl rfl) ?_ (by rw [hsize]; decide)⟩
  exact (((Relation.ReflTransGen.refl.tail (.add _ _)).tail (.add _ _)).tail (.addCallee _ _ _)).tail
    (.add _ _)

end Host

end Freestanding
