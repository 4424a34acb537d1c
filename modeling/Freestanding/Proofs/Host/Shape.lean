import Freestanding.Host.Recording
import Freestanding.Proofs.Lists

/-!
# The shape of a host

A host keeps two lists, the signatures and the recorded functions.  Both grow together, so a handle
that has a signature also has a record.  Handles have 32 bits: a signature beyond them gets a handle
that is in use, and its record takes the place of an older one.  Up to that number the two lists have
the same length, and no handle can tell the difference.

## Main definitions

* `Host.Built` — a host made by recording functions and calls, and by having functions compiled.
* `Host.Aligned` — signatures and records belong to the same handles.
* `Host.Has` — a handle is recorded.

## Main results

* `Host.Built.aligned` — every host that can be made is aligned.
* `Host.built_of_ofRecording` — the host of a recording can be made.
* `Host.describe_eq`, `Host.describe_eq_error` — in an aligned host exactly the recorded handles can
  be described.
-/

namespace Freestanding

namespace Handle

theorem position_lt (h : Handle) : h.position < UInt32.size :=
  h.id.toNat_lt

theorem position_ofPosition_eq_mod (n : Nat) : (ofPosition n).position = n % UInt32.size := by
  simp [ofPosition, position, UInt32.size]

@[simp] theorem position_ofPosition {n : Nat} (hn : n < UInt32.size) :
    (ofPosition n).position = n := by
  rw [position_ofPosition_eq_mod, Nat.mod_eq_of_lt hn]

@[simp] theorem ofPosition_position (h : Handle) : ofPosition h.position = h := by
  simp [ofPosition, position]

/-- Below the 32-bit limit a handle stands for one position only. -/
theorem ofPosition_eq_iff {n : Nat} (hn : n < UInt32.size) {h : Handle} :
    ofPosition n = h ↔ n = h.position := by
  constructor
  · intro he
    rw [← he, position_ofPosition hn]
  · intro he
    rw [he, ofPosition_position]

end Handle

namespace SignatureTable

@[simp] theorem size_enter (t : SignatureTable) (s : Signature) : (t.enter s).size = t.size + 1 := by
  simp [size, enter]

/-- A new signature is found in the index, and the others are found where they were. -/
theorem handle?_enter (t : SignatureTable) (s s' : Signature) :
    (t.enter s).handle? s' = if s' = s then some (.ofPosition t.size) else t.handle? s' := by
  unfold handle? enter
  rw [List.lookup_cons]
  by_cases h : s' = s
  · simp [h]
  · rw [beq_false_of_ne h, if_neg h]

/-- Interning finds the handle of a signature in the index, or enters the signature. -/
theorem intern_cases (t : SignatureTable) (s : Signature) :
    (∃ a, t.handle? s = some a ∧ t.intern s = (t, a)) ∨
      (t.handle? s = none ∧ t.intern s = (t.enter s, .ofPosition t.size)) := by
  unfold intern
  cases h : t.handle? s with
  | some a => exact Or.inl ⟨a, rfl, rfl⟩
  | none => exact Or.inr ⟨rfl, rfl⟩

end SignatureTable

namespace Host

/-! ### Hosts that can be made -/

/-- The hosts that one gets from an empty one by recording functions and calls and by having functions
compiled.  The list of functions compiled on demand is open to everyone. -/
inductive Built : Host → Prop
  /-- Nothing is recorded yet. -/
  | empty : Built {}
  /-- A function is recorded. -/
  | add {h : Host} (f : Recorded) : Built h → Built (h.add f).1
  /-- A call is recorded. -/
  | addCallee {h : Host} (caller callee : Handle) : Built h → Built (h.addCallee caller callee)
  /-- A function is compiled. -/
  | compile {h h' : Host} {f : Handle} : Built h → h.ensureCompiled f = .ok h' → Built h'
  /-- Someone changes the list of functions compiled on demand. -/
  | note {h : Host} (onDemand : List Handle) :
      Built h → Built { h with compiledOnDemand := onDemand }

theorem Built.addAll {h : Host} (hb : h.Built) (fs : List Recorded) : (h.addAll fs).1.Built := by
  induction fs generalizing h with
  | nil => exact hb
  | cons f fs ih => exact ih (hb.add { f with callees := [] })

theorem Built.addCallees {handles : List Handle} {caller : Handle} {h h' : Host} (hb : h.Built)
    {callees : List Nat} (he : h.addCallees handles caller callees = .ok h') : h'.Built := by
  induction callees generalizing h with
  | nil =>
    simp only [Host.addCallees, Except.ok.injEq] at he
    exact he ▸ hb
  | cons c callees ih =>
    rw [Host.addCallees] at he
    split at he
    · next target _ => exact ih (hb.addCallee caller target) he
    · cases he

/-- The host of a recording is one that can be made. -/
theorem built_of_ofRecording {functions : List Recorded} {h : Host}
    (he : ofRecording functions = .ok h) : h.Built := by
  -- The calls are recorded function by function; the host stays one that can be made.
  have key : ∀ (l : List (Recorded × Handle)) (handles : List Handle) (h₀ : Host), h₀.Built →
      l.foldlM (fun h p => h.addCallees handles p.2 p.1.callees) h₀ = .ok h → h.Built := by
    intro l handles
    induction l with
    | nil =>
      intro h₀ hb h₁
      simp only [List.foldlM_nil, pure, Except.pure, Except.ok.injEq] at h₁
      exact h₁ ▸ hb
    | cons p l ih =>
      intro h₀ hb h₁
      rw [List.foldlM_cons] at h₁
      cases hp : h₀.addCallees handles p.2 p.1.callees with
      | error e =>
        simp only [hp, bind, Except.bind] at h₁
        cases h₁
      | ok h₂ =>
        simp only [hp, bind, Except.bind] at h₁
        exact ih h₂ (hb.addCallees hp) h₁
  exact key _ _ _ (Built.empty.addAll functions) he

/-! ### Signatures and records -/

/-- Signatures and records belong to the same handles. -/
structure Aligned (h : Host) : Prop where
  /-- There are as many records as signatures, up to the number of handles. -/
  length_eq : h.functions.length = min h.table.size UInt32.size
  /-- The index leads to signatures that are there. -/
  handle_lt : ∀ s a, h.table.handle? s = some a → a.position < h.table.size

/-- A handle is recorded. -/
def Has (h : Host) (f : Handle) : Prop :=
  f.position < h.functions.length

instance (h : Host) (f : Handle) : Decidable (h.Has f) :=
  inferInstanceAs (Decidable (f.position < h.functions.length))

/-- A record is replaced at its handle, or appended if the handle is new.  Either way there are as many
records as before, or one more. -/
theorem Aligned.add {h : Host} (ha : h.Aligned) (f : Recorded) : (h.add f).1.Aligned := by
  have hlen := ha.length_eq
  rcases h.table.intern_cases f.signature with ⟨a, hfound, he⟩ | ⟨-, he⟩
  · -- A signature that has a handle: the record at the handle is replaced.
    have hlt := ha.handle_lt _ a hfound
    have hpos := a.position_lt
    refine ⟨?_, ?_⟩
    · simp only [Host.add, he]
      rw [if_pos (by omega), List.length_set]
      exact hlen
    · simp only [Host.add, he]
      exact ha.handle_lt
  · -- A new signature: its record is appended until the handles wrap around.
    have hmod := Nat.mod_lt h.table.size (show 0 < UInt32.size by decide)
    refine ⟨?_, ?_⟩
    · simp only [Host.add, he, Handle.position_ofPosition_eq_mod, SignatureTable.size_enter]
      rcases Nat.lt_or_ge h.table.size UInt32.size with hlt | hge
      · rw [Nat.mod_eq_of_lt hlt, if_neg (by omega), List.length_append, List.length_singleton]
        omega
      · rw [if_pos (by omega), List.length_set]
        omega
    · simp only [Host.add, he, SignatureTable.size_enter, SignatureTable.handle?_enter]
      intro s a ha'
      split at ha'
      · rw [← Option.some.inj ha', Handle.position_ofPosition_eq_mod]
        have := Nat.mod_le h.table.size UInt32.size
        omega
      · have := ha.handle_lt s a ha'
        omega

/-- Every host that can be made is aligned. -/
theorem Built.aligned {h : Host} (hb : h.Built) : h.Aligned := by
  induction hb with
  | empty => exact ⟨rfl, fun s a h => by cases h⟩
  | add f _ ih => exact ih.add f
  | addCallee caller callee _ ih =>
    exact ⟨(List.length_modify ..).trans ih.length_eq, ih.handle_lt⟩
  | @compile h h' f _ he ih =>
    simp only [Host.ensureCompiled, bind, Except.bind] at he
    split at he
    · cases he
    · split at he
      · cases he
        exact ih
      · cases he
        exact ⟨List.length_set.trans ih.length_eq, ih.handle_lt⟩
  | note onDemand _ ih => exact ⟨ih.length_eq, ih.handle_lt⟩

theorem Aligned.length_le {h : Host} (ha : h.Aligned) : h.functions.length ≤ UInt32.size := by
  have := ha.length_eq
  omega

/-- In an aligned host the recorded handles are those with a signature. -/
theorem Aligned.has_iff {h : Host} (ha : h.Aligned) (f : Handle) :
    h.Has f ↔ f.position < h.table.size := by
  have := ha.length_eq
  have := f.position_lt
  unfold Has
  omega

/-! ### Answers about recorded handles -/

theorem get_eq {h : Host} {f : Handle} (hf : h.Has f) :
    h.get f = .ok (h.functions.get ⟨f.position, hf⟩) := by
  unfold Host.get
  rw [List.getElem?_eq_getElem hf]
  rfl

theorem get_eq_error {h : Host} {f : Handle} (hf : ¬ h.Has f) :
    h.get f = .error (.unknownFunction f.id) := by
  unfold Host.get
  rw [List.getElem?_eq_none (by unfold Has at hf; omega)]

theorem has_of_get {h : Host} {f : Handle} {r : Recorded} (hr : h.get f = .ok r) : h.Has f := by
  by_cases hf : h.Has f
  · exact hf
  · rw [get_eq_error hf] at hr
    cases hr

/-- A recorded handle can be described. -/
theorem describe_eq {h : Host} (ha : h.Aligned) {f : Handle} (hf : h.Has f) :
    ∃ s, h.describe f = .ok s := by
  have hlt : f.position < h.table.signatures.length := (ha.has_iff f).mp hf
  refine ⟨h.table.signatures.get ⟨f.position, hlt⟩, ?_⟩
  unfold Host.describe SignatureTable.get?
  rw [List.getElem?_eq_getElem hlt]
  rfl

/-- A handle that is not recorded is unknown. -/
theorem describe_eq_error {h : Host} (ha : h.Aligned) {f : Handle} (hf : ¬ h.Has f) :
    h.describe f = .error (.unknownFunction f.id) := by
  have hge : h.table.signatures.length ≤ f.position := by
    have := mt (ha.has_iff f).mpr hf
    unfold SignatureTable.size at this
    omega
  unfold Host.describe SignatureTable.get?
  rw [List.getElem?_eq_none hge]

end Host

end Freestanding
