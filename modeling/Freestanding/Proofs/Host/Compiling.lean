import Freestanding.Proofs.Host.Shape

/-!
# Having functions compiled

What a host becomes when a list of its functions is compiled, one after the other: the records of these
functions say so, and those that were not compiled before are noted in that order.  Nothing else
changes, in particular not who calls whom.

## Main definitions

* `Host.called` — the recorded functions that a function calls.
* `Host.Dangling` — a function calls something that is not recorded.
* `Host.isCompiled` — a function is compiled.
* `Host.compiling` — the host after some functions have been compiled.

## Main results

* `Host.callees_eq`, `Host.callees_eq_error` — asking for the callees of a function fails exactly if it
  is dangling.
* `Host.ensureCompiled_compiling` — compiling one function more.
* `Host.dump_compiling` — a function that has been compiled can be dumped.
-/

namespace Freestanding.Host

/-! ### Calls -/

/-- The functions that a function calls, in order, as far as they are recorded. -/
def called (h : Host) (f : Handle) : List Handle :=
  match h.get f with
  | .ok r => (r.callees.filter (· < h.functions.length)).map Handle.ofPosition
  | .error _ => []

/-- A function calls a position at which nothing is recorded. -/
def Dangling (h : Host) (f : Handle) : Prop :=
  ∃ r, h.get f = .ok r ∧ ∃ n ∈ r.callees, h.functions.length ≤ n

/-- The positions of a list as handles, if all of them are below the limit. -/
theorem mapM_position_eq {limit : Nat} {ns : List Nat} (hns : ∀ n ∈ ns, n < limit) :
    ns.mapM (fun n => if n < limit then Except.ok (Handle.ofPosition n)
      else .error (Error.unknownFunction (Handle.ofPosition n).id))
      = .ok ((ns.filter (· < limit)).map Handle.ofPosition) := by
  induction ns with
  | nil => rfl
  | cons n ns ih =>
    have hn : n < limit := hns n (by simp)
    have ih := ih fun m hm => hns m (by simp [hm])
    rw [List.mapM_cons, if_pos hn, ih, List.filter_cons_of_pos (by simpa using hn)]
    rfl

/-- A position at or above the limit is reported as an unknown function. -/
theorem mapM_position_eq_error {limit : Nat} {ns : List Nat} (hns : ∃ n ∈ ns, limit ≤ n) :
    ∃ id, ns.mapM (fun n => if n < limit then Except.ok (Handle.ofPosition n)
      else .error (Error.unknownFunction (Handle.ofPosition n).id))
      = .error (.unknownFunction id) := by
  induction ns with
  | nil => simp at hns
  | cons n ns ih =>
    by_cases hn : n < limit
    · obtain ⟨m, hm, hle⟩ := hns
      have hm : m ∈ ns := by
        rcases List.mem_cons.mp hm with rfl | hm
        · omega
        · exact hm
      obtain ⟨id, hid⟩ := ih ⟨m, hm, hle⟩
      refine ⟨id, ?_⟩
      rw [List.mapM_cons, if_pos hn, hid]
      rfl
    · refine ⟨(Handle.ofPosition n).id, ?_⟩
      rw [List.mapM_cons, if_neg hn]
      rfl

theorem callees_eq {h : Host} {f : Handle} (hf : h.Has f) (hd : ¬ h.Dangling f) :
    h.callees f = .ok (h.called f) := by
  have hr := get_eq hf
  have hns : ∀ n ∈ (h.functions.get ⟨f.position, hf⟩).callees, n < h.functions.length := by
    intro n hn
    exact Nat.lt_of_not_le fun hge => hd ⟨_, hr, n, hn, hge⟩
  unfold Host.callees Host.called
  rw [hr]
  exact mapM_position_eq hns

theorem callees_eq_error {h : Host} {f : Handle} (hd : h.Dangling f) :
    ∃ id, h.callees f = .error (.unknownFunction id) := by
  obtain ⟨r, hr, hns⟩ := hd
  unfold Host.callees
  rw [hr]
  exact mapM_position_eq_error hns

/-- Asking for callees succeeds only where none is missing. -/
theorem called_of_callees {h : Host} {f : Handle} {cs : List Handle} (hc : h.callees f = .ok cs) :
    ¬ h.Dangling f ∧ cs = h.called f := by
  have hd : ¬ h.Dangling f := by
    intro hd
    obtain ⟨id, hid⟩ := callees_eq_error hd
    rw [hid] at hc
    cases hc
  have hf : h.Has f := by
    unfold Host.callees at hc
    cases hr : h.get f with
    | ok r => exact has_of_get hr
    | error e =>
      rw [hr] at hc
      cases hc
  rw [callees_eq hf hd] at hc
  exact ⟨hd, (Except.ok.inj hc).symm⟩

/-- Whatever a function calls is recorded, if it is called by a handle at all. -/
theorem has_of_mem_called {h : Host} (hle : h.functions.length ≤ UInt32.size) {f g : Handle}
    (hg : g ∈ h.called f) : h.Has g := by
  unfold called at hg
  split at hg
  · rw [List.mem_map] at hg
    obtain ⟨n, hn, rfl⟩ := hg
    rw [List.mem_filter, decide_eq_true_eq] at hn
    unfold Has
    rw [Handle.position_ofPosition (by omega)]
    exact hn.2
  · simp at hg

/-! ### Compiling -/

/-- A function is recorded as compiled. -/
def isCompiled (h : Host) (f : Handle) : Bool :=
  match h.get f with
  | .ok r => r.compiled
  | .error _ => false

/-- The host after the given functions have been compiled, one after the other. -/
def compiling (h : Host) (done : List Handle) : Host :=
  { h with
    functions := h.functions.mapIdx fun i r =>
      if Handle.ofPosition i ∈ done then { r with compiled := true } else r
    compiledOnDemand := h.compiledOnDemand ++ done.filter (!h.isCompiled ·) }

@[simp] theorem compiling_table (h : Host) (done : List Handle) :
    (h.compiling done).table = h.table := rfl

@[simp] theorem describe_compiling (h : Host) (done : List Handle) (f : Handle) :
    (h.compiling done).describe f = h.describe f := rfl

@[simp] theorem length_functions_compiling (h : Host) (done : List Handle) :
    (h.compiling done).functions.length = h.functions.length := by
  simp [compiling]

@[simp] theorem compiling_nil (h : Host) : h.compiling [] = h := by
  have hid : (h.functions.mapIdx fun _ r => r) = h.functions := by
    apply List.ext_getElem <;> simp
  simp [compiling, hid]

@[simp] theorem has_compiling (h : Host) (done : List Handle) (f : Handle) :
    (h.compiling done).Has f ↔ h.Has f := by
  simp [Has]

/-- The record of a function after others have been compiled: only the mark can have changed. -/
theorem get_compiling {h : Host} {f : Handle} {r : Recorded} (hr : h.get f = .ok r)
    (done : List Handle) :
    (h.compiling done).get f = .ok (if f ∈ done then { r with compiled := true } else r) := by
  have hf := has_of_get hr
  rw [get_eq hf] at hr
  cases hr
  rw [get_eq ((has_compiling h done f).mpr hf)]
  simp [compiling]

@[simp] theorem callees_compiling (h : Host) (done : List Handle) (f : Handle) :
    (h.compiling done).callees f = h.callees f := by
  by_cases hf : h.Has f
  · have hr := get_eq hf
    have hr' := get_compiling hr done
    unfold Host.callees
    rw [hr, hr']
    simp only [bind, Except.bind, length_functions_compiling]
    split <;> rfl
  · have hf' : ¬ (h.compiling done).Has f := by simpa using hf
    unfold Host.callees
    rw [get_eq_error hf, get_eq_error hf']
    rfl

/-- The records after one function more has been compiled. -/
theorem functions_compiling_append {h : Host} (hle : h.functions.length ≤ UInt32.size) {f : Handle}
    (hf : h.Has f) (done : List Handle) :
    (h.compiling (done ++ [f])).functions = (h.compiling done).functions.set f.position
      { h.functions.get ⟨f.position, hf⟩ with compiled := true } := by
  apply List.ext_getElem
  · simp
  · intro i hi _
    have hlt : i < h.functions.length := by simpa using hi
    rw [List.getElem_set]
    by_cases hif : f.position = i
    · subst hif
      simp [compiling]
    · have hne : ¬ Handle.ofPosition i = f := by
        rw [Handle.ofPosition_eq_iff (by omega)]
        exact fun h => hif h.symm
      simp [compiling, hif, hne]

/-- Compiling a function that was compiled from the start changes nothing. -/
theorem compiling_append_of_isCompiled {h : Host} (hle : h.functions.length ≤ UInt32.size)
    {f : Handle} (hf : h.Has f) {done : List Handle} (hd : f ∉ done) (hc : h.isCompiled f = true) :
    h.compiling (done ++ [f]) = h.compiling done := by
  have hself : { h.functions.get ⟨f.position, hf⟩ with compiled := true }
      = h.functions.get ⟨f.position, hf⟩ := by
    unfold isCompiled at hc
    rw [get_eq hf] at hc
    rw [← hc]
  have hfunctions : (h.compiling (done ++ [f])).functions = (h.compiling done).functions := by
    rw [functions_compiling_append hle hf, hself]
    apply List.ext_getElem
    · simp
    · intro i hi _
      rw [List.getElem_set]
      split
      · next hif => subst hif; simp [compiling, hd]
      · rfl
  have hnotes : (h.compiling (done ++ [f])).compiledOnDemand = (h.compiling done).compiledOnDemand := by
    simp [compiling, hc]
  calc h.compiling (done ++ [f])
      = ⟨(h.compiling (done ++ [f])).functions, h.table,
          (h.compiling (done ++ [f])).compiledOnDemand⟩ := rfl
    _ = ⟨(h.compiling done).functions, h.table, (h.compiling done).compiledOnDemand⟩ := by
        rw [hfunctions, hnotes]
    _ = h.compiling done := rfl

/-- One function more is compiled. -/
theorem ensureCompiled_compiling {h : Host} (hle : h.functions.length ≤ UInt32.size) {f : Handle}
    (hf : h.Has f) {done : List Handle} (hd : f ∉ done) :
    (h.compiling done).ensureCompiled f = .ok (h.compiling (done ++ [f])) := by
  have hr := get_eq hf
  have hr' := get_compiling hr done
  rw [if_neg hd] at hr'
  have hc : h.isCompiled f = (h.functions.get ⟨f.position, hf⟩).compiled := by
    unfold isCompiled
    rw [hr]
  unfold Host.ensureCompiled
  rw [hr']
  simp only [bind, Except.bind, pure, Except.pure]
  split
  · -- The function is compiled already, so neither its record nor the notes change.
    next hcomp => rw [compiling_append_of_isCompiled hle hf hd (hc.trans hcomp)]
  · next hcomp =>
    have hnotes : (h.compiling (done ++ [f])).compiledOnDemand
        = (h.compiling done).compiledOnDemand ++ [f] := by
      have hfalse : h.isCompiled f = false := by simpa [hc] using hcomp
      simp [compiling, hfalse]
    rw [← functions_compiling_append hle hf, ← hnotes]
    rfl

/-- A function that has been compiled can be dumped, and its dump is the recorded one. -/
theorem dump_compiling {h : Host} {f : Handle} {done : List Handle} (hd : f ∈ done) {r : Recorded}
    (hr : h.get f = .ok r) : (h.compiling done).dump f = .ok r.ir := by
  unfold Host.dump
  rw [get_compiling hr, if_pos hd]
  rfl

end Freestanding.Host
