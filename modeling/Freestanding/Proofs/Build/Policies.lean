import Freestanding.Proofs.Build.Stages
import Freestanding.Proofs.Program.Resolution

/-!
# Policies that do not change code

Two policies leave the code of a function alone: under one, code that still needs the host ends the
run, and under the other it is reported.  Nothing else sets the two apart.  A run under the strict
policy is a run under the lenient one whose first finding is fatal.

## Main definitions

* `Error.isResidue` — an error that says that code still needs the host.
* `Prepared.accept` — a finding made fatal.
* `Build.compile` — the code of a function after extraction and the container pass.
* `Build.LinksCompiled` — a program is linked from such code.

## Main results

* `Build.outcome_prepare_strict` — the two policies on one function.
* `Build.strict_eq_warn` — **the two policies on a whole run.**
-/

namespace Freestanding

/-- The error says that code still needs the host. -/
def Error.isResidue : Error → Bool
  | .notSelfContained .. => true
  | _ => false

/-- A function that is accepted only if nothing was found wrong with it. -/
def Prepared.accept (q : Prepared) : Except Error Prepared :=
  match q.finding with
  | none => .ok q
  | some e => .error e

theorem Prepared.accept_eq_ok_iff {q q' : Prepared} :
    q.accept = .ok q' ↔ q' = q ∧ q.finding = none := by
  rw [accept]
  cases q.finding with
  | none => simp [eq_comm]
  | some e => simp

/-- Functions are accepted up to the first one with a finding. -/
theorem Prepared.mapM_accept (qs : List Prepared) :
    qs.mapM accept =
      match (qs.filterMap Prepared.finding).head? with
      | none => .ok qs
      | some e => .error e := by
  induction qs with
  | nil => rfl
  | cons q qs ih =>
    rw [List.mapM_cons, ih, accept]
    cases hq : q.finding with
    | none =>
      rw [List.filterMap_cons_none hq]
      cases (qs.filterMap Prepared.finding).head? <;> rfl
    | some e =>
      rw [List.filterMap_cons_some hq]
      rfl

namespace Build

variable {settings : Settings} {heap : HeapImage} {host host' : Host} {root : Scope} {entry : Handle}
  {p : Program} {r : Report} {graph : CallGraph} {prepared : List Prepared}

/-! ### Findings -/

/-- A finding says that the code still needs the host. -/
theorem isResidue_of_finding {policy : Policy} {r : Routine} {q : Prepared}
    (h : (prepare policy heap host r).outcome = .ok q) {e : Error} (he : q.finding = some e) :
    e.isResidue := by
  obtain ⟨dump, l, hq⟩ := outcome_prepare_eq_ok_iff.mp h
  have hv := hq.verdict_eq
  rw [Collector.outcome_verdict, he] at hv
  split at hv
  · exact absurd hv (by simp)
  · split at hv
    · exact absurd hv (by simp)
    · rw [← Option.some.inj (Except.ok.inj hv)]
      rfl

/-- The reports of linking are about cells. -/
theorem isResidue_of_mem_diagnostics {known : Bindings} {fs : List CompiledRoutine}
    (h : (Program.link heap ∅ known fs).value.2 = .ok p) {e : Error} (he : e ∈ p.diagnostics) :
    e.isResidue = false := by
  obtain ⟨-, -, -, -, hd⟩ := Program.link_spec h
  rw [hd] at he
  obtain ⟨f, -, he⟩ := List.mem_flatMap.mp he
  obtain ⟨c, -, rfl⟩ := List.mem_map.mp he
  rfl

/-- The first finding of a run is the first diagnostic that says that code still needs the host. -/
theorem Stages.find?_isResidue (h : Stages settings heap host root entry host' p r graph prepared) :
    r.diagnostics.find? Error.isResidue = (prepared.filterMap Prepared.finding).head? := by
  have hfindings : ∀ e ∈ prepared.filterMap Prepared.finding, e.isResidue := by
    intro e he
    obtain ⟨q, hq, he⟩ := List.mem_filterMap.mp he
    obtain ⟨x, -, hx⟩ := (Except.mapM_eq_ok_iff.mp h.prepared_eq).exists_of_mem hq
    exact isResidue_of_finding hx he
  have hrest : p.diagnostics.find? Error.isResidue = none := by
    rw [List.find?_eq_none]
    intro e he
    rw [isResidue_of_mem_diagnostics h.link_eq he]
    exact Bool.false_ne_true
  rw [h.report_eq, report, List.find?_append, hrest, Option.or_none]
  cases hf : prepared.filterMap Prepared.finding with
  | nil => rfl
  | cons e es => rw [List.find?_cons_of_pos (hfindings e (by simp [hf]))]; rfl

/-! ### One function under both policies -/

/-- **The strict policy makes the findings of the other one fatal.** -/
theorem outcome_prepare_strict (heap : HeapImage) (host : Host) (r : Routine) :
    (prepare .strict heap host r).outcome =
      (prepare .warn heap host r).outcome >>= Prepared.accept := by
  have helim : ∀ l, Collector.eliminate .strict l = Collector.eliminate .warn l := fun _ => rfl
  simp only [outcome_prepare, helim]
  -- the steps up to the judgement are the same, and fail in the same way
  cases host.dump r.handle with
  | error e => rfl
  | ok dump =>
    simp only [bind, Except.bind]
    cases Listing.ofDump r.target dump with
    | error e => rfl
    | ok l =>
      dsimp only
      generalize (Container.lower heap r.name r.outputName (Collector.eliminate .warn l).1).value = lowered
      obtain ⟨l', result⟩ := lowered
      cases result with
      | error e => rfl
      | ok containers =>
        simp only [Collector.outcome_verdict]
        cases l'.residue? <;> rfl

/-! ### Code that only the container pass has touched -/

/-- The code of a function after extraction and the container pass. -/
def compile (heap : HeapImage) (host : Host) (r : Routine) : Except Error CompiledRoutine := do
  let dump ← host.dump r.handle
  let l ← Listing.ofDump r.target dump
  let lowered := (Container.lower heap r.name r.outputName l).value
  let _ ← lowered.2
  return { toRoutine := r, listing := lowered.1 }

/-- A program is linked from the functions of the call graph after extraction and the container pass:
linking renames symbols in their bodies, and nothing else is done to these. -/
def LinksCompiled (heap : HeapImage) (host : Host) (root : Scope) (entry : Handle) (p : Program) : Prop :=
  ∃ host' graph fs, CallGraph.collect host entry = (host', .ok graph) ∧
    (graph.nodes.map (Routine.ofNode entry)).mapM (compile heap host') = .ok fs ∧
    (Program.link heap ∅ root.scan.value.bindings fs).value.2 = .ok p ∧
    List.Forall₂ (fun f f' => f'.toRoutine = f.toRoutine ∧
      ∃ ρ, f'.listing.bodies = f.listing.bodies.map (Text.rename ρ)) fs p.functions

private theorem compile_of_prepare {policy : Policy} (hpolicy : ¬ policy.strips) {r : Routine} {q : Prepared}
    (h : (prepare policy heap host r).outcome = .ok q) : compile heap host r = .ok q.routine := by
  obtain ⟨dump, l, hq⟩ := outcome_prepare_eq_ok_iff.mp h
  have hlower := hq.freed.lower
  rw [Collector.eliminate, if_neg hpolicy] at hlower
  simp only [compile, hq.dump_eq, hq.ofDump_eq, hlower, bind, Except.bind, pure, Except.pure]
  rw [← hq.routine_eq]

private theorem Stages.linksCompiled (h : Stages settings heap host root entry host' p r graph prepared)
    (hpolicy : ¬ settings.policy.strips) :
    LinksCompiled heap host root entry p := by
  refine ⟨host', graph, prepared.map Prepared.routine, h.collect_eq, ?_, h.link_eq, ?_⟩
  · have hall := Except.mapM_eq_ok_iff.mp h.prepared_eq
    rw [Except.mapM_eq_ok_iff, List.forall₂_map_right_iff]
    exact hall.imp fun _ _ hq => compile_of_prepare hpolicy hq
  · obtain ⟨-, -, -, hfunctions, -⟩ := Program.link_spec h.link_eq
    rw [hfunctions, List.forall₂_map_right_iff]
    exact List.forall₂_same.mpr fun f _ => ⟨rfl, _, rfl⟩

/-! ### Whole runs -/

/-- The run so far depends on the policy only through the functions that are prepared. -/
theorem program_policy_fst (settings : Settings) (policy policy' : Policy) (heap : HeapImage)
    (host : Host) (root : Scope) (entry : Handle) :
    (program { settings with policy } heap host root entry).value.1 =
      (program { settings with policy := policy' } heap host root entry).value.1 := by
  rw [program_fst, program_fst]
  rfl

private theorem Stages.warn_of_strict
    (h : Stages { settings with policy := .strict } heap host root entry host' p r graph prepared) :
    Stages { settings with policy := .warn } heap host root entry host' p r graph prepared ∧
      prepared.filterMap Prepared.finding = [] := by
  have hall := Except.mapM_eq_ok_iff.mp h.prepared_eq
  have hboth := hall.imp fun x q (hq : (prepare .strict heap host' x).outcome = .ok q) =>
    show (prepare .warn heap host' x).outcome = .ok q ∧ q.finding = none by
      rw [outcome_prepare_strict, Except.bind_eq_ok_iff] at hq
      obtain ⟨q', hq', haccept⟩ := hq
      obtain ⟨rfl, hnone⟩ := Prepared.accept_eq_ok_iff.mp haccept
      exact ⟨hq', hnone⟩
  refine ⟨⟨h.known_eq, h.collect_eq, ?_, h.link_eq, h.report_eq⟩, ?_⟩
  · exact Except.mapM_eq_ok_iff.mpr (hboth.imp fun _ _ hq => hq.1)
  · rw [List.filterMap_eq_nil_iff]
    intro q hq
    obtain ⟨x, -, hx⟩ := hboth.exists_of_mem hq
    exact hx.2

/-- What the strict policy makes of a run that succeeds under the other one. -/
theorem Stages.program_strict
    (h : Stages { settings with policy := .warn } heap host root entry host' p r graph prepared) :
    (program { settings with policy := .strict } heap host root entry).value.2 =
      match r.diagnostics.find? Error.isResidue with
      | none => .ok (p, r)
      | some e => .error e := by
  have hknown : (knownBindings { settings with policy := .strict } root).outcome =
      .ok root.scan.value.bindings := h.known_eq
  have hprepared : (graph.nodes.map (Routine.ofNode entry)).mapM
      (fun r => (prepare .strict heap host' r).outcome) = prepared.mapM Prepared.accept := by
    simp only [outcome_prepare_strict]
    exact Except.mapM_bind_of_mapM_eq_ok h.prepared_eq
  rw [h.find?_isResidue, program_snd, hknown, h.collect_eq]
  simp only [bind, Except.bind, outcome_linkGraph, hprepared, Prepared.mapM_accept]
  cases (prepared.filterMap Prepared.finding).head? with
  | some e => rfl
  | none =>
    simp only [h.link_eq]
    rw [h.report_eq]
    rfl

/-- **Strict runs are lenient runs whose first finding is fatal.**  The two leave the same host behind.  A
strict run yields a program and a report just if the lenient run yields the same two and the report does
not say that code still needs the host; and if it does, the first such diagnostic is the error of the
strict run.  Under both policies the code is that of extraction and the container pass. -/
theorem strict_eq_warn (settings : Settings) (heap : HeapImage) (host : Host) (root : Scope)
    (entry : Handle) :
    let strict := (program { settings with policy := .strict } heap host root entry).value
    let warn := (program { settings with policy := .warn } heap host root entry).value
    strict.1 = warn.1 ∧
    (∀ p r, strict.2 = .ok (p, r) ↔
      warn.2 = .ok (p, r) ∧ ∀ e ∈ r.diagnostics, e.isResidue = false) ∧
    (∀ p r e, warn.2 = .ok (p, r) → r.diagnostics.find? Error.isResidue = some e →
      strict.2 = .error e) ∧
    (∀ p r, strict.2 = .ok (p, r) ∨ warn.2 = .ok (p, r) → LinksCompiled heap host root entry p) := by
  intro strict warn
  have hstages : ∀ {p r}, warn.2 = .ok (p, r) → ∃ graph prepared,
      Stages { settings with policy := .warn } heap host root entry warn.1 p r graph prepared :=
    fun h => program_eq_ok_iff.mp (Prod.ext rfl h)
  have hwarn : ∀ {p r}, strict.2 = .ok (p, r) →
      warn.2 = .ok (p, r) ∧ r.diagnostics.find? Error.isResidue = none := by
    intro p r h
    obtain ⟨graph, prepared, hs⟩ := program_eq_ok_iff.mp (Prod.ext rfl h)
    obtain ⟨hw, hnone⟩ := hs.warn_of_strict
    refine ⟨congrArg Prod.snd (program_eq_ok_iff.mpr ⟨graph, prepared, hw⟩), ?_⟩
    rw [hs.find?_isResidue, hnone]
    rfl
  refine ⟨program_policy_fst settings .strict .warn heap host root entry, ?_, ?_, ?_⟩
  · intro p r
    constructor
    · intro h
      obtain ⟨hw, hnone⟩ := hwarn h
      exact ⟨hw, fun e he => by simpa using List.find?_eq_none.mp hnone e he⟩
    · rintro ⟨hw, hnone⟩
      obtain ⟨graph, prepared, hs⟩ := hstages hw
      have hfind : r.diagnostics.find? Error.isResidue = none :=
        List.find?_eq_none.mpr fun e he => by simp [hnone e he]
      exact hs.program_strict.trans (by rw [hfind])
  · intro p r e hw hfind
    obtain ⟨graph, prepared, hs⟩ := hstages hw
    exact hs.program_strict.trans (by rw [hfind])
  · rintro p r (h | h)
    · obtain ⟨graph, prepared, hs⟩ := hstages (hwarn h).1
      exact hs.linksCompiled Bool.false_ne_true
    · obtain ⟨graph, prepared, hs⟩ := hstages h
      exact hs.linksCompiled Bool.false_ne_true

/-- A function that asks the collector to collect, alone in its program. -/
def collectingHost : Host :=
  (Host.add {} {
    name := "f", scope := "Main"
    ir := "define void @julia_f_1() \x7b\n  call void @jl_gc_collect()\n  ret void\n\x7d\n" }).1

/-- A finding of the lenient run that ends the strict one. -/
theorem strict_eq_warn_collectingHost :
    ∃ p r e, (program {} {} collectingHost (.mk "Main" [] []) ⟨0⟩).value.2 = .ok (p, r) ∧
      r.diagnostics = [e] ∧ e.isResidue ∧
      (program { policy := .strict } {} collectingHost (.mk "Main" [] []) ⟨0⟩).value.2 = .error e := by
  have hlenient : ((program {} {} collectingHost (.mk "Main" [] []) ⟨0⟩).value.2.toOption.map
      fun pr => pr.2.diagnostics) = some [.notSelfContained "f"
        "calls runtime allocator \x60@jl_gc_\x60: call void @jl_gc_collect()"] := by
    decide +kernel
  obtain ⟨⟨p, r⟩, hrun, hd⟩ := Except.exists_of_map_toOption hlenient
  refine ⟨p, r, _, hrun, hd, rfl, ?_⟩
  refine (strict_eq_warn {} {} collectingHost (.mk "Main" [] []) ⟨0⟩).2.2.1 p r _ hrun ?_
  exact congrArg (List.find? Error.isResidue) hd

end Build

end Freestanding
