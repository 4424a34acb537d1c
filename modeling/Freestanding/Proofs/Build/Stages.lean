import Freestanding.Build
import Freestanding.Proofs.Attempt
import Freestanding.Proofs.Listing.Passes

/-!
# The stages of a run

A run that succeeds has gone through all of its stages.  This module takes it apart, once: which
variables are known, which functions there are, what became of each, and how they were linked.
Whatever is said about runs elsewhere is said about these stages.

## Main definitions

* `Build.Prepares` — how a function has been prepared.
* `Build.Stages` — how a program has been made.

## Main results

* `Build.outcome_prepare_eq_ok_iff` — preparing a function succeeds by going through its steps.
* `Build.program_eq_ok_iff` — a run up to the linked program succeeds by going through its stages.
-/

namespace Freestanding

theorem Collector.outcome_verdict (policy : Policy) (function : Text) (l : Listing) :
    (verdict policy function l).outcome =
      match l.residue? with
      | none => .ok none
      | some residue =>
        if policy = .strict then .error (.notSelfContained function residue.message)
        else .ok (some (.notSelfContained function residue.message)) := by
  rw [verdict]
  cases l.residue? with
  | none => rfl
  | some residue =>
    by_cases h : policy = .strict
    · simp only [h, if_true]
      rfl
    · simp only [h, if_false]
      rfl

namespace Build

variable {settings : Settings} {heap : HeapImage} {host host' : Host} {root : Scope} {entry : Handle}

/-! ### One function -/

/-- How a function has been prepared: its dump, the listing taken from it, and the listing after both
passes. -/
structure Prepares (policy : Policy) (heap : HeapImage) (host : Host) (r : Routine) (q : Prepared)
    (dump : Text) (l : Listing) : Prop where
  /-- The dump is that of the host. -/
  dump_eq : host.dump r.handle = .ok dump
  /-- The listing is taken from the dump. -/
  ofDump_eq : Listing.ofDump r.target dump = .ok l
  /-- Both passes have succeeded. -/
  freed : Listing.Freed policy heap r.name r.outputName l q.routine.listing q.collector q.containers
  /-- It is the same function. -/
  routine_eq : q.routine.toRoutine = r
  /-- The listing has been judged. -/
  verdict_eq : (Collector.verdict policy r.name q.routine.listing).outcome = .ok q.finding

theorem outcome_prepare (policy : Policy) (heap : HeapImage) (host : Host) (r : Routine) :
    (prepare policy heap host r).outcome = (do
      let dump ← host.dump r.handle
      let l ← Listing.ofDump r.target dump
      let lowered := (Container.lower heap r.name r.outputName (Collector.eliminate policy l).1).value
      let containers ← lowered.2
      let finding ← (Collector.verdict policy r.name lowered.1).outcome
      pure { routine := { toRoutine := r, listing := lowered.1 }
             collector := (Collector.eliminate policy l).2, containers, finding }) := by
  simp only [prepare, Attempt.outcome_bind, Attempt.outcome_ofExcept, Attempt.outcome_lift,
    Attempt.outcome_pure]
  rfl

/-- Preparing a function succeeds by going through its steps. -/
theorem outcome_prepare_eq_ok_iff {policy : Policy} {r : Routine} {q : Prepared} :
    (prepare policy heap host r).outcome = .ok q ↔
      ∃ dump l, Prepares policy heap host r q dump l := by
  simp only [outcome_prepare, Except.bind_eq_ok_iff]
  constructor
  · rintro ⟨dump, hdump, l, hl, containers, hlower, finding, hfinding, hq⟩
    obtain rfl := Except.ok.inj hq
    exact ⟨dump, l, hdump, hl, ⟨rfl, Prod.ext rfl hlower⟩, rfl, hfinding⟩
  · rintro ⟨dump, l, h⟩
    have hlower := h.freed.lower
    refine ⟨dump, h.dump_eq, l, h.ofDump_eq, q.containers, by rw [hlower], q.finding, ?_, ?_⟩
    · rw [hlower]
      exact h.verdict_eq
    · rw [hlower, h.freed.eliminate, ← h.routine_eq]
      rfl

/-! ### All functions -/

theorem outcome_linkGraph (settings : Settings) (heap : HeapImage) (known : Bindings) (host : Host)
    (entry : Handle) (graph : CallGraph) :
    (linkGraph settings heap known host entry graph).outcome = (do
      let prepared ← (graph.nodes.map (Routine.ofNode entry)).mapM
        fun r => (prepare settings.policy heap host r).outcome
      let p ← (Program.link heap ∅ known (prepared.map Prepared.routine)).value.2
      pure (p, report prepared p)) := by
  simp only [linkGraph, Attempt.outcome_bind, Attempt.outcome_mapM, Attempt.outcome_ofExcept,
    Attempt.outcome_lift, Attempt.outcome_pure]
  rfl

/-- The known variables are those of the scan, if they are accepted at all. -/
theorem known_eq_of_outcome {known : Bindings} (h : (knownBindings settings root).outcome = .ok known) :
    known = root.scan.value.bindings := by
  simp only [knownBindings, Attempt.outcome_bind, Attempt.outcome_lift, Except.bind_eq_ok_iff,
    Except.ok.injEq, exists_eq_left'] at h
  split at h
  · exact (Except.ok.inj h).symm
  · split at h
    · exact absurd h (by simp)
    · rw [Attempt.outcome_bind, Attempt.outcome_forM_warn] at h
      exact (Except.ok.inj h).symm

/-- The host after a run: functions are compiled on the way through the call graph only. -/
theorem program_fst (settings : Settings) (heap : HeapImage) (host : Host) (root : Scope)
    (entry : Handle) :
    (program settings heap host root entry).value.1 =
      match (knownBindings settings root).outcome with
      | .error _ => host
      | .ok _ => (CallGraph.collect host entry).1 := by
  rw [program, Logged.value_bind, ← Attempt.outcome]
  cases (knownBindings settings root).outcome with
  | error e => rfl
  | ok known =>
    dsimp only
    generalize CallGraph.collect host entry = r
    obtain ⟨host, result⟩ := r
    cases result <;> rfl

theorem program_snd (settings : Settings) (heap : HeapImage) (host : Host) (root : Scope)
    (entry : Handle) :
    (program settings heap host root entry).value.2 = (do
      let known ← (knownBindings settings root).outcome
      let graph ← (CallGraph.collect host entry).2
      (linkGraph settings heap known (CallGraph.collect host entry).1 entry graph).outcome) := by
  rw [program, Logged.value_bind, ← Attempt.outcome]
  cases (knownBindings settings root).outcome with
  | error e => rfl
  | ok known =>
    dsimp only
    generalize CallGraph.collect host entry = r
    obtain ⟨host, result⟩ := r
    cases result <;> rfl

/-- How a program has been made: the functions of the call graph, prepared and linked with the
variables of the scan. -/
structure Stages (settings : Settings) (heap : HeapImage) (host : Host) (root : Scope) (entry : Handle)
    (host' : Host) (p : Program) (r : Report) (graph : CallGraph) (prepared : List Prepared) : Prop where
  /-- The variables of the scan are accepted. -/
  known_eq : (knownBindings settings root).outcome = .ok root.scan.value.bindings
  /-- The call graph has been walked. -/
  collect_eq : CallGraph.collect host entry = (host', .ok graph)
  /-- Its functions have been prepared, one after the other. -/
  prepared_eq : (graph.nodes.map (Routine.ofNode entry)).mapM
    (fun r => (prepare settings.policy heap host' r).outcome) = .ok prepared
  /-- They have been linked. -/
  link_eq : (Program.link heap ∅ root.scan.value.bindings (prepared.map Prepared.routine)).value.2 =
    .ok p
  /-- The report tells about all of them. -/
  report_eq : r = report prepared p

/-- **A run up to the linked program succeeds by going through its stages.** -/
theorem program_eq_ok_iff {p : Program} {r : Report} :
    (program settings heap host root entry).value = (host', .ok (p, r)) ↔
      ∃ graph prepared, Stages settings heap host root entry host' p r graph prepared := by
  rw [Prod.ext_iff, program_fst, program_snd]
  simp only [Except.bind_eq_ok_iff, outcome_linkGraph]
  constructor
  · rintro ⟨hhost, known, hknown, graph, hgraph, prepared, hprepared, p', hp, hr⟩
    rw [hknown] at hhost
    obtain rfl := known_eq_of_outcome hknown
    obtain ⟨rfl, rfl⟩ := Prod.mk.inj (Except.ok.inj hr)
    have hcollect : CallGraph.collect host entry = (host', .ok graph) := Prod.ext hhost hgraph
    rw [hcollect] at hprepared
    exact ⟨graph, prepared, hknown, hcollect, hprepared, hp, rfl⟩
  · rintro ⟨graph, prepared, h⟩
    rw [h.known_eq, h.collect_eq]
    refine ⟨rfl, _, rfl, graph, rfl, prepared, h.prepared_eq, p, h.link_eq, ?_⟩
    rw [h.report_eq]
    rfl

/-- Every function of a program has been prepared from a node of the call graph. -/
theorem Stages.prepares {p : Program} {r : Report} {graph : CallGraph} {prepared : List Prepared}
    (h : Stages settings heap host root entry host' p r graph prepared) :
    List.Forall₂ (fun (n : CallGraph.Node) (q : Prepared) => ∃ dump l,
      Prepares settings.policy heap host' (Routine.ofNode entry n) q dump l) graph.nodes prepared := by
  have hall := Except.mapM_eq_ok_iff.mp h.prepared_eq
  rw [List.forall₂_map_left_iff] at hall
  exact hall.imp fun _ _ hq => outcome_prepare_eq_ok_iff.mp hq

end Build

end Freestanding
