import Freestanding.Proofs.Build.Stages
import Freestanding.Proofs.CallGraph.Rerun
import Freestanding.Proofs.Output.Emission
import Freestanding.Proofs.Program.Resolution
import Freestanding.Proofs.Text.Lines

/-!
# Runs and their files

A run writes nothing before its program is linked and its files are planned, and from then on only
writing itself can fail.  If it succeeds, the files hold what was planned, and a second run finds
nothing to do: the call graph can be walked again with the same result, so the same files are planned,
and each holds its text already.

## Main results

* `Build.program_again` — the same program comes out of the host that a run has left behind.
* `Build.Stages.text_ne_nil` — no planned file is empty.
* `Build.run_emits` — **what a run does to the files, and what a second run does.**
-/

namespace Freestanding

/-! ### Texts of files -/

theorem Listing.render_ne_nil (l : Listing) (r : Routine) : l.render r.description ≠ [] := by
  have hdescription : r.description ≠ [] := by simp [Routine.description]
  obtain ⟨line, lines, hlines⟩ := List.exists_cons_of_ne_nil (Text.printedLines_ne_nil hdescription)
  simp [render, renderComment, hlines]

private theorem Listing.dump_ofDump {target : Target} {dump : Text} {l : Listing}
    (h : ofDump target dump = .ok l) : l.dump = dump ∧ dump ≠ [] := by
  refine ⟨?_, ?_⟩
  · rw [ofDump] at h
    obtain ⟨definitions, -, h⟩ := Except.bind_eq_ok_iff.mp h
    split at h
    · cases h
    · rw [← Except.ok.inj h]
      rfl
  · rintro rfl
    cases h

theorem Listing.Freed.dump_eq {policy : Policy} {heap : HeapImage} {function stem : Text}
    {l l' : Listing} {collector : Collector.Tally} {containers : Container.Tally}
    (h : Freed policy heap function stem l l' collector containers) : l'.dump = l.dump := by
  obtain ⟨layouts, bodies, rfl⟩ := h.exists_eq
  rw [Container.provide]
  split <;> split <;> split <;> split <;> rfl

namespace Build

variable {settings : Settings} {heap : HeapImage} {host host' : Host} {root : Scope} {entry : Handle}
  {p : Program} {r : Report} {graph : CallGraph} {prepared : List Prepared}
  {planned : List PlannedFile}

/-- Every function of a program comes from a node of the call graph and keeps its dump. -/
theorem Stages.exists_node (h : Stages settings heap host root entry host' p r graph prepared)
    {f : CompiledRoutine} (hf : f ∈ p.functions) :
    ∃ n ∈ graph.nodes, f.mangled = n.mangled ∧ f.listing.dump ≠ [] := by
  obtain ⟨-, -, -, hfunctions, -⟩ := Program.link_spec h.link_eq
  rw [hfunctions] at hf
  obtain ⟨g, hg, rfl⟩ := List.mem_map.mp hf
  obtain ⟨q, hq, rfl⟩ := List.mem_map.mp hg
  obtain ⟨n, hn, dump, l, hprep⟩ := h.prepares.exists_of_mem hq
  obtain ⟨hdump, hne⟩ := Listing.dump_ofDump hprep.ofDump_eq
  refine ⟨n, hn, congrArg Routine.mangled hprep.routine_eq, ?_⟩
  have hkept : q.routine.listing.dump = dump := hprep.freed.dump_eq.trans hdump
  exact fun hnil => hne (hkept.symm.trans hnil)

theorem Stages.plain (h : Stages settings heap host root entry host' p r graph prepared)
    {f : CompiledRoutine} (hf : f ∈ p.functions) : Name.Plain f.mangled := by
  obtain ⟨n, hn, hname, -⟩ := h.exists_node hf
  rw [hname]
  exact CallGraph.plain_of_collect (congrArg Prod.snd h.collect_eq) hn

/-- **No planned file is empty.** -/
theorem Stages.text_ne_nil (h : Stages settings heap host root entry host' p r graph prepared)
    (hplan : Output.plan settings p = .ok planned) {f : PlannedFile} (hf : f ∈ planned) :
    f.text ≠ [] := by
  rw [(Output.plan_eq_ok hplan).1] at hf
  rcases Output.mem_files hf with ⟨u, -, hu⟩ | ⟨g, hg, hfile⟩
  · obtain ⟨text, htext, rfl⟩ := Option.map_eq_some_iff.mp hu
    rw [ScopeUnit.globals?] at htext
    split at htext
    · cases htext
    · rw [← Option.some.inj htext]
      simp
  · rcases Output.mem_functionFiles hfile with ⟨-, htext⟩ | ⟨-, -, htext⟩
    · rw [htext]
      exact Listing.render_ne_nil _ _
    · rw [htext]
      obtain ⟨n, -, -, hdump⟩ := h.exists_node hg
      exact hdump

/-- Writing the planned files of a program, and writing them again. -/
theorem Stages.emits (h : Stages settings heap host root entry host' p r graph prepared)
    (hplan : Output.plan settings p = .ok planned) {files files' : FileTree} {s : Output.Summary}
    (hw : Output.writeAll planned files = (files', .ok s)) :
    (planned.map PlannedFile.path).Nodup ∧ (∀ f ∈ planned, f.text ≠ []) ∧
      Output.Emits planned files files' s ∧
      Output.writeAll planned files' = (files', .ok { unchanged := planned.map PlannedFile.path }) := by
  have hplaces := Output.nodup_place_of_plan (fun g hg => h.plain hg) hplan
  have hpaths := Output.nodup_path_of_plan (fun g hg => h.plain hg) hplan
  have htexts : ∀ f ∈ planned, f.text ≠ [] := fun f hf => h.text_ne_nil hplan hf
  obtain ⟨-, hemits⟩ := Output.emits_of_writeAll hplaces hw
  exact ⟨hpaths, htexts, hemits, Output.writeAll_again fun f hf => hemits.holds f hf (htexts f hf)⟩

/-! ### The second run -/

/-- **The same program comes out of the host that a run has left behind.** -/
theorem program_again (h : (program settings heap host root entry).value = (host', .ok (p, r))) :
    (program settings heap host' root entry).value = (host', .ok (p, r)) := by
  obtain ⟨graph, prepared, hs⟩ := program_eq_ok_iff.mp h
  exact program_eq_ok_iff.mpr ⟨graph, prepared, hs.known_eq, CallGraph.collect_again hs.collect_eq,
    hs.prepared_eq, hs.link_eq, hs.report_eq⟩

/-- The tree and the result of a run, given what comes before the files. -/
theorem run_value (settings : Settings) (heap : HeapImage) (host : Host) (root : Scope) (entry : Handle)
    (files : FileTree) :
    (run settings heap host root entry files).value =
      match (program settings heap host root entry).value with
      | (host', .error e) => (host', files, .error e)
      | (host', .ok (p, r)) =>
        (host', (Output.write settings p files).1,
          (Output.write settings p files).2.map fun output => { r with output }) := by
  rw [run, Logged.value_bind]
  generalize (program settings heap host root entry).value = result
  obtain ⟨host', e | ⟨p, r⟩⟩ := result <;> rfl

/-- **Runs and files.**  A run that fails for another reason than a file leaves all files alone.  A run
that succeeds has planned files with different paths, none of them empty; it has written those that had
to be, and touched nothing else.  A second run, from the host and the files that the first one left
behind, leaves both alone and reports the same. -/
theorem run_emits (settings : Settings) (heap : HeapImage) (host : Host) (root : Scope) (entry : Handle)
    (files : FileTree) :
    let (host', files', result) := (run settings heap host root entry files).value
    (∀ e, result = .error e → (∀ path detail, e ≠ .file path detail) → files' = files) ∧
    ∀ report, result = .ok report → ∃ p r planned,
      (program settings heap host root entry).value = (host', .ok (p, r)) ∧
      Output.plan settings p = .ok planned ∧
      report = { r with output := report.output } ∧
      (planned.map PlannedFile.path).Nodup ∧ (∀ f ∈ planned, f.text ≠ []) ∧
      Output.Emits planned files files' report.output ∧
      (run settings heap host' root entry files').value =
        (host', files',
          .ok { report with output := { unchanged := planned.map PlannedFile.path } }) := by
  rw [run_value]
  cases hprogram : (program settings heap host root entry).value with
  | mk host' result =>
    cases result with
    | error e => exact ⟨fun _ _ _ => rfl, fun report h => by cases h⟩
    | ok pr =>
      obtain ⟨p, r⟩ := pr
      obtain ⟨graph, prepared, hs⟩ := program_eq_ok_iff.mp hprogram
      cases hplan : Output.plan settings p with
      | error e =>
        have hwrite : Output.write settings p files = (files, .error e) := by rw [Output.write, hplan]
        dsimp only
        rw [hwrite]
        exact ⟨fun _ _ _ => rfl, fun report h => by cases h⟩
      | ok planned =>
        simp only [Output.write, hplan]
        refine ⟨fun e he hfile => ?_, fun report hreport => ?_⟩
        · -- once the files are planned, only a file can be the reason
          cases hw : (Output.writeAll planned files).2 with
          | error e' =>
            rw [hw] at he
            cases he
            obtain ⟨path, detail, rfl⟩ := Output.writeAll_error hw
            exact absurd rfl (hfile path detail)
          | ok s =>
            rw [hw] at he
            cases he
        · generalize hw : Output.writeAll planned files = written at hreport ⊢
          obtain ⟨files', result⟩ := written
          cases result with
          | error e => cases hreport
          | ok s =>
            obtain rfl : { r with output := s } = report := Except.ok.inj hreport
            obtain ⟨hpaths, htexts, hemits, hagain⟩ := hs.emits hplan hw
            refine ⟨p, r, planned, rfl, hplan, rfl, hpaths, htexts, hemits, ?_⟩
            rw [run_value, program_again hprogram]
            simp only [Output.write, hplan, hagain]
            rfl

/-- A function that reads a cell of the host. -/
def readingHost : Host :=
  (Host.add {} {
    name := "f", scope := "Main"
    ir := "@jl_global_1 = constant ptr inttoptr (i64 256 to ptr)\n" ++
      "define ptr @julia_f_1() \x7b\n  ret ptr @jl_global_1\n\x7d\n" }).1

/-- The cell. -/
def readingRoot : Scope :=
  .mk "Main" [⟨"x", 256, ⟨.ref, .int64 7⟩, false⟩] []

/-- The files of an earlier run: that of the cell is up to date, and that of the function is empty. -/
def staleFiles : FileTree where
  entries := [(["build"], FileTree.Entry.directory),
    (["build", "Main.ir"],
      .file (Text.encode "; globals of Main\n\n@Main_x = global i64 7, align 8\n")),
    (["build", "Main_f.ir"], .file [])].foldl
      (fun (m : Std.ExtTreeMap (List Text) _) e => m.insert e.1 e.2) ∅

/-- The first run writes one of two files, and the second run none. -/
theorem run_emits_staleFiles :
    ∃ host' files' report,
      (run {} {} readingHost readingRoot ⟨0⟩ staleFiles).value = (host', files', .ok report) ∧
      report.output = { written := ["build/Main_f.ir"], unchanged := ["build/Main.ir"] } ∧
      (∀ path ∈ (["build/Main_f.ir", "build/Main.ir"] : List Text),
        (staleFiles.read path).toOption = staleFiles.file? (Path.place path)) ∧
      ∃ planned, Output.Emits planned staleFiles files' report.output ∧
        (run {} {} host' readingRoot ⟨0⟩ files').value = (host', files',
          .ok { report with output := { unchanged := planned.map PlannedFile.path } }) := by
  have hfirst : (run {} {} readingHost readingRoot ⟨0⟩ staleFiles).value.2.2.toOption.map Report.output =
      some { written := ["build/Main_f.ir"], unchanged := ["build/Main.ir"] } := by decide +kernel
  obtain ⟨report, hreport, houtput⟩ := Except.exists_of_map_toOption hfirst
  obtain ⟨-, hok⟩ := run_emits {} {} readingHost readingRoot ⟨0⟩ staleFiles
  obtain ⟨-, -, planned, -, -, -, -, -, hemits, hagain⟩ := hok report hreport
  exact ⟨_, _, report, Prod.ext rfl (Prod.ext rfl hreport), houtput, by decide +kernel, planned, hemits,
    hagain⟩

end Build

end Freestanding
