import Freestanding.Proofs.Build.Rerun
import Freestanding.Proofs.Lists
import Freestanding.Proofs.Program.Grouping
import Mathlib.Data.List.Perm.Basic

/-!
# The files of a run

Names of the host come from anywhere: they may hold slashes, two dots, control characters, or nothing.
The files of a run lie in the output directory all the same, side by side and none below another, and
which ones there are can be told from the program: one for each function, a second one for each function
if dumps are kept, and one for each unit that owns variables.  Files are planned unit by unit; since each
function has its place in one unit, this is a matter of order only.

## Main definitions

* `Output.FileName` — a name that a file of the output may have.
* `Output.fileNames` — the names of the files of a program.
* `Output.LaidOut` — where planned files go, and which there are.

## Main results

* `Program.perm_functionsOf` — the functions of all units together are the functions of the program.
* `Output.perm_fileNames` — the names of the planned files.
* `Build.plan_laidOut` — **the files of a run.**
-/

namespace Freestanding

/-! ### Functions and units -/

namespace Program.Grouped

variable {known : Bindings} {functions : List CompiledRoutine} {p : Program}

theorem length_functions (hg : Grouped known functions p) : p.functions.length = functions.length := by
  have hlength := congrArg List.length hg.routines
  simpa using hlength

/-- The positions in all units together are the positions of all functions. -/
theorem perm_positions (hg : Grouped known functions p) :
    (p.units.values.flatMap ScopeUnit.functions).Perm (List.range p.functions.length) := by
  rw [Std.ExtTreeMap.values_eq_map_snd_toList, List.flatMap_map]
  have hentry : ∀ x ∈ p.units.toList, p.units[x.1]? = some x.2 := fun x hx =>
    Std.ExtTreeMap.mem_toList_iff_getElem?_eq_some.mp hx
  refine (List.perm_ext_iff_of_nodup ?_ List.nodup_range).mpr fun i => ?_
  · -- a position is in one unit only, since its function has one scope
    refine List.nodup_flatMap.mpr ⟨fun x hx => ?_, ?_⟩
    · exact (hg.increasing x.1 x.2 (hentry x hx)).imp fun hlt => Nat.ne_of_lt hlt
    · refine Std.ExtTreeMap.distinct_keys_toList.imp_of_mem fun {x y} hx hy hne i hi hi' => hne ?_
      obtain ⟨f, hf, hscope⟩ := (hg.mem_functions_iff x.1 x.2 i (hentry x hx)).mp hi
      obtain ⟨g, hg, hscope'⟩ := (hg.mem_functions_iff y.1 y.2 i (hentry y hy)).mp hi'
      obtain rfl : f = g := Option.some.inj (hf.symm.trans hg)
      exact Std.LawfulEqCmp.compare_eq_iff_eq.mpr (hscope.symm.trans hscope')
  · rw [List.mem_flatMap, List.mem_range, hg.length_functions]
    constructor
    · intro h
      obtain ⟨x, hx, hi⟩ := h
      obtain ⟨f, hf, -⟩ := (hg.mem_functions_iff x.1 x.2 i (hentry x hx)).mp hi
      exact (List.getElem?_eq_some_iff.mp hf).1
    · intro hlt
      have hf : functions[i]? = some (functions.get ⟨i, hlt⟩) := List.getElem?_eq_getElem hlt
      obtain ⟨u, hu⟩ := Std.ExtTreeMap.mem_iff_exists.mp
        ((hg.mem_units_iff _).mpr (.inl ⟨_, List.mem_of_getElem? hf, rfl⟩))
      exact ⟨(_, u), Std.ExtTreeMap.mem_toList_iff_getElem?_eq_some.mpr hu,
        (hg.mem_functions_iff _ u i hu).mpr ⟨_, hf, rfl⟩⟩

/-- **The functions of all units together are the functions of the program**, in another order. -/
theorem perm_functionsOf (hg : Grouped known functions p) :
    (p.units.values.flatMap p.functionsOf).Perm p.functions := by
  have hflat : p.units.values.flatMap p.functionsOf =
      (p.units.values.flatMap ScopeUnit.functions).filterMap (p.functions[·]?) := by
    rw [List.filterMap_flatMap]
    rfl
  rw [hflat]
  exact (hg.perm_positions.filterMap _).trans (.of_eq (List.filterMap_getElem?_range _))

end Program.Grouped

/-! ### The files of a program -/

theorem ScopeUnit.globals?_eq_none_iff (u : ScopeUnit) : u.globals? = none ↔ u.bindings.isEmpty := by
  rw [globals?]
  split
  · next h => exact iff_of_true rfl h
  · next h => exact iff_of_false (by simp) h

namespace Output

variable {settings : Settings} {p : Program} {planned : List PlannedFile}

/-- A name that a file of the output may have: letters, digits, underscores and dots, and at the end that
of all IR files. -/
def FileName (name : Text) : Prop :=
  (∀ c ∈ name, c.isAlphanum ∨ c = '_' ∨ c = '.') ∧ (".ir" : Text) <:+ name

/-- The names of the files of a program: one for each function, one more for each if dumps are kept, and
one for each unit that owns variables. -/
def fileNames (settings : Settings) (p : Program) : List Text :=
  let code : Text := ".ir"
  let dump : Text := ".raw.ir"
  (p.functions.map fun f => f.mangled ++ code) ++
    ((if settings.debug then p.functions.map fun f => f.mangled ++ dump else []) ++
      (p.units.values.filter fun u => !u.bindings.isEmpty).map fun u => u.scope.stem ++ code)

/-- Where planned files go, and which there are. -/
structure LaidOut (settings : Settings) (p : Program) (planned : List PlannedFile) : Prop where
  /-- Each file lies in the output directory, under one name. -/
  inside : ∀ f ∈ planned, ∃ name, FileName name ∧ f.path = Path.join settings.outputDir name ∧
    Path.place f.path = Path.place settings.outputDir ++ [name]
  /-- No two files have the same path. -/
  nodup : (planned.map PlannedFile.path).Nodup
  /-- There is one file for each of the names, and no other. -/
  perm : (planned.map PlannedFile.path).Perm
    ((fileNames settings p).map (Path.join settings.outputDir))
  /-- The number of files. -/
  length_eq : planned.length = p.functions.length + (if settings.debug then p.functions.length else 0) +
    p.units.values.countP fun u => !u.bindings.isEmpty

private theorem fileName_of_plain {stem suffix : Text} (hs : Name.Plain stem) (hsuffix : suffix ∈ suffixes) :
    FileName (stem ++ suffix) := by
  have hcases : suffix = ".ir" ∨ suffix = ".raw.ir" := by simpa [suffixes] using hsuffix
  have hplain : Name.Plain suffix := by
    rcases hcases with rfl | rfl <;> exact List.all_eq_true.mp (by decide)
  refine ⟨fun c hc => ?_, ?_⟩
  · have hc := hs.append hplain c hc
    simpa [Name.isPlain, or_assoc] using hc
  · have hend : (".ir" : Text) <:+ suffix := by rcases hcases with rfl | rfl <;> decide
    exact hend.trans (List.suffix_append stem suffix)

/-- The paths of the files of functions. -/
theorem perm_path_functionFiles (settings : Settings) (fs : List CompiledRoutine) :
    ((fs.flatMap (functionFiles settings)).map PlannedFile.path).Perm
      ((fs.map fun f => pathFor settings f.mangled ".ir") ++
        if settings.debug then fs.map fun f => pathFor settings f.mangled ".raw.ir" else []) := by
  rw [List.map_flatMap]
  by_cases hdebug : settings.debug
  · have hfiles : ∀ f, (functionFiles settings f).map PlannedFile.path =
        [pathFor settings f.mangled ".ir"] ++ [pathFor settings f.mangled ".raw.ir"] := by
      intro f
      rw [functionFiles, if_pos hdebug]
      rfl
    simp only [hfiles, if_pos hdebug, List.map_eq_flatMap]
    exact (List.flatMap_append_perm fs _ _).symm
  · have hfiles : ∀ f, (functionFiles settings f).map PlannedFile.path =
        [pathFor settings f.mangled ".ir"] := by
      intro f
      rw [functionFiles, if_neg hdebug]
      rfl
    simp only [hfiles, if_neg hdebug, List.map_eq_flatMap, List.append_nil]
    exact .refl _

/-- The paths of the files of variables. -/
theorem path_globalsFile? (settings : Settings) (us : List ScopeUnit) :
    (us.flatMap fun u => (globalsFile? settings u).toList).map PlannedFile.path =
      (us.filter fun u => !u.bindings.isEmpty).map fun u => pathFor settings u.scope.stem ".ir" := by
  rw [← List.filterMap_eq_flatMap_toList]
  induction us with
  | nil => rfl
  | cons u us ih =>
    cases hu : u.globals? with
    | none =>
      have hempty := u.globals?_eq_none_iff.mp hu
      rw [List.filterMap_cons_none (by rw [globalsFile?, hu]; rfl), ih]
      rw [List.filter_cons_of_neg (by simp [hempty])]
    | some text =>
      have hfull : ¬ u.bindings.isEmpty := fun h => by simp [u.globals?_eq_none_iff.mpr h] at hu
      rw [List.filterMap_cons_some (by rw [globalsFile?, hu]; rfl), List.map_cons, ih]
      rw [List.filter_cons_of_pos (by simpa using hfull)]
      rfl

/-- **The names of the planned files**, if the units hold all functions together. -/
theorem perm_fileNames (hperm : (p.units.values.flatMap p.functionsOf).Perm p.functions) :
    ((files settings p).map PlannedFile.path).Perm
      ((fileNames settings p).map (Path.join settings.outputDir)) := by
  have hsplit := List.flatMap_append_perm p.units.values
    (fun u => (globalsFile? settings u).toList) fun u => (p.functionsOf u).flatMap (functionFiles settings)
  rw [← List.flatMap_assoc] at hsplit
  have hfunctions := (hperm.flatMap_right (functionFiles settings)).map PlannedFile.path
  refine (hsplit.symm.map PlannedFile.path).trans ?_
  rw [List.map_append, path_globalsFile?]
  refine List.perm_append_comm.trans ?_
  refine ((hfunctions.trans (perm_path_functionFiles settings p.functions)).append_right _).trans ?_
  rw [fileNames, List.append_assoc]
  refine .of_eq ?_
  split <;> simp [pathFor, Function.comp_def]

private theorem laidOut_of_plan (hplain : ∀ f ∈ p.functions, Name.Plain f.mangled)
    (hperm : (p.units.values.flatMap p.functionsOf).Perm p.functions)
    (hplan : plan settings p = .ok planned) : LaidOut settings p planned := by
  have hnodup := nodup_path_of_plan hplain hplan
  obtain ⟨rfl, -⟩ := plan_eq_ok hplan
  have hnames : ((files settings p).map PlannedFile.path).Perm
      ((fileNames settings p).map (Path.join settings.outputDir)) := perm_fileNames hperm
  refine ⟨fun f hf => ?_, hnodup, hnames, ?_⟩
  · obtain ⟨stem, hstem, suffix, hsuffix, hpath⟩ := inDirectory_of_mem_files hplain hf
    refine ⟨stem ++ suffix, fileName_of_plain hstem hsuffix, hpath, ?_⟩
    rw [hpath, place_pathFor settings hstem hsuffix]
  · have hlength := hnames.length_eq
    simp only [fileNames, List.length_map, List.length_append, List.countP_eq_length_filter] at hlength ⊢
    rw [hlength]
    split <;> simp [Nat.add_assoc]

end Output

namespace Build

/-- **The files of a run.**  Whatever the names of functions, scopes and cells look like: if the program
can be linked and its files be planned, then each file goes to the output directory under one plain name;
no two go to the same path; and there is one for each function, one more for each if dumps are kept, and
one for each unit that owns variables. -/
theorem plan_laidOut {settings : Settings} {heap : HeapImage} {host : Host} {root : Scope} {entry : Handle}
    {p : Program} {r : Report} {planned : List PlannedFile}
    (hprogram : (program settings heap host root entry).value.2 = .ok (p, r))
    (hplan : Output.plan settings p = .ok planned) : Output.LaidOut settings p planned := by
  obtain ⟨graph, prepared, hs⟩ := program_eq_ok_iff.mp (Prod.ext rfl hprogram)
  have hgrouped := (Program.link_grouped heap ∅ root.scan.value.bindings
    (prepared.map Prepared.routine)).2.2 p hs.link_eq
  exact Output.laidOut_of_plan (fun f hf => hs.plain hf) hgrouped.perm_functionsOf hplan

/-- A function whose name leads out of a directory.  It refers to a cell. -/
def strayHost : Host :=
  (Host.add {} {
    name := "../f", scope := "a/b"
    ir := "@jl_global_1 = constant ptr inttoptr (i64 256 to ptr)\n" ++
      "define ptr @\"julia_../f_1\"() \x7b\n  ret ptr @jl_global_1\n\x7d\n" }).1

/-- The cell, in a scope without a name. -/
def strayRoot : Scope :=
  .mk "" [⟨"x", 256, ⟨.ref, .int64 7⟩, false⟩] []

/-- All three files stay in the directory, also that of the nameless scope. -/
theorem plan_laidOut_strayHost :
    let settings : Settings := { debug := true }
    ∃ p r planned, (program settings {} strayHost strayRoot ⟨0⟩).value.2 = .ok (p, r) ∧
      Output.plan settings p = .ok planned ∧
      planned.map PlannedFile.path =
        ["build/.ir", "build/a_b_.._f.ir", "build/a_b_.._f.raw.ir"].map String.toList ∧
      Output.LaidOut settings p planned := by
  intro settings
  have hrun : (((program settings {} strayHost strayRoot ⟨0⟩).value.2 >>= fun x =>
      Output.plan settings x.1).toOption.map fun planned => planned.map PlannedFile.path) =
      some (["build/.ir", "build/a_b_.._f.ir", "build/a_b_.._f.raw.ir"].map String.toList) := by
    decide +kernel
  obtain ⟨planned, hbind, hpaths⟩ := Except.exists_of_map_toOption hrun
  obtain ⟨⟨p, r⟩, hprogram, hplan⟩ := Except.bind_eq_ok_iff.mp hbind
  exact ⟨p, r, planned, hprogram, hplan, hpaths, plan_laidOut hprogram hplan⟩

end Build

end Freestanding
