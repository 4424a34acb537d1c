import Freestanding.Output
import Freestanding.Proofs.FileTree.Writing
import Freestanding.Proofs.Name.Plain
import Freestanding.Proofs.OrderedMap

/-!
# Emitting files

The files of a program lie side by side in the output directory, each under a plain name.  Planned paths
that are told apart therefore lead to different places, and writing one file leaves the others as they
are.  From what writing one file does follows, by induction over the plan, what writing all of them does.

## Main definitions

* `Output.Emits` — what writing files has done to a tree, and what is said about it.

## Main results

* `Output.place_pathFor` — the place of a planned file.
* `Output.nodup_place_of_plan` — planned files have different places.
* `Output.emits_of_writeAll` — **what writing files does.**
* `Output.writeAll_again` — writing them again does nothing.
-/

namespace Freestanding

namespace Path

/-- The place of a name below a directory. -/
theorem place_join {dir name : Text} (hslash : '/' ∉ name) (hstep : isStep name)
    (hup : name ≠ ['.', '.']) : place (join dir name) = place dir ++ [name] := by
  have hpieces : pieces name = [name] := List.splitOn_eq_singleton hslash
  have hfollow : ∀ q : List Text, follow q name = q ++ [name] := by
    intro q
    rw [follow, if_neg (by simpa using hstep), if_neg hup]
  have habs : ¬ isAbsolute name := by
    intro h
    have hhead : name.head? = some '/' := by simpa [isAbsolute] using h
    exact hslash (List.mem_of_head? hhead)
  rw [join, if_neg habs]
  split
  · next hdir =>
    rcases (Bool.or_eq_true _ _).mp hdir with hempty | hlast
    · rw [List.isEmpty_iff.mp hempty, List.nil_append, place, hpieces]
      exact hfollow []
    · -- the slash is there already, and the empty piece after it is no step
      obtain ⟨d, rfl⟩ : ∃ d, dir = d ++ ['/'] :=
        List.getLast?_eq_some_iff.mp (by simpa using hlast)
      have hdir : place (d ++ ['/']) = place d := by
        rw [place, pieces, List.splitOn_append_cons_self, List.splitOn_nil, List.foldl_append]
        rfl
      rw [hdir, List.append_assoc, List.singleton_append, place, pieces,
        List.splitOn_append_cons_self, ← pieces, ← pieces, hpieces, List.foldl_append]
      exact hfollow _
  · rw [place, pieces, List.splitOn_append_cons_self, ← pieces, ← pieces, hpieces, List.foldl_append]
    exact hfollow _

end Path

namespace Output

open FileTree

variable {settings : Settings} {p : Program} {planned : List PlannedFile} {t t' : FileTree}

/-! ### Places -/

/-- The suffixes of output files. -/
def suffixes : List Text := [".ir", ".raw.ir"]

/-- A planned file lies in the output directory, under a plain name with a suffix. -/
def InDirectory (settings : Settings) (f : PlannedFile) : Prop :=
  ∃ stem, Name.Plain stem ∧ ∃ suffix ∈ suffixes, f.path = pathFor settings stem suffix

theorem place_pathFor (settings : Settings) {stem suffix : Text} (hs : Name.Plain stem)
    (hsuffix : suffix ∈ suffixes) :
    Path.place (pathFor settings stem suffix) = Path.place settings.outputDir ++ [stem ++ suffix] := by
  have hcases : suffix = ".ir" ∨ suffix = ".raw.ir" := by simpa [suffixes] using hsuffix
  have hlong : 3 ≤ suffix.length := by rcases hcases with rfl | rfl <;> decide
  have hslash : '/' ∉ suffix := by rcases hcases with rfl | rfl <;> decide
  have hlength : 3 ≤ (stem ++ suffix).length := by
    rw [List.length_append]
    omega
  have hne : ∀ short : Text, short.length < 3 → stem ++ suffix ≠ short := by
    intro short hshort he
    rw [he] at hlength
    omega
  refine Path.place_join ?_ ?_ (hne _ (by decide))
  · rw [List.mem_append]
    rintro (h | h)
    · exact hs.notMem rfl h
    · exact hslash h
  · simp only [Path.isStep, Bool.and_eq_true, Bool.not_eq_true', List.isEmpty_eq_false_iff, bne_iff_ne]
    exact ⟨hne [] (by decide), hne ['.'] (by decide)⟩

/-- Files of the output directory with different paths lie at different places. -/
theorem InDirectory.path_eq {f g : PlannedFile} (hf : InDirectory settings f)
    (hg : InDirectory settings g) (h : Path.place f.path = Path.place g.path) : f.path = g.path := by
  obtain ⟨stem, hstem, suffix, hsuffix, hpath⟩ := hf
  obtain ⟨stem', hstem', suffix', hsuffix', hpath'⟩ := hg
  rw [hpath, hpath', place_pathFor settings hstem hsuffix, place_pathFor settings hstem' hsuffix'] at h
  have hname : stem ++ suffix = stem' ++ suffix' := by
    simpa using List.append_cancel_left h
  rw [hpath, hpath', pathFor, pathFor, hname]

/-- The files of a program: those of variables and those of functions. -/
theorem mem_files {f : PlannedFile} (h : f ∈ files settings p) :
    (∃ u ∈ p.units.values, globalsFile? settings u = some f) ∨
      ∃ g ∈ p.functions, f ∈ functionFiles settings g := by
  obtain ⟨u, hu, hf⟩ := List.mem_flatMap.mp h
  rcases List.mem_append.mp hf with hf | hf
  · exact .inl ⟨u, hu, by simpa using hf⟩
  · obtain ⟨g, hg, hf⟩ := List.mem_flatMap.mp hf
    obtain ⟨i, -, hi⟩ := List.mem_filterMap.mp hg
    exact .inr ⟨g, List.mem_of_getElem? hi, hf⟩

theorem mem_functionFiles {f : PlannedFile} {g : CompiledRoutine} (h : f ∈ functionFiles settings g) :
    f.path = pathFor settings g.mangled ".ir" ∧ f.text = g.listing.render g.description ∨
      settings.debug ∧ f.path = pathFor settings g.mangled ".raw.ir" ∧ f.text = g.listing.dump := by
  rw [functionFiles] at h
  split at h
  · next hdebug =>
    rcases List.mem_cons.mp h with rfl | h
    · exact .inl ⟨rfl, rfl⟩
    · rw [List.mem_singleton.mp h]
      exact .inr ⟨hdebug, rfl, rfl⟩
  · rw [List.mem_singleton.mp h]
    exact .inl ⟨rfl, rfl⟩

theorem inDirectory_of_mem_files (hp : ∀ g ∈ p.functions, Name.Plain g.mangled) {f : PlannedFile}
    (h : f ∈ files settings p) : InDirectory settings f := by
  rcases mem_files h with ⟨u, -, hf⟩ | ⟨g, hg, hf⟩
  · obtain ⟨text, -, rfl⟩ := Option.map_eq_some_iff.mp hf
    exact ⟨_, u.scope.plain_stem, ".ir", by decide, rfl⟩
  · rcases mem_functionFiles hf with ⟨hpath, -⟩ | ⟨-, hpath, -⟩
    · exact ⟨_, hp g hg, ".ir", by decide, hpath⟩
    · exact ⟨_, hp g hg, ".raw.ir", by decide, hpath⟩

private theorem checkPlaces_eq_ok {earlier fs : List PlannedFile} (h : checkPlaces earlier fs = .ok ()) :
    fs.Pairwise (fun f g => Path.parts f.path ≠ Path.parts g.path) ∧
      ∀ f ∈ fs, ∀ g ∈ earlier, Path.parts g.path ≠ Path.parts f.path := by
  induction fs generalizing earlier with
  | nil => simp
  | cons f fs ih =>
    rw [checkPlaces] at h
    split at h
    · cases h
    · next hnone =>
      obtain ⟨hpair, hearlier⟩ := ih h
      refine ⟨List.pairwise_cons.mpr ⟨fun g hg => ?_, hpair⟩, fun g hg e he => ?_⟩
      · exact hearlier g hg f (by simp)
      · rcases List.mem_cons.mp hg with rfl | hg
        · simpa using List.find?_eq_none.mp hnone e he
        · exact hearlier g hg e (by simp [he])

theorem plan_eq_ok (h : plan settings p = .ok planned) :
    planned = files settings p ∧
      planned.Pairwise fun f g => Path.parts f.path ≠ Path.parts g.path := by
  rw [plan] at h
  cases hc : checkPlaces [] (files settings p) with
  | error e =>
    rw [hc] at h
    cases h
  | ok u =>
    rw [hc] at h
    obtain rfl : files settings p = planned := Except.ok.inj h
    exact ⟨rfl, (checkPlaces_eq_ok hc).1⟩

/-- **Planned files have different places.** -/
theorem nodup_place_of_plan (hp : ∀ g ∈ p.functions, Name.Plain g.mangled)
    (h : plan settings p = .ok planned) : (planned.map fun f => Path.place f.path).Nodup := by
  obtain ⟨rfl, hpair⟩ := plan_eq_ok h
  rw [List.Nodup, List.pairwise_map]
  refine hpair.imp_of_mem fun {f g} hf hg hparts hplace => hparts ?_
  exact congrArg Path.parts
    ((inDirectory_of_mem_files hp hf).path_eq (inDirectory_of_mem_files hp hg) hplace)

theorem nodup_path_of_plan (hp : ∀ g ∈ p.functions, Name.Plain g.mangled)
    (h : plan settings p = .ok planned) : (planned.map PlannedFile.path).Nodup := by
  have hplaces := nodup_place_of_plan hp h
  have hmap : (planned.map fun f => Path.place f.path) =
      (planned.map PlannedFile.path).map Path.place := by rw [List.map_map]; rfl
  rw [hmap] at hplaces
  exact hplaces.of_map

/-! ### Writing -/

/-- What writing files has done to a tree, and what is said about it: the files hold their texts, all other
places are as before, and every path is listed in the order of the plan, as written or as unchanged.  A
file is written just if its earlier contents were absent or different, where those are what reading its
path gave. -/
structure Emits (planned : List PlannedFile) (t t' : FileTree) (s : Summary) : Prop where
  /-- A file holds its text. -/
  holds : ∀ f ∈ planned, f.text ≠ [] → t'.read f.path = .ok (Text.encode f.text)
  /-- All other files are as before. -/
  others : ∀ place ∉ planned.map (fun f => Path.place f.path), t'.file? place = t.file? place
  /-- The paths that were written are listed in order. -/
  written_eq : s.written = (planned.map PlannedFile.path).filter (· ∈ s.written)
  /-- So are all others. -/
  unchanged_eq : s.unchanged = (planned.map PlannedFile.path).filter (· ∉ s.written)
  /-- The files that were written are those that had to be. -/
  written_iff : ∀ f ∈ planned, f.text ≠ [] →
    (t.read f.path).toOption = t.file? (Path.place f.path) →
    (f.path ∈ s.written ↔ t.file? (Path.place f.path) ≠ some (Text.encode f.text))

/-- What reading a path gives is what lies at its place, before and after a change elsewhere. -/
theorem toOption_read_of_keeps {places : List (List Text)} (hk : Keeps places t t') {path : Text}
    (hp : Path.place path ∉ places) (h : (t.read path).toOption = t.file? (Path.place path)) :
    (t'.read path).toOption = t'.file? (Path.place path) := by
  cases hr : t'.read path with
  | ok contents => exact (read_eq_ok_iff.mp hr).2.symm
  | error fault =>
    rw [hk.file _ hp, ← h]
    cases hr' : t.read path with
    | error fault' => rfl
    | ok contents =>
      rw [read_of_keeps hk hp hr'] at hr
      cases hr

private theorem mem_written_iff_of_status {f : PlannedFile} {status : WriteStatus}
    (h : t.writeIfChanged f.path f.text = (t', .ok status)) (htext : f.text ≠ [])
    (hread : (t.read f.path).toOption = t.file? (Path.place f.path)) :
    status = .written ↔ t.file? (Path.place f.path) ≠ some (Text.encode f.text) := by
  rw [← hread]
  rcases writeIfChanged_cases h with ⟨rfl, -, hsame⟩ | ⟨rfl, hdiff, -, -⟩
  · rw [hsame htext]
    exact iff_of_false (by decide) fun hne => hne rfl
  · refine iff_of_true rfl fun he => hdiff ?_
    cases hr : t.read f.path with
    | error fault =>
      rw [hr] at he
      cases he
    | ok contents =>
      rw [hr] at he
      rw [Option.some.inj he]

private theorem keeps_of_writeIfChanged {f : PlannedFile} {status : WriteStatus}
    (h : t.writeIfChanged f.path f.text = (t', .ok status)) :
    Keeps [Path.place f.path] t t' ∧ (f.text ≠ [] → t'.read f.path = .ok (Text.encode f.text)) := by
  rcases writeIfChanged_cases h with ⟨-, rfl, hread⟩ | ⟨-, -, hkeeps, hread⟩
  · exact ⟨.refl _ t', hread⟩
  · exact ⟨hkeeps, fun _ => hread⟩

@[simp] theorem Summary.mem_written_cons (path path' : Text) (status : WriteStatus) (s : Summary) :
    path' ∈ (Summary.cons path status s).written ↔
      path' ∈ s.written ∨ path' = path ∧ status = .written := by
  cases status with
  | written => simp [Summary.cons, or_comm]
  | unchanged => simp [Summary.cons]

/-- A summary that lists paths in order still does so with a new path in front. -/
theorem Summary.listed_cons {s : Summary} {path : Text} {paths : List Text} (status : WriteStatus)
    (hpath : path ∉ paths) (hw : s.written = paths.filter (· ∈ s.written))
    (hu : s.unchanged = paths.filter (· ∉ s.written)) :
    (Summary.cons path status s).written =
        (path :: paths).filter (· ∈ (Summary.cons path status s).written) ∧
      (Summary.cons path status s).unchanged =
        (path :: paths).filter (· ∉ (Summary.cons path status s).written) := by
  have hnot : path ∉ s.written := by
    rw [hw]
    exact fun h => hpath (List.mem_filter.mp h).1
  have hcongr : ∀ path' ∈ paths, path' ∈ path :: s.written ↔ path' ∈ s.written := by
    intro path' hp
    have hne : path' ≠ path := fun he => hpath (he ▸ hp)
    simp [hne]
  cases status with
  | written =>
    refine ⟨?_, ?_⟩
    · rw [Summary.cons, List.filter_cons_of_pos (by simp)]
      refine congrArg (path :: ·) (hw.trans (List.filter_congr fun path' hp => ?_))
      simp only [hcongr path' hp]
    · rw [Summary.cons, List.filter_cons_of_neg (by simp)]
      refine hu.trans (List.filter_congr fun path' hp => ?_)
      simp only [hcongr path' hp]
  | unchanged =>
    refine ⟨?_, ?_⟩
    · rw [Summary.cons, List.filter_cons_of_neg (by simpa using hnot)]
      exact hw
    · rw [Summary.cons, List.filter_cons_of_pos (by simpa using hnot)]
      exact congrArg (path :: ·) hu

/-- **What writing files does**, if they have different places.  Directories stay as well. -/
theorem emits_of_writeAll {s : Summary} (hplaces : (planned.map fun f => Path.place f.path).Nodup)
    (h : writeAll planned t = (t', .ok s)) :
    Keeps (planned.map fun f => Path.place f.path) t t' ∧ Emits planned t t' s := by
  induction planned generalizing t s with
  | nil =>
    obtain ⟨rfl, hs⟩ := Prod.mk.inj h
    obtain rfl : {} = s := Except.ok.inj hs
    exact ⟨.refl _ t, by simp, fun _ _ => rfl, rfl, rfl, by simp⟩
  | cons f rest ih =>
    rw [writeAll] at h
    generalize hone : t.writeIfChanged f.path f.text = one at h
    obtain ⟨t₁, result⟩ := one
    cases result with
    | error e => cases h
    | ok status =>
      dsimp only at h
      generalize hall : writeAll rest t₁ = all at h
      obtain ⟨t₂, result⟩ := all
      cases result with
      | error e => cases h
      | ok s₁ =>
        obtain ⟨ht, hs⟩ := Prod.mk.inj h
        subst ht
        obtain rfl : Summary.cons f.path status s₁ = s := Except.ok.inj hs
        rw [List.map_cons, List.nodup_cons] at hplaces
        obtain ⟨hk₁, hread⟩ := keeps_of_writeIfChanged hone
        obtain ⟨hk₂, hrest⟩ := ih hplaces.2 hall
        -- the first file has a place and a path of its own, so the others do not touch it
        have hother : ∀ g ∈ rest, Path.place g.path ∉ [Path.place f.path] := by
          intro g hg he
          exact hplaces.1 (List.mem_map.mpr ⟨g, hg, List.mem_singleton.mp he⟩)
        have hpath : f.path ∉ rest.map PlannedFile.path := by
          intro he
          obtain ⟨g, hg, he⟩ := List.mem_map.mp he
          exact hother g hg (by rw [he]; simp)
        have hkeeps : Keeps ((f :: rest).map fun f => Path.place f.path) t t₂ :=
          (hk₁.mono (by simp)).trans (hk₂.mono (List.subset_cons_self _ _))
        obtain ⟨hwritten, hunchanged⟩ :=
          Summary.listed_cons status hpath hrest.written_eq hrest.unchanged_eq
        refine ⟨hkeeps, ?_, hkeeps.file, hwritten, hunchanged, ?_⟩
        · intro g hg htext
          rcases List.mem_cons.mp hg with rfl | hg
          · exact read_of_keeps hk₂ hplaces.1 (hread htext)
          · exact hrest.holds g hg htext
        · intro g hg htext hlook
          rw [Summary.mem_written_cons]
          rcases List.mem_cons.mp hg with rfl | hg
          · have hnot : g.path ∉ s₁.written := by
              rw [hrest.written_eq]
              exact fun h => hpath (List.mem_filter.mp h).1
            rw [← mem_written_iff_of_status hone htext hlook]
            simp [hnot]
          · have hne : g.path ≠ f.path := fun he => hpath (List.mem_map.mpr ⟨g, hg, he⟩)
            have hlook₁ := toOption_read_of_keeps hk₁ (hother g hg) hlook
            rw [← hk₁.file _ (hother g hg), ← hrest.written_iff g hg htext hlook₁]
            simp [hne]

theorem writeAll_error {e : Error} (h : (writeAll planned t).2 = .error e) :
    ∃ path detail, e = .file path detail := by
  induction planned generalizing t with
  | nil => cases h
  | cons f rest ih =>
    rw [writeAll] at h
    generalize hone : t.writeIfChanged f.path f.text = one at h
    obtain ⟨t₁, result⟩ := one
    cases result with
    | error e' =>
      cases h
      exact writeIfChanged_error (congrArg Prod.snd hone)
    | ok status =>
      dsimp only at h
      cases hrest : (writeAll rest t₁).2 with
      | error e' =>
        rw [hrest] at h
        cases h
        exact ih hrest
      | ok s =>
        rw [hrest] at h
        cases h

/-- **Writing files again does nothing**: they all hold their texts. -/
theorem writeAll_again (h : ∀ f ∈ planned, t.read f.path = .ok (Text.encode f.text)) :
    writeAll planned t = (t, .ok { written := [], unchanged := planned.map PlannedFile.path }) := by
  induction planned with
  | nil => rfl
  | cons f rest ih =>
    have hrest := ih fun g hg => h g (by simp [hg])
    simp only [writeAll, writeIfChanged_of_read (h f (by simp)), hrest]
    rfl

end Output

end Freestanding
