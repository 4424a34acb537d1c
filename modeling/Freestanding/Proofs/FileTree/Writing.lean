import Freestanding.FileTree

/-!
# Writing into a file tree

A tree of files and directories is, as far as its files go, a map from places to contents.  Where a path
leads does not depend on the tree: the tree only decides whether the way is open.  Once it is open it
stays so, because directories are made and never taken away.  Hence writing a file is an update of the
map at the place of its path, and nothing else.

## Main definitions

* `Path.place` — the place to which a path leads, whatever lies on the way.
* `FileTree.file?` — the map from places to contents.
* `FileTree.Keeps` — directories stay, and so do all files but those at the given places.

## Main results

* `FileTree.read_eq_ok_iff` — reading a path looks the map up, if the way is open.
* `FileTree.read_of_keeps` — what can be read stays readable.
* `FileTree.keeps_write`, `FileTree.keeps_makeDirs` — the two kinds of changes.
* `FileTree.writeIfChanged_cases` — **writing a text leaves the tree alone, or updates one place.**
-/

namespace Freestanding

/-- The place reached from another one by a piece of a path. -/
def Path.follow (place : List Text) (piece : Text) : List Text :=
  if !isStep piece then place
  else if piece = ['.', '.'] then place.dropLast
  else place ++ [piece]

/-- The place to which a path leads, whatever lies on the way. -/
def Path.place (path : Text) : List Text :=
  (pieces path).foldl follow []

namespace FileTree

variable {t t' t'' : FileTree} {path : Text} {places places' : List (List Text)}

/-! ### Files as a map -/

/-- The contents of the file at a place. -/
def file? (t : FileTree) (place : List Text) : Option (List UInt8) :=
  match t.at? place with
  | some (.file contents) => some contents
  | _ => none

theorem file?_eq_some_iff {place : List Text} {contents : List UInt8} :
    t.file? place = some contents ↔ t.at? place = some (.file contents) := by
  rw [file?]
  split
  · next h => rw [h]; simp
  · next h => exact iff_of_false (by simp) fun he => h contents he

private theorem walkFrom_eq {place pieces result : List Text} (h : t.walkFrom place pieces = .ok result) :
    result = pieces.foldl Path.follow place := by
  fun_induction walkFrom t place pieces with
  | case1 place => exact (Except.ok.inj h).symm
  | case2 | case3 | case6 => cases h
  | case4 place piece rest _ hstep ih =>
    rw [List.foldl_cons, Path.follow, if_pos hstep]
    exact ih h
  | case5 place rest _ hstep ih =>
    rw [List.foldl_cons, Path.follow, if_neg hstep, if_pos rfl]
    exact ih h
  | case7 place piece rest _ hstep hup _ ih =>
    rw [List.foldl_cons, Path.follow, if_neg hstep, if_neg hup]
    exact ih h

/-- A path leads to its place if it leads anywhere. -/
theorem walk_eq_place {place : List Text} (h : t.walk path = .ok place) : place = Path.place path := by
  rw [walk] at h
  split at h
  · cases h
  · split at h
    · cases h
    · exact walkFrom_eq h

/-- **Reading a path looks up its place**, if the way is open. -/
theorem read_eq_ok_iff {contents : List UInt8} :
    t.read path = .ok contents ↔
      t.walk path = .ok (Path.place path) ∧ t.file? (Path.place path) = some contents := by
  rw [read]
  cases hw : t.walk path with
  | error fault => simp [bind, Except.bind]
  | ok place =>
    obtain rfl := walk_eq_place hw
    simp only [bind, Except.bind, file?]
    cases t.at? (Path.place path) with
    | none => simp [throw, throwThe, MonadExceptOf.throw]
    | some e => cases e <;> simp [throw, throwThe, MonadExceptOf.throw, pure, Except.pure]

/-! ### What stays -/

/-- From one tree to a later one: directories stay, and so do all files but those at the given
places. -/
structure Keeps (places : List (List Text)) (t t' : FileTree) : Prop where
  /-- A directory stays. -/
  directory : ∀ place, t.at? place = some .directory → t'.at? place = some .directory
  /-- No file appears, changes or goes elsewhere. -/
  file : ∀ place ∉ places, t'.file? place = t.file? place

namespace Keeps

theorem refl (places : List (List Text)) (t : FileTree) : Keeps places t t :=
  ⟨fun _ h => h, fun _ _ => rfl⟩

theorem trans (h : Keeps places t t') (h' : Keeps places t' t'') : Keeps places t t'' where
  directory place hd := h'.directory place (h.directory place hd)
  file place hp := (h'.file place hp).trans (h.file place hp)

theorem mono (h : Keeps places t t') (hsub : places ⊆ places') : Keeps places' t t' :=
  ⟨h.directory, fun place hp => h.file place fun hmem => hp (hsub hmem)⟩

end Keeps

/-- An open way stays open. -/
theorem walkFrom_of_keeps (hk : Keeps places t t') {place pieces result : List Text}
    (h : t.walkFrom place pieces = .ok result) : t'.walkFrom place pieces = .ok result := by
  fun_induction walkFrom t place pieces with
  | case1 place => exact h
  | case2 | case3 | case6 => cases h
  | case4 place piece rest hd hstep ih =>
    simp only [walkFrom, hk.directory place hd, hstep, if_true]
    exact ih h
  | case5 place rest hd hstep ih =>
    simp only [walkFrom, hk.directory place hd, if_neg hstep, if_true]
    exact ih h
  | case7 place piece rest hd hstep hup hlen ih =>
    simp only [walkFrom, hk.directory place hd, if_neg hstep, if_neg hup, if_neg hlen]
    exact ih h

theorem walk_of_keeps (hk : Keeps places t t') {place : List Text} (h : t.walk path = .ok place) :
    t'.walk path = .ok place := by
  rw [walk] at h ⊢
  split at h
  · cases h
  · split at h
    · cases h
    · next hbad hempty =>
      rw [if_neg hbad, if_neg hempty]
      exact walkFrom_of_keeps hk h

/-- **What can be read stays readable**, away from the places that change. -/
theorem read_of_keeps (hk : Keeps places t t') (hp : Path.place path ∉ places) {contents : List UInt8}
    (h : t.read path = .ok contents) : t'.read path = .ok contents := by
  obtain ⟨hw, hf⟩ := read_eq_ok_iff.mp h
  refine read_eq_ok_iff.mpr ⟨walk_of_keeps hk hw, ?_⟩
  rw [hk.file _ hp, hf]

/-! ### Changes -/

theorem at?_insert {place : List Text} (hp : place ≠ []) (e : Entry) (place' : List Text) :
    FileTree.at? { entries := t.entries.insert place e } place' =
      if place = place' then some e else t.at? place' := by
  rw [at?, at?]
  by_cases hempty : place'.isEmpty
  · rw [if_pos hempty, if_pos hempty, if_neg]
    intro h
    exact hp (h.trans (List.isEmpty_iff.mp hempty))
  · rw [if_neg hempty, if_neg hempty, Std.ExtTreeMap.getElem?_insert]
    by_cases h : place = place'
    · rw [if_pos (by simpa using h), if_pos h]
    · rw [if_neg (by simpa using h), if_neg h]

theorem file?_insert {place : List Text} (hp : place ≠ []) (e : Entry) {place' : List Text}
    (hne : place ≠ place') :
    FileTree.file? { entries := t.entries.insert place e } place' = t.file? place' := by
  rw [file?, at?_insert hp, if_neg hne, file?]

/-- A directory where there was nothing. -/
theorem keeps_insert_directory {place : List Text} (hp : place ≠ []) (hnone : t.at? place = none) :
    Keeps [] t { entries := t.entries.insert place .directory } where
  directory place' hd := by
    rw [at?_insert hp, hd, ite_self]
  file place' _ := by
    by_cases h : place = place'
    · subst h
      simp only [file?, at?_insert hp, if_true, hnone]
    · exact file?_insert hp _ h

private theorem keeps_makeDirsFrom (place pieces : List Text) (t : FileTree) :
    Keeps [] t (makeDirsFrom place pieces t).1 := by
  fun_induction makeDirsFrom place pieces t with
  | case1 | case4 | case7 => exact .refl [] _
  | case2 _ _ _ _ _ ih => exact ih
  | case3 _ _ _ _ ih => exact ih
  | case5 place piece rest t _ _ _ next hnone ih =>
    exact (keeps_insert_directory (by simp [next]) hnone).trans ih
  | case6 _ _ _ _ _ _ _ _ _ ih => exact ih

/-- Making directories leaves all files alone. -/
theorem keeps_makeDirs (t : FileTree) (path : Text) : Keeps [] t (t.makeDirs path).1 := by
  rw [makeDirs]
  split
  · exact .refl [] t
  · exact keeps_makeDirsFrom [] _ t

/-- Writing a file changes one place, and the file can be read afterwards. -/
theorem keeps_write {contents : List UInt8} (h : t.write path contents = .ok t') :
    Keeps [Path.place path] t t' ∧ t'.read path = .ok contents := by
  rw [write] at h
  cases hw : t.walk path with
  | error fault =>
    rw [hw] at h
    cases h
  | ok place =>
    obtain rfl := walk_eq_place hw
    rw [hw] at h
    -- the place is no directory, so it is not the root either
    have hdir : t.at? (Path.place path) ≠ some .directory := by
      intro hd
      simp only [hd, bind, Except.bind] at h
      cases h
    have hroot : Path.place path ≠ [] := by
      intro hp
      rw [hp] at hdir
      exact hdir rfl
    have ht : t' = { entries := t.entries.insert (Path.place path) (.file contents) } := by
      simp only [bind, Except.bind] at h
      exact (Except.ok.inj h).symm
    subst ht
    have hkeeps : Keeps [Path.place path] t
        { entries := t.entries.insert (Path.place path) (.file contents) } := by
      refine ⟨fun place hd => ?_, fun place hp => ?_⟩
      · rw [at?_insert hroot, if_neg, hd]
        rintro rfl
        exact hdir hd
      · exact file?_insert hroot _ fun he => hp (List.mem_singleton.mpr he.symm)
    refine ⟨hkeeps, read_eq_ok_iff.mpr ⟨walk_of_keeps hkeeps hw, ?_⟩⟩
    rw [file?_eq_some_iff, at?_insert hroot, if_pos rfl]

private theorem keeps_writeBelow {contents : List UInt8} (h : t.writeBelow path contents = (t', .ok ())) :
    Keeps [Path.place path] t t' ∧ t'.read path = .ok contents := by
  have hdirs := keeps_makeDirs t (Path.parent path)
  rw [writeBelow] at h
  generalize t.makeDirs (Path.parent path) = made at h hdirs
  obtain ⟨t₁, result⟩ := made
  cases result with
  | error fault => cases h
  | ok u =>
    dsimp only at h hdirs
    cases hw : t₁.write path contents with
    | error fault =>
      rw [hw] at h
      cases h
    | ok t₂ =>
      rw [hw] at h
      cases h
      obtain ⟨hkeeps, hread⟩ := keeps_write hw
      exact ⟨(hdirs.mono (List.nil_subset _)).trans hkeeps, hread⟩

/-- **Writing a text leaves the tree alone, or updates one place.**  It is left alone if the text is empty
or can be read there already. -/
theorem writeIfChanged_cases {text : Text} {status : WriteStatus}
    (h : t.writeIfChanged path text = (t', .ok status)) :
    (status = .unchanged ∧ t' = t ∧ (text ≠ [] → t.read path = .ok (Text.encode text))) ∨
    (status = .written ∧ t.read path ≠ .ok (Text.encode text) ∧ Keeps [Path.place path] t t' ∧
      t'.read path = .ok (Text.encode text)) := by
  have hbelow : t.read path ≠ .ok (Text.encode text) →
      ((t.writeBelow path (Text.encode text)).1,
        (t.writeBelow path (Text.encode text)).2.map fun _ => WriteStatus.written) = (t', .ok status) →
      status = .written ∧ t.read path ≠ .ok (Text.encode text) ∧ Keeps [Path.place path] t t' ∧
        t'.read path = .ok (Text.encode text) := by
    intro hread hw
    generalize hres : t.writeBelow path (Text.encode text) = res at hw
    obtain ⟨t₁, result⟩ := res
    cases result with
    | error e => cases hw
    | ok u =>
      cases hw
      exact ⟨rfl, hread, keeps_writeBelow hres⟩
  rw [writeIfChanged] at h
  split at h
  · next hempty =>
    cases h
    exact .inl ⟨rfl, rfl, fun hne => absurd (List.isEmpty_iff.mp hempty) hne⟩
  · split at h
    · next contents hread =>
      split at h
      · next heq =>
        cases h
        exact .inl ⟨rfl, rfl, fun _ => heq ▸ hread⟩
      · next hne =>
        refine .inr (hbelow ?_ h)
        rw [hread]
        exact fun he => hne (Except.ok.inj he)
    · next hread =>
      refine .inr (hbelow ?_ h)
      rw [hread]
      exact fun he => by cases he
    · cases h

/-- A text that can be read already is not written again. -/
theorem writeIfChanged_of_read {text : Text} (h : t.read path = .ok (Text.encode text)) :
    t.writeIfChanged path text = (t, .ok .unchanged) := by
  rw [writeIfChanged]
  split
  · rfl
  · simp only [h, if_true]

/-! ### Failures -/

private theorem writeBelow_error {contents : List UInt8} {e : Error}
    (h : (t.writeBelow path contents).2 = .error e) : ∃ path detail, e = .file path detail := by
  rw [writeBelow] at h
  split at h
  · cases h
    exact ⟨_, _, rfl⟩
  · split at h
    · cases h
      exact ⟨_, _, rfl⟩
    · cases h

/-- Writing fails only with an error about a file. -/
theorem writeIfChanged_error {text : Text} {e : Error}
    (h : (t.writeIfChanged path text).2 = .error e) : ∃ path detail, e = .file path detail := by
  have hbelow : ((t.writeBelow path (Text.encode text)).2.map fun _ => WriteStatus.written) = .error e →
      ∃ path detail, e = .file path detail := by
    intro hw
    cases hres : (t.writeBelow path (Text.encode text)).2 with
    | error e' =>
      rw [hres] at hw
      cases hw
      exact writeBelow_error hres
    | ok u =>
      rw [hres] at hw
      cases hw
  rw [writeIfChanged] at h
  split at h
  · cases h
  · split at h
    · split at h
      · cases h
      · exact hbelow h
    · exact hbelow h
    · cases h
      exact ⟨_, _, rfl⟩

end FileTree

end Freestanding
