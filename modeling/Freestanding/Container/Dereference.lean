import Freestanding.Container.Idiom
import Freestanding.Cut
import Freestanding.Error
import Freestanding.Line
import Freestanding.Listing

/-!
# Loads of the empty instance

The empty instance of a container type becomes a static object of the output, so its load can neither
fail nor yield null.  The load turns into a cast of that object, the comparison with null goes, and the
branch leads to where it led for a value that is not null.  Its other end is then unreachable.

## Main definitions

* `Idiom.castText`, `Idiom.Branch.jumpText` — the instructions that are put in.
* `Dereference` — one load with its comparison and its branch, and the lines of the block around them.
* `Dereference.find` — the first one of a block.
* `Dereference.lines` — the block after the change.
* `Dereference.all` — the block after all changes, and the labels that became unreachable.

## Main results

* `Dereference.length_lines` — each change makes the block one line shorter.
-/

namespace Freestanding

namespace Idiom

/-- The cast of the empty instance that takes the place of its load. -/
def castText (indent value singleton : Text) : Text :=
  indent ++ value ++ " = bitcast ptr " ++ singleton ++ " to ptr"

namespace Branch

/-- Where a branch on the outcome of a comparison leads if the value is null. -/
def ifNull (b : Branch) (check : NullCheck) : Text :=
  if check.isEqual then b.yes else b.no

/-- Where it leads if the value is not null. -/
def ifNotNull (b : Branch) (check : NullCheck) : Text :=
  if check.isEqual then b.no else b.yes

/-- Either way it leads to one of its labels. -/
theorem ifNotNull_cases (b : Branch) (check : NullCheck) :
    b.ifNotNull check = b.yes ∨ b.ifNotNull check = b.no := by
  unfold ifNotNull
  split
  · exact .inr rfl
  · exact .inl rfl

/-- The jump to a label that takes the place of a branch. -/
def jumpText (b : Branch) (label : Text) : Text :=
  b.indent ++ "br label " ++ label

end Branch

end Idiom

/-- A load of the empty instance of a container type in a block, with the comparison of the loaded
value with null and the branch on the outcome. -/
structure Dereference where
  /-- The cut at the load, which reads the container type. -/
  load : Cut Text Text
  /-- The value that is loaded. -/
  value : Text
  /-- The cut of what follows the load at the comparison. -/
  check : Cut Text Idiom.NullCheck
  /-- The cut of what follows the comparison at the branch. -/
  branch : Cut Text Idiom.Branch

namespace Dereference

/-- What is wrong with a load. -/
def malformed (function detail : Text) : Error :=
  .malformed function "container dereference" detail

/-- Read a line as a load of the empty instance of a type that the table knows. -/
def load? (table : AddressTable) (line : Text) : Option Text :=
  (Idiom.emptyLoad? line).filter (table.isContainer ·)

/-- The load at a cut, together with the comparison and the branch that follow it. -/
def complete (function : Text) (load : Cut Text Text) : Except Error Dereference :=
  match Line.assigned? load.found with
  | none => .error (malformed function ("unassigned load of " ++ load.reading))
  | some value =>
    match Cut.first? (fun line => (Idiom.nullCheck? line).filter (·.value == value)) load.after with
    | none => .error (malformed function ("no null check of " ++ value))
    | some check =>
      let flag := check.reading.flag
      match Cut.first? (fun line => (Idiom.branch? line).filter (·.flag == flag)) check.after with
      | none => .error (malformed function ("no branch on " ++ flag))
      | some branch => .ok { load, value, check, branch }

/-- The first load of a block, if there is one. -/
def find (table : AddressTable) (function : Text) (lines : List Text) :
    Except Error (Option Dereference) :=
  match Cut.first? (load? table) lines with
  | none => .ok none
  | some load => (complete function load).map some

/-- Where the branch leads if the loaded value is null. -/
def failure (d : Dereference) : Text :=
  d.branch.reading.ifNull d.check.reading

/-- Where the branch leads if the loaded value is not null. -/
def success (d : Dereference) : Text :=
  d.branch.reading.ifNotNull d.check.reading

/-- The line that takes the place of the load. -/
def castLine (singleton : Text) (d : Dereference) : Text :=
  Idiom.castText (d.load.found.takeWhile Text.isBlank) d.value singleton

/-- The line that takes the place of the branch. -/
def jumpLine (d : Dereference) : Text :=
  d.branch.reading.jumpText d.success

/-- The lines of the block after the change. -/
def lines (singleton : Text) (d : Dereference) : List Text :=
  d.load.before ++ d.castLine singleton :: (d.check.before ++ (d.branch.before ++
    d.jumpLine :: d.branch.after))

/-- The parts of a load that was found make up the lines of the block. -/
theorem append_eq_of_find {table : AddressTable} {function : Text} {lines : List Text}
    {d : Dereference} (h : find table function lines = .ok (some d)) :
    lines = d.load.before ++ d.load.found :: (d.check.before ++ d.check.found ::
      (d.branch.before ++ d.branch.found :: d.branch.after)) := by
  unfold find at h
  split at h
  · cases h
  · rename_i load hload
    obtain ⟨happ, -, -⟩ := Cut.append_eq_of_first? hload
    unfold complete at h
    split at h
    · cases h
    · split at h
      · cases h
      · rename_i check hcheck
        obtain ⟨hafter, -, -⟩ := Cut.append_eq_of_first? hcheck
        dsimp only at h
        split at h
        · cases h
        · rename_i branch hbranch
          obtain ⟨hend, -, -⟩ := Cut.append_eq_of_first? hbranch
          cases h
          dsimp only
          rw [hend, hafter, happ]

/-- The change makes the block one line shorter. -/
theorem length_lines (singleton : Text) {table : AddressTable} {function : Text} {lines : List Text}
    {d : Dereference} (h : find table function lines = .ok (some d)) :
    (d.lines singleton).length + 1 = lines.length := by
  rw [append_eq_of_find h]
  simp only [Dereference.lines, List.length_append, List.length_cons]
  omega

/-- The lines of a block after all its loads have been changed, and the labels that the branches no
longer lead to, in order. -/
def all (table : AddressTable) (function singleton : Text) (lines : List Text) :
    Except Error (List Text × List Text) :=
  match _h : find table function lines with
  | .error e => .error e
  | .ok none => .ok (lines, [])
  | .ok (some d) =>
    (all table function singleton (d.lines singleton)).map fun (lines, failures) =>
      (lines, d.failure :: failures)
termination_by lines.length
decreasing_by
  have := length_lines singleton _h
  omega

end Dereference

end Freestanding
