import Freestanding.Program.Basic
import Freestanding.FileTree
import Freestanding.Settings

/-!
# Output

A program becomes files: one for the global variables of each scope that owns some, one for each
function, and, if the settings ask for it, one for the dump of each function.  All files are planned
before the first one is written, and two that would go to the same place are an error.  Files that hold
their text already are left alone.

## Main definitions

* `PlannedFile` — path, text, and what the file is for.
* `Output.files` — the files of a program in order.
* `Output.plan` — the same, if no two of them collide.
* `Output.Summary` — what was written and what was not.
* `Output.write` — writing them.
-/

namespace Freestanding

/-- A file that is to be written. -/
structure PlannedFile where
  /-- The path. -/
  path : Text
  /-- The contents. -/
  text : Text
  /-- What the file is for. -/
  owner : Text
  deriving DecidableEq, Repr

namespace Output

/-- The path of an output file. -/
def pathFor (settings : Settings) (stem suffix : Text) : Text :=
  Path.join settings.outputDir (stem ++ suffix)

/-- The files of a function. -/
def functionFiles (settings : Settings) (f : CompiledRoutine) : List PlannedFile :=
  let description := f.description
  let code : PlannedFile := {
    path := pathFor settings f.mangled ".ir"
    text := f.listing.render description
    owner := description }
  let dump : PlannedFile := {
    path := pathFor settings f.mangled ".raw.ir"
    text := f.listing.dump
    owner := "raw IR of " ++ description }
  if settings.debug then [code, dump] else [code]

/-- The file of the variables of a scope, if it owns any. -/
def globalsFile? (settings : Settings) (u : ScopeUnit) : Option PlannedFile :=
  u.globals?.map fun text =>
    { path := pathFor settings u.scope.stem ".ir", text, owner := "globals of " ++ u.scope.dotted }

/-- The files of a program, unit by unit. -/
def files (settings : Settings) (p : Program) : List PlannedFile :=
  p.units.values.flatMap fun u =>
    (globalsFile? settings u).toList ++ (p.functionsOf u).flatMap (functionFiles settings)

/-- Check that no file goes to the place of an earlier one. -/
def checkPlaces (earlier : List PlannedFile) : List PlannedFile → Except Error Unit
  | [] => .ok ()
  | f :: rest =>
    match earlier.find? fun g => Path.parts g.path == Path.parts f.path with
    | some g => .error (.outputCollision f.path g.owner f.owner)
    | none => checkPlaces (earlier ++ [f]) rest

/-- The files of a program, if each has a place of its own. -/
def plan (settings : Settings) (p : Program) : Except Error (List PlannedFile) := do
  let files := files settings p
  checkPlaces [] files
  return files

/-- What was written and what was not. -/
structure Summary where
  /-- The paths of the files with new contents. -/
  written : List Text := []
  /-- The paths of the files that were left alone. -/
  unchanged : List Text := []
  deriving DecidableEq, Repr

/-- The number of files. -/
def Summary.total (s : Summary) : Nat :=
  s.written.length + s.unchanged.length

/-- The summary with one more file in front. -/
def Summary.cons (path : Text) (status : FileTree.WriteStatus) (s : Summary) : Summary :=
  match status with
  | .written => { s with written := path :: s.written }
  | .unchanged => { s with unchanged := path :: s.unchanged }

/-- Write files, one after the other, up to the first failure. -/
def writeAll : List PlannedFile → FileTree → FileTree × Except Error Summary
  | [], t => (t, .ok {})
  | f :: rest, t =>
    match t.writeIfChanged f.path f.text with
    | (t, .error e) => (t, .error e)
    | (t, .ok status) =>
      let (t, result) := writeAll rest t
      (t, result.map (Summary.cons f.path status))

/-- Write the files of a program. -/
def write (settings : Settings) (p : Program) (t : FileTree) : FileTree × Except Error Summary :=
  match plan settings p with
  | .error e => (t, .error e)
  | .ok files => writeAll files t

end Output

end Freestanding
