import Freestanding.Error
import Freestanding.Path
import Freestanding.Text.Utf8
import Std.Data.ExtTreeMap

/-!
# File trees

The files that a run reads and writes, as a value: under each place, which is the list of names that
lead there, lies a file or a directory.  The root is always a directory.  A path is followed name by
name: a dot stays, two dots lead up, and every name but the last has to lead to a directory.

## Main definitions

* `FileTree` — what lies where.
* `FileTree.walk` — the place to which a path leads.
* `FileTree.read`, `FileTree.readText` — the contents of a file.
* `FileTree.write`, `FileTree.makeDirs`, `FileTree.remove` — changes.
* `FileTree.writeIfChanged` — writing a file only if that changes it.
-/

namespace Freestanding

/-- What can lie at a place. -/
inductive FileTree.Entry
  /-- A file and its contents. -/
  | file (contents : List UInt8)
  /-- A directory. -/
  | directory
  deriving DecidableEq, Repr

/-- Files and directories by place. -/
structure FileTree where
  /-- What lies where; the root is not listed. -/
  entries : Std.ExtTreeMap (List Text) FileTree.Entry := ∅

namespace FileTree

/-- Why a path could not be followed, or a file not be read or written. -/
inductive Fault
  /-- There is nothing at the place. -/
  | missing
  /-- There is a file where a directory is needed. -/
  | notDirectory
  /-- There is a directory where a file is needed. -/
  | isDirectory
  /-- The name or the path cannot be that of a file. -/
  | badName
  /-- The contents are not text. -/
  | notText
  deriving DecidableEq, Repr

/-- The wording of a fault. -/
def Fault.message : Fault → Text
  | .missing => "no such file or directory"
  | .notDirectory => "not a directory"
  | .isDirectory => "is a directory"
  | .badName => "invalid file name"
  | .notText => "not valid text"

/-- What lies at a place. -/
def at? (t : FileTree) (place : List Text) : Option Entry :=
  if place.isEmpty then some .directory else t.entries[place]?

/-- The greatest length of a name in bytes. -/
def maxName : Nat := 255

/-- The greatest length of a path in bytes. -/
def maxPath : Nat := 4095

/-- Follow the pieces of a path from a place. -/
def walkFrom (t : FileTree) : (place pieces : List Text) → Except Fault (List Text)
  | place, [] => .ok place
  | place, piece :: rest =>
    match t.at? place with
    | none => .error .missing
    | some (.file _) => .error .notDirectory
    | some .directory =>
      if !Path.isStep piece then walkFrom t place rest
      else if piece = ['.', '.'] then walkFrom t place.dropLast rest
      else if maxName < Text.byteLength piece then .error .badName
      else walkFrom t (place ++ [piece]) rest

/-- A path that no file can have. -/
def isBadPath (path : Text) : Bool :=
  path.contains '\x00' || maxPath < path.byteLength

/-- The place to which a path leads from the root. -/
def walk (t : FileTree) (path : Text) : Except Fault (List Text) :=
  if isBadPath path then .error .badName
  else if path.isEmpty then .error .missing
  else t.walkFrom [] (Path.pieces path)

/-- The contents of the file at a path. -/
def read (t : FileTree) (path : Text) : Except Fault (List UInt8) := do
  match t.at? (← t.walk path) with
  | none => throw .missing
  | some .directory => throw .isDirectory
  | some (.file contents) => return contents

/-- The contents of the file at a path as text. -/
def readText (t : FileTree) (path : Text) : Except Fault Text := do
  match Text.decode? (← t.read path) with
  | none => throw .notText
  | some text => return text

/-- The file at a path gets new contents; it is made if there is none. -/
def write (t : FileTree) (path : Text) (contents : List UInt8) : Except Fault FileTree := do
  let place ← t.walk path
  match t.at? place with
  | some .directory => throw .isDirectory
  | _ => return { entries := t.entries.insert place (.file contents) }

/-- Make the directories along the pieces of a path from a place, as far as they do not exist.  On a
fault those made so far stay. -/
def makeDirsFrom : (place pieces : List Text) → FileTree → FileTree × Except Fault Unit
  | _, [], t => (t, .ok ())
  | place, piece :: rest, t =>
    if !Path.isStep piece then makeDirsFrom place rest t
    else if piece = ['.', '.'] then makeDirsFrom place.dropLast rest t
    else if maxName < Text.byteLength piece then (t, .error .badName)
    else
      let next := place ++ [piece]
      match t.at? next with
      | none => makeDirsFrom next rest { entries := t.entries.insert next .directory }
      | some .directory => makeDirsFrom next rest t
      | some (.file _) => (t, .error .notDirectory)

/-- Make the directory at a path and those on the way to it, as far as they do not exist. -/
def makeDirs (t : FileTree) (path : Text) : FileTree × Except Fault Unit :=
  if isBadPath path then (t, .error .badName) else makeDirsFrom [] (Path.pieces path) t

/-- Remove what lies at a path, and all below it. -/
def remove (t : FileTree) (path : Text) : Except Fault FileTree := do
  let place ← t.walk path
  return { entries := t.entries.filter fun p _ => !place.isPrefixOf p }

/-- The name under which a place is listed: the names with slashes between them, and one more at the
end of a directory. -/
def listed (place : List Text) : Entry → Text
  | .file _ => ['/'].intercalate place
  | .directory => ['/'].intercalate place ++ ['/']

/-- The files and directories in the order of the names under which they are listed. -/
def list (t : FileTree) : List (Text × Entry) :=
  ((t.entries.toList.map fun (place, e) => (listed place e, e)).foldl
    (fun m (name, e) => m.insert name e) (∅ : Std.ExtTreeMap Text Entry)).toList

/-! ### Writing what has changed -/

/-- What writing a file did. -/
inductive WriteStatus
  /-- The file was left alone. -/
  | unchanged
  /-- The file has new contents. -/
  | written
  deriving DecidableEq, Repr

/-- The error for a fault at a path. -/
def fail (path : Text) (fault : Fault) : Error :=
  .file path fault.message

/-- Write a file whose directory may have to be made first. -/
def writeBelow (t : FileTree) (path : Text) (contents : List UInt8) : FileTree × Except Error Unit :=
  let parent := Path.parent path
  match t.makeDirs parent with
  | (t, .error fault) => (t, .error (fail parent fault))
  | (t, .ok ()) =>
    match t.write path contents with
    | .error fault => (t, .error (fail path fault))
    | .ok t => (t, .ok ())

/-- Write a text to a file unless the file holds it already.  An empty text is never written. -/
def writeIfChanged (t : FileTree) (path text : Text) : FileTree × Except Error WriteStatus :=
  if text.isEmpty then (t, .ok .unchanged)
  else
    match t.read path with
    | .ok contents =>
      if contents = Text.encode text then (t, .ok .unchanged)
      else
        let (t, result) := t.writeBelow path (Text.encode text)
        (t, result.map fun _ => .written)
    | .error .missing =>
      let (t, result) := t.writeBelow path (Text.encode text)
      (t, result.map fun _ => .written)
    | .error fault => (t, .error (fail path fault))

end FileTree

end Freestanding
