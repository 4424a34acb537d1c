import Freestanding.Text.Basic

/-!
# File paths

Paths are text with slashes between the names.  Two ways of writing a path may lead to the same file:
doubled slashes and dots in the middle do not matter.

## Main definitions

* `Path.join` — a name below a directory.
* `Path.parts` — the names on the way, which tell paths apart.
* `Path.parent` — the path of the directory that holds a file.
-/

namespace Freestanding.Path

/-- A path that starts at the root. -/
def isAbsolute (path : Text) : Bool :=
  path.head? == some '/'

/-- The path of a name below a directory.  Below the empty path it is the name itself, and an absolute
name is its own path. -/
def join (dir name : Text) : Text :=
  if isAbsolute name then name
  else if dir.isEmpty || dir.getLast? == some '/' then dir ++ name
  else dir ++ '/' :: name

/-- The pieces of a path between slashes. -/
def pieces (path : Text) : List Text :=
  path.splitOn '/'

/-- A piece that is a step of a path: not empty, and not a dot. -/
def isStep (piece : Text) : Bool :=
  !piece.isEmpty && piece != ['.']

/-- The names on the way.  An absolute path starts with an empty name, and a dot counts only at the
start of a path. -/
def parts (path : Text) : List Text :=
  match pieces path with
  | [] => []
  | first :: rest =>
    let steps := rest.filter isStep
    if isAbsolute path then [] :: steps
    else if first.isEmpty then steps
    else first :: steps

/-- A path without slashes and dots at its end. -/
def trimEnd (path : Text) : Text :=
  match (pieces path).reverse.dropWhile (!isStep ·) with
  | [] => if isAbsolute path then ['/'] else if path.head? == some '.' then ['.'] else []
  | kept => ['/'].intercalate kept.reverse

/-- The path of the directory in which the last name of a path lies. -/
def parent (path : Text) : Text :=
  trimEnd ((trimEnd path).reverse.dropWhile (· != '/')).reverse

end Freestanding.Path
