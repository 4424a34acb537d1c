import Freestanding.Name

/-!
# Paths of scopes

A scope is known by the names on the way to it.  A path is shown with dots between the names; in the
output it becomes part of a symbol, sanitised and with underscores.

## Main definitions

* `ScopePath` — the names from the root on.
* `ScopePath.parse`, `ScopePath.dotted` — paths as text.
* `ScopePath.stem` — the name of a scope in the output.
* `ScopePath.mangle` — the name of a member of a scope in the output.
-/

namespace Freestanding

/-- The names on the way from the root to a scope. -/
abbrev ScopePath := List Text

namespace ScopePath

/-- The path written with dots; empty names are dropped. -/
def parse (t : Text) : ScopePath :=
  (t.splitOn '.').filter (!·.isEmpty)

/-- The path with dots between the names. -/
def dotted (p : ScopePath) : Text :=
  ['.'].intercalate p

/-- The path of a scope inside this one. -/
def child (p : ScopePath) (name : Text) : ScopePath :=
  p ++ [name]

/-- The name of the scope in the output. -/
def stem (p : ScopePath) : Text :=
  ['_'].intercalate (p.map Name.sanitize)

/-- The name that a member of the scope has in the output. -/
def mangle (p : ScopePath) (name : Text) : Text :=
  if p.stem.isEmpty then Name.sanitize name else p.stem ++ '_' :: Name.sanitize name

end ScopePath

end Freestanding
