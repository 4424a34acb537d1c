import Freestanding.Scope
import Freestanding.Scope.Path
import Freestanding.Value.Constant
import Std.Data.ExtTreeMap

/-!
# Bindings

A binding is a cell of the host that has become a static global: it has a symbol, a line that defines
it and a line that declares it elsewhere.  Scanning a scope turns every assignable cell of it and of
the scopes inside it into a binding, except names from elsewhere, names made up by the compiler, and
cells that hold a function, a type or a string.  What has been found so far goes from one scope to the
next.

## Main definitions

* `Binding` — a static global.
* `Binding.make` — the binding of a value.
* `BindingScan` — what has been found: bindings by address, and cells without a static form.
* `Scope.visit` — a scope and the scopes inside it, one after the other.
* `Scope.scan` — the bindings of a scope, by address, and the values that have no static form.
-/

namespace Freestanding

/-- A cell of the host in static form. -/
@[ext] structure Binding where
  /-- The address of the cell in the host. -/
  address : UInt64
  /-- The name in its scope. -/
  identifier : Text
  /-- The scope it belongs to. -/
  owner : ScopePath
  /-- The name in the output. -/
  mangled : Text
  /-- The line that defines it. -/
  definition : Text
  /-- The line that declares it. -/
  declaration : Text
  deriving DecidableEq, Repr

/-- Bindings by address. -/
abbrev Bindings := Std.ExtTreeMap UInt64 Binding

namespace Binding

/-- The symbol of a binding. -/
def symbol (b : Binding) : Text :=
  Name.symbol b.mangled

/-- The binding of a cell with known contents. -/
def make (address : UInt64) (identifier : Text) (owner : ScopePath) (v : Value) : Attempt Binding :=
  let mangled := owner.mangle identifier
  match v.constant? with
  | some c => ExceptT.mk ⟨.ok {
      address := address
      identifier := identifier
      owner := owner
      mangled := mangled
      definition := c.definition mangled
      declaration := c.declaration mangled }, v.encodeWarnings mangled⟩
  | none => throw (.unsupportedValue (owner.dotted ++ "." ++ identifier) v.typeName)

end Binding

/-- An entry whose cell is to become a binding. -/
def Entry.isCandidate (e : Entry) : Bool :=
  !e.imported && !e.isInternal && e.cell.kind == .ref && e.cell.value.isStorable

/-- What a scan of a scope has found. -/
structure BindingScan where
  /-- The bindings by address; of two cells at one address the later one counts. -/
  bindings : Bindings := ∅
  /-- The cells whose contents have no static form, in order. -/
  rejected : List Error := []

namespace BindingScan

/-- Add the cell of an entry: it becomes a binding, or it is rejected. -/
def add (scan : BindingScan) (owner : ScopePath) (e : Entry) : Logged BindingScan := do
  let made ← (Binding.make e.address e.name owner e.cell.value).run
  match made with
  | .ok b => return { scan with bindings := scan.bindings.insert e.address b }
  | .error err => return { scan with rejected := scan.rejected ++ [err] }

/-- Look at an entry of the scope with a path. -/
def enter (path : ScopePath) (scan : BindingScan) (e : Entry) : Logged BindingScan :=
  if e.isCandidate then scan.add path e else pure scan

end BindingScan

namespace Scope

mutual

/-- Visit the scope with a path: its entries in order, then the scopes inside it. -/
def visit (path : ScopePath) : Scope → BindingScan → Logged BindingScan
  | .mk _ entries children, scan => do
    let scan ← entries.foldlM (BindingScan.enter path) scan
    visitInside path children scan

/-- Visit the scopes inside the scope with a path, one after the other. -/
def visitInside (path : ScopePath) : List Scope → BindingScan → Logged BindingScan
  | [], scan => pure scan
  | s :: rest, scan => do
    let scan ← visit (path.child s.name) s scan
    visitInside path rest scan

end

/-- The bindings of a scope and of the scopes inside it. -/
def scan (root : Scope) : Logged BindingScan :=
  root.visit [root.name] {}

end Scope

end Freestanding
