import Freestanding.Value

/-!
# Scopes

The host's program is a tree of scopes.  A scope has named cells and further scopes inside it.

## Main definitions

* `Cell` — a storage cell and its contents.
* `Entry` — a named cell of a scope.
* `Scope` — a scope with everything inside it.
-/

namespace Freestanding

/-- What kind of storage a name stands for. -/
inductive CellKind
  /-- A cell of its own that can be assigned. -/
  | ref
  /-- A constant. -/
  | constant
  /-- A variable of any type. -/
  | variable
  deriving DecidableEq, Repr

/-- A storage cell and its contents. -/
structure Cell where
  /-- The kind of storage. -/
  kind : CellKind
  /-- The contents. -/
  value : Value
  deriving DecidableEq, Repr

/-- A name of a scope. -/
structure Entry where
  /-- The name. -/
  name : Text
  /-- The address of the cell. -/
  address : UInt64
  /-- The cell. -/
  cell : Cell
  /-- The name comes from another scope. -/
  imported : Bool := false
  deriving DecidableEq, Repr

/-- A name that the host's compiler made up. -/
def Entry.isInternal (e : Entry) : Bool :=
  e.name.head? == some '#'

/-- A scope with its names and the scopes inside it. -/
inductive Scope
  /-- A scope with a name, its entries and its inner scopes. -/
  | mk (name : Text) (entries : List Entry) (children : List Scope)
  deriving Repr

namespace Scope

/-- The name of a scope. -/
def name : Scope → Text
  | mk name _ _ => name

/-- The entries of a scope. -/
def entries : Scope → List Entry
  | mk _ entries _ => entries

/-- The scopes inside a scope. -/
def children : Scope → List Scope
  | mk _ _ children => children

end Scope

end Freestanding
