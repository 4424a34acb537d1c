import Freestanding.Scope.Path

/-!
# Signatures and handles

A function of the host is known by its signature: name, scope and argument types.  Each signature gets
a handle on first sight, and handles count up from zero.  A table leads both ways: the signatures stand
in the order of their handles, and an index has the handle of each signature.

## Main definitions

* `Handle`, `Signature` — the two names of a function.
* `SignatureTable` — the signatures that have a handle, with an index.
* `SignatureTable.intern` — the handle of a signature, new or old.
-/

namespace Freestanding

/-- A function of the host, by number. -/
@[ext] structure Handle where
  /-- The number. -/
  id : UInt32
  deriving DecidableEq, Repr

namespace Handle

/-- The handle at a position; positions beyond 32 bits wrap around. -/
def ofPosition (n : Nat) : Handle :=
  ⟨n.toUInt32⟩

/-- The position of a handle. -/
def position (h : Handle) : Nat :=
  h.id.toNat

end Handle

/-- What makes two functions of the host the same. -/
structure Signature where
  /-- The name of the function. -/
  name : Text
  /-- Its scope. -/
  scope : ScopePath
  /-- The types of its arguments. -/
  arguments : List Text
  deriving DecidableEq, Repr

/-- The signatures that have handles. -/
structure SignatureTable where
  /-- The signatures, in the order of their handles. -/
  signatures : List Signature := []
  /-- The handles by signature, the newest first. -/
  index : List (Signature × Handle) := []
  deriving DecidableEq, Repr

namespace SignatureTable

/-- The number of signatures. -/
def size (t : SignatureTable) : Nat :=
  t.signatures.length

/-- The signature of a handle. -/
def get? (t : SignatureTable) (h : Handle) : Option Signature :=
  t.signatures[h.position]?

/-- The handle that a signature has. -/
def handle? (t : SignatureTable) (s : Signature) : Option Handle :=
  t.index.lookup s

/-- The table with one more signature, under the next handle. -/
def enter (t : SignatureTable) (s : Signature) : SignatureTable where
  signatures := t.signatures ++ [s]
  index := (s, .ofPosition t.size) :: t.index

/-- The handle of a signature, which is entered if it has none. -/
def intern (t : SignatureTable) (s : Signature) : SignatureTable × Handle :=
  match t.handle? s with
  | some h => (t, h)
  | none => (t.enter s, .ofPosition t.size)

end SignatureTable

end Freestanding
