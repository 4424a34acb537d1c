import Freestanding.Line
import Freestanding.Listing
import Freestanding.Name

/-!
# Allocations

Calls that allocate memory: those into the host's collector, which the output cannot make, and those
to `malloc` and `calloc`, which it can.  A pool allocation whose object is tagged by the code itself
can be handed to `malloc`: the tag goes into the word before the object, so only the size of the object
matters.

## Main definitions

* `Allocation.isCall` — a line that calls an allocator.
* `Allocation.PoolCall`, `Allocation.poolCall?` — a pool allocation and how it is read off a line.
* `Allocation.substitute` — a body with its tagged pool allocations replaced.
* `Listing.declareMalloc`, `Listing.declareCalloc` — the declarations that the new calls need.
-/

namespace Freestanding

namespace Allocation

/-- How calls of allocators show in a line. -/
def callees : List Text :=
  ["@ijl_gc_pool_alloc", "@ijl_gc_small_alloc", "@ijl_gc_alloc", "@jl_gc_alloc",
    "@julia.gc_alloc_obj", "@ijl_alloc_genericmemory", "@jl_alloc_genericmemory", "@malloc(",
    "@calloc("]

/-- A line that calls an allocator. -/
def isCall (line : Text) : Bool :=
  Text.occurs " call " line && callees.any (Text.occurs · line)

/-- The end of the names of tag addresses. -/
def tagSuffix : Text := ".tag_addr"

/-- The value whose tag address a line computes. -/
def taggedBy? (line : Text) : Option Text := do
  let value ← Line.assigned? line
  let name ← Text.stripSuffix? (Name.bare value) tagSuffix
  return Name.value name

/-- The values of a body whose tag address is computed. -/
def tagged (body : Text) : List Text :=
  body.printedLines.filterMap taggedBy?

/-- A call that takes an object from a pool. -/
structure PoolCall where
  /-- The white space before the instruction. -/
  indent : Text
  /-- The value that holds the object. -/
  result : Text
  /-- The operands, as they are written. -/
  operands : Text
  deriving DecidableEq, Repr

/-- The operands of a call of a pool allocator that starts the text. -/
def poolOperandsAt? (t : Text) : Option Text := do
  let t ← Text.stripPrefix? t "@"
  let t ← match Text.stripPrefix? t "ijl_gc_pool_alloc" with
    | some t => some ((Text.stripPrefix? t "_instrumented").getD t)
    | none => Text.stripPrefix? t "ijl_gc_small_alloc"
  let t ← Text.stripPrefix? t "("
  if ')' ∈ t then some (t.takeWhile (· != ')')) else none

/-- Read a line as a pool allocation; of several calls on the line the last one counts. -/
def poolCall? (line : Text) : Option PoolCall := do
  let indent := line.takeWhile Text.isBlank
  match line.dropWhile Text.isBlank with
  | '%' :: t =>
    let (name, t) ← Text.run? (!Text.isBlank ·) t
    let t ← Text.stripPrefix? t " = call "
    let operands ← Text.last? poolOperandsAt? t
    some { indent, result := '%' :: name, operands }
  | _ => none

/-- The size of the object: the last word of the third operand. -/
def PoolCall.size? (c : PoolCall) : Option Text := do
  let operand ← (c.operands.splitOn ',')[2]?
  (Text.words operand).getLast?

/-- The line that takes the object from `malloc` instead, if the values in `tagged` include it. -/
def replacement? (tagged : List Text) (line : Text) : Option Text := do
  let call ← poolCall? line
  if tagged.contains call.result then
    let size ← call.size?
    return call.indent ++ call.result ++ " = call ptr @malloc(i64 " ++ size ++ ")"
  else none

/-- Replace the pool allocations of tagged objects; the second component counts them. -/
def substitute (body : Text) : Text × Nat :=
  let values := tagged body
  let new := body.lines.map fun line => (replacement? values line).getD line
  (Text.unlines new, body.lines.countP fun line => (replacement? values line).isSome)

end Allocation

namespace Listing

/-- Declare `malloc`, unless it is declared already. -/
def declareMalloc (l : Listing) : Listing :=
  l.declare "@malloc" "declare noalias ptr @malloc(i64)"

/-- Declare `calloc`, unless it is declared already. -/
def declareCalloc (l : Listing) : Listing :=
  l.declare "@calloc" "declare noalias ptr @calloc(i64, i64)"

end Listing

end Freestanding
