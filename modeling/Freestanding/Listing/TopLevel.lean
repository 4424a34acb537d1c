import Freestanding.Line
import Freestanding.Listing.Definition
import Freestanding.Name

/-!
# Top-level lines of a dump

What a line outside all definitions contributes to a listing.  Comments and the name of the source
file are dropped, and so are declarations of the host's own services, which the output cannot call.

## Main definitions

* `TopLevel` — the kinds of line.
* `TopLevel.ofLine?` — the kind of a line.
* `TopLevel.isService` — a name that belongs to the host.
* `TopLevel.poolCounter?` — the number of an entry of the constant pool.
-/

namespace Freestanding

/-- A line outside all definitions that a listing keeps. -/
inductive TopLevel
  /-- Describes the target machine. -/
  | target (line : Text)
  /-- Declares a function. -/
  | declaration (symbol line : Text)
  /-- Defines an attribute group. -/
  | attributes (line : Text)
  /-- Defines metadata. -/
  | metadata (line : Text)
  /-- Makes a symbol stand for a run-time address. -/
  | address (symbol : Text) (address : UInt64)
  /-- Defines a constant. -/
  | constant (symbol line : Text)
  deriving DecidableEq, Repr

namespace TopLevel

/-- How the names of the host's services start. -/
def services : List Text :=
  ["ijl_gc_", "jl_gc_", "julia.gc_alloc_obj", "julia.get_pgcstack", "julia.new_gc_frame",
    "julia.push_gc_frame", "julia.pop_gc_frame", "julia.get_gc_frame_slot", "julia.gc_loaded",
    "ijl_box_", "jl_box_", "ijl_alloc_genericmemory", "jl_alloc_genericmemory", "julia.memoryref"]

/-- The name of a service of the host. -/
def isService (name : Text) : Bool :=
  services.any (name.startsWith ·)

/-- The symbol and the right-hand side of a line `@symbol = ...`. -/
def assignment? (line : Text) : Option (Text × Text) := do
  let (symbol, rest) ← Token.named? '@' line
  let value ← Text.stripPrefix? (Text.trimStart rest) "="
  match Text.trimStart value with
  | [] => none
  | value => some (symbol, value)

/-- The number of an entry of the constant pool, `_j_const<n>`, `_j_const#<n>` or `_j_const_<n>`. -/
def poolCounter? (name : Text) : Option Text := do
  let rest ← Text.stripPrefix? name "_j_const"
  let digits := match rest with
    | '#' :: digits | '_' :: digits => digits
    | digits => digits
  if digits ≠ [] ∧ digits.all Text.isDecimal then some digits else none

/-- The kind of a line whose ends have been trimmed; none if the listing does not keep it. -/
def ofTrimmed? (line : Text) : Option TopLevel :=
  if line.isEmpty || line.startsWith ";" || line.startsWith "source_filename" then none
  else if line.startsWith "target " then some (.target line)
  else if line.startsWith "declare " then do
    let symbol ← Definition.nameIn? line
    if isService (Name.bare symbol) then none else some (.declaration symbol line)
  else if line.startsWith "attributes " then some (.attributes line)
  else if line.startsWith "!" then some (.metadata line)
  else do
    let (symbol, value) ← assignment? line
    match Line.address? value with
    | some a => some (.address symbol a)
    | none => some (.constant symbol line)

/-- The kind of a line; none if the listing does not keep it. -/
def ofLine? (line : Text) : Option TopLevel :=
  ofTrimmed? line.trim

/-- What the line says about the target machine. -/
def target? : TopLevel → Option Text
  | .target line => some line
  | _ => none

/-- The attribute group that the line defines. -/
def attributes? : TopLevel → Option Text
  | .attributes line => some line
  | _ => none

/-- The metadata that the line defines. -/
def metadata? : TopLevel → Option Text
  | .metadata line => some line
  | _ => none

/-- The symbol that the line declares, and the line. -/
def declaration? : TopLevel → Option (Text × Text)
  | .declaration symbol line => some (symbol, line)
  | _ => none

/-- The symbol and the address for which the line makes it stand. -/
def address? : TopLevel → Option (Text × UInt64)
  | .address symbol a => some (symbol, a)
  | _ => none

/-- The symbol of the constant that the line defines, and the line. -/
def constant? : TopLevel → Option (Text × Text)
  | .constant symbol line => some (symbol, line)
  | _ => none

end TopLevel

end Freestanding
