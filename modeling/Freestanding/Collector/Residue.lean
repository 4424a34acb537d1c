import Freestanding.Line
import Freestanding.Listing

/-!
# Residue

Code is self-contained if nothing in it needs the host: no call into the host's allocator, no frame of
the collector, no address of the host's memory, and no symbol that stands for an object there.  The
first thing found that does is the residue of the code.

## Main definitions

* `Residue` — what can be left over, with the line where it shows.
* `Residue.ofLine?`, `Residue.ofText?` — the residue of a line and of a text.
* `Listing.residue?` — the residue of a listing.
-/

namespace Freestanding

/-- Something in the code that needs the host. -/
inductive Residue
  /-- A call into the host's allocator. -/
  | runtimeCall (marker code : Text)
  /-- A frame of the collector. -/
  | frame (marker : Text)
  /-- An address of the host's memory. -/
  | rawAddress (code : Text)
  /-- A symbol that stands for an object of the host. -/
  | object (symbol : Text)
  deriving DecidableEq, Repr

namespace Residue

/-- How residue is described. -/
def message : Residue → Text
  | .runtimeCall marker code => "calls runtime allocator `" ++ marker ++ "`: " ++ code
  | .frame marker => "sets up a GC frame via `" ++ marker ++ "`"
  | .rawAddress code => "embeds a raw runtime address: " ++ code
  | .object symbol => "references runtime object " ++ symbol

/-- How calls into the host's allocator show. -/
def callMarkers : List Text :=
  ["@ijl_gc_", "@jl_gc_", "@julia.gc_alloc", "@ijl_alloc_", "@jl_alloc_"]

/-- How frames of the collector show. -/
def frameMarkers : List Text :=
  ["@julia.get_pgcstack", "@julia.new_gc_frame", "%gcframe"]

/-- The residue of a piece of code without comments. -/
def ofCode? (code : Text) : Option Residue :=
  match callMarkers.find? (Text.occurs · code) with
  | some marker => some (.runtimeCall marker code.trim)
  | none =>
    match frameMarkers.find? (Text.occurs · code) with
    | some marker => some (.frame marker)
    | none => if (Line.castLiteral? code).isSome then some (.rawAddress code.trim) else none

/-- The residue of a line. -/
def ofLine? (line : Text) : Option Residue :=
  ofCode? (Line.code line)

/-- The first residue of a text. -/
def ofText? (t : Text) : Option Residue :=
  t.printedLines.findSome? ofLine?

/-- A text that does not need the host. -/
def isSelfContained (t : Text) : Bool :=
  (ofText? t).isNone

end Residue

/-- The first residue of a listing: in the definitions, then in the constants, then a symbol in the
bodies that stands for an object of the host. -/
def Listing.residue? (l : Listing) : Option Residue :=
  (l.functionTexts.findSome? Residue.ofText?).or <|
  (l.constants.values.findSome? Residue.ofText?).or <|
  ((l.bodies.flatMap Token.globals).find? (l.addresses.others.values.contains ·)).map .object

end Freestanding
