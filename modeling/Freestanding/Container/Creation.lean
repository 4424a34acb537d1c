import Freestanding.Container.Idiom
import Freestanding.Error
import Freestanding.Heap.Object
import Freestanding.Line
import Freestanding.Name
import Freestanding.Text.Number

/-!
# Creation of containers

A container is a header of two words, its length and the address of its elements.  A call that creates
one becomes two allocations, of the header and of the elements, and two stores.  Elements that are
references start as null, so their memory is cleared.

## Main definitions

* `Creation` — a container that is created, as read off a call.
* `Creation.read` — reading it, where a line that has the look of a call must be one.
* `Creation.lines` — the instructions that take the place of the call.
-/

namespace Freestanding

/-- The creation of a container. -/
structure Creation where
  /-- The white space before the instruction. -/
  indent : Text
  /-- The value that holds the container. -/
  result : Text
  /-- The operand that gives the number of elements. -/
  count : Text
  /-- How the elements are stored. -/
  layout : Layout
  deriving DecidableEq, Repr

namespace Creation

/-- What is wrong with a call. -/
def malformed (function detail : Text) : Error :=
  .malformed function "container allocation" detail

/-- The symbol of the container type in an operand. -/
def typeSymbol? (operand : Text) : Option Text :=
  operand.words.getLast?.filter (·.head? == some '@')

/-- Read a call with the given operands on a line. -/
def read (layouts : Std.ExtTreeMap Text Layout) (function line operands : Text) :
    Except Error Creation :=
  match Line.assigned? line with
  | none => .error (malformed function "allocation result is not assigned")
  | some result =>
    match (operands.splitOn ',').map Text.trim with
    | [type, length] =>
      match typeSymbol? type with
      | none => .error (malformed function ("container type operand `" ++ type ++ "`"))
      | some symbol =>
        match Text.stripPrefix? length "i64 " with
        | none => .error (malformed function ("length operand `" ++ length ++ "`"))
        | some count =>
          match layouts[symbol]? with
          | none => .error (malformed function ("no layout for " ++ symbol))
          | some layout =>
            .ok { indent := line.takeWhile Text.isBlank, result, count := count.trim, layout }
    | arguments =>
      .error (malformed function ("expected 2 arguments, got " ++ Text.decimal arguments.length))

/-- The size of a slot for one element. -/
def slotSize (c : Creation) : Nat :=
  if c.layout.boxed then 8 else c.layout.elementSize.toNat

/-- The instructions that create the container. -/
def lines (c : Creation) : List Text :=
  let bytes := Name.derived c.result "bytes"
  let data := Name.derived c.result "data"
  let slot := Name.derived c.result "data_slot"
  let elements : Text :=
    if c.layout.boxed then data ++ " = call ptr @calloc(i64 " ++ c.count ++ ", i64 8)"
    else data ++ " = call ptr @malloc(i64 " ++ bytes ++ ")"
  let instructions : List Text :=
    [bytes ++ " = mul i64 " ++ c.count ++ ", " ++ Text.decimal c.slotSize,
      c.result ++ " = call ptr @malloc(i64 16)",
      elements,
      "store i64 " ++ c.count ++ ", ptr " ++ c.result ++ ", align 8",
      slot ++ " = getelementptr inbounds i8, ptr " ++ c.result ++ ", i64 8",
      "store ptr " ++ data ++ ", ptr " ++ slot ++ ", align 8"]
  instructions.map (c.indent ++ ·)

end Creation

end Freestanding
