import Freestanding.Text.Digit
import Freestanding.Text.Word
import Freestanding.Token

/-!
# Container idioms

How compiled code works with containers, line by line.  The empty instance of a container type is
loaded from the descriptor of the type and checked against null, and a branch follows the check.  A new
container comes from a call that takes the descriptor and the length.  Marker calls leave a trace for
the host's optimiser and do nothing.

## Main definitions

* `Idiom.emptyLoad?` — a load of the empty instance, and the container type.
* `Idiom.NullCheck`, `Idiom.nullCheck?` — a comparison with null.
* `Idiom.Branch`, `Idiom.branch?` — a conditional branch.
* `Idiom.allocation?` — a call that allocates a container, and its operands.
* `Idiom.isMarker` — a marker call.
-/

namespace Freestanding.Idiom

/-- The type whose empty instance is loaded by the instruction at the start of the text. -/
def emptyLoadAt? (t : Text) : Option Text := do
  let t ← Text.stripPrefix? t "load atomic ptr, ptr getelementptr inbounds (i8, ptr "
  let (symbol, t) ← Token.named? '@' t
  let t ← Text.stripPrefix? t ", i64 "
  let (_, t) ← Text.run? Text.isDecimal ((Text.stripPrefix? t "-").getD t)
  let _ ← Text.stripPrefix? t ") unordered"
  return symbol

/-- The type whose empty instance a line loads. -/
def emptyLoad? (line : Text) : Option Text :=
  line.first? emptyLoadAt?

/-- A comparison of a value with null. -/
structure NullCheck where
  /-- The value that holds the outcome. -/
  flag : Text
  /-- The outcome is whether the value is null, not whether it is something else. -/
  isEqual : Bool
  /-- The value that is compared. -/
  value : Text
  deriving DecidableEq, Repr

/-- Read a line as a comparison with null. -/
def nullCheck? (line : Text) : Option NullCheck := do
  let (flag, t) ← Token.named? '%' line.trimStart
  let t ← Text.stripPrefix? t " = icmp "
  let (isEqual, t) ← match Text.stripPrefix? t "eq" with
    | some t => some (true, t)
    | none => (Text.stripPrefix? t "ne").map (false, ·)
  let t ← Text.stripPrefix? t " ptr "
  let (value, t) ← Token.named? '%' t
  let t ← Text.stripPrefix? t ", null"
  if t.atWordEnd then some { flag, isEqual, value } else none

/-- A conditional branch. -/
structure Branch where
  /-- The white space before the instruction. -/
  indent : Text
  /-- The value that decides. -/
  flag : Text
  /-- Where it goes if the value is true. -/
  yes : Text
  /-- Where it goes if the value is false. -/
  no : Text
  deriving DecidableEq, Repr

/-- Read a line as a conditional branch. -/
def branch? (line : Text) : Option Branch := do
  let t ← Text.stripPrefix? line.trimStart "br i1 "
  let (flag, t) ← Token.named? '%' t
  let t ← Text.stripPrefix? t ", label "
  let (yes, t) ← Token.named? '%' t
  let t ← Text.stripPrefix? t ", label "
  let (no, _) ← Token.named? '%' t
  return { indent := line.takeWhile Text.isBlank, flag, yes, no }

/-- The operands of the container allocation at the start of the text.  The callee is the first symbol
of the instruction, and what stands before its return type ends in white space. -/
def allocationAt? (t : Text) : Option Text := do
  let t ← Text.stripPrefix? t "call "
  let before ← Text.stripSuffix? (t.takeWhile (· != '@')) "ptr "
  if before.getLast?.all Text.isBlank then
    let t ← Text.stripPrefix? (t.dropWhile (· != '@')) "@"
    let t ← Text.stripPrefix? ((Text.stripPrefix? t "i").getD t) "jl_alloc_genericmemory("
    if ')' ∈ t then some (t.takeWhile (· != ')')) else none
  else none

/-- The operands of the container allocation on a line. -/
def allocation? (line : Text) : Option Text :=
  line.first? allocationAt?

/-- A marker call. -/
def isMarker (line : Text) : Bool :=
  Text.occurs "call void " line && Text.occurs "@julia.memoryref" line

end Freestanding.Idiom
