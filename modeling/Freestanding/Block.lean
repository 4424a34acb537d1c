import Freestanding.Token

/-!
# Basic blocks

A function body is cut into blocks at its label lines, `name:` at the start of a line.  The text before
the first label is a block without a label.  A block owns its lines, so a later stage can change, drop or
blank them; joining the blocks gives the body back.

## Main definitions

* `Block` — label, position and lines.
* `Block.label?` — the label that a line defines.
* `Block.split`, `Block.join` — from a body to its blocks and back.
-/

namespace Freestanding

/-- A basic block of a function body. -/
structure Block where
  /-- The label, without quotes and colon; the first block has none. -/
  label : Option Text
  /-- The position of the block in the body. -/
  index : Nat
  /-- The lines of the block, the label line included. -/
  lines : List Text
  deriving DecidableEq, Repr

namespace Block

/-- The label defined by a line. -/
def label? (line : Text) : Option Text :=
  let name? : Option (Text × Text) :=
    match line with
    | '"' :: t => (Token.quotedName? t).filter fun (name, _) => name != []
    | t => Text.run? Token.isNameChar t
  name?.bind fun (name, rest) => if rest.head? = some ':' then some name else none

/-- Continue cutting into blocks: `block` is the block under way, its lines in reverse order. -/
def splitFrom (block : Block) : List Text → List Block
  | [] => [{ block with lines := block.lines.reverse }]
  | line :: rest =>
    match label? line with
    | some label =>
      { block with lines := block.lines.reverse } ::
        splitFrom { label := some label, index := block.index + 1, lines := [line] } rest
    | none => splitFrom { block with lines := line :: block.lines } rest

@[simp] theorem splitFrom_nil (block : Block) :
    splitFrom block [] = [{ block with lines := block.lines.reverse }] := rfl

@[simp] theorem splitFrom_cons_of_label (block : Block) {line label : Text} (h : label? line = some label)
    (rest : List Text) :
    splitFrom block (line :: rest) = { block with lines := block.lines.reverse } ::
      splitFrom { label := some label, index := block.index + 1, lines := [line] } rest := by
  rw [splitFrom, h]

@[simp] theorem splitFrom_cons_of_no_label (block : Block) {line : Text} (h : label? line = none)
    (rest : List Text) :
    splitFrom block (line :: rest) = splitFrom { block with lines := line :: block.lines } rest := by
  rw [splitFrom, h]

/-- The blocks of a body. -/
def split (body : Text) : List Block :=
  splitFrom { label := none, index := 0, lines := [] } body.lines

/-- The body made of the lines of all blocks. -/
def join (blocks : List Block) : Text :=
  Text.unlines (blocks.flatMap Block.lines)

/-- A block without lines. -/
def isBlank (b : Block) : Bool :=
  b.lines.isEmpty

/-- A block with all its lines removed, the label line included. -/
def blank (b : Block) : Block :=
  { b with lines := [] }

/-- The block has the label that an operand names, with or without sigil and quotes. -/
def hasLabel (b : Block) (operand : Text) : Bool :=
  let name := (operand.stripPrefix? "%").getD operand
  b.label == some (Text.dropWhileEnd (· == '"') (name.dropWhile (· == '"')))

end Block

end Freestanding
