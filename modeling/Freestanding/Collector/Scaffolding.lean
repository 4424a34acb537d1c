import Freestanding.Collector.Allocation

/-!
# Scaffolding of the collector

Compiled code keeps the host's collector informed: it builds a frame, links it into a stack and
computes addresses for tags.  None of this has a use without the collector.  Scaffolding is what
mentions one of the collector's own values or functions, and all that is computed from scaffolding.
Calls of the allocators in `Allocation.callees` are never scaffolding, so that these cannot disappear
unnoticed.

## Main definitions

* `Scaffolding.isCollectorValue`, `Scaffolding.frameFunctions` — where scaffolding starts.
* `Scaffolding.isScaffolding` — a line to be removed, given the values that are gone.
* `Scaffolding.sweep` — one pass over the lines.
* `Scaffolding.strip` — a body without scaffolding.
-/

namespace Freestanding.Scaffolding

/-- How the names of the collector's values start. -/
def valuePrefixes : List Text :=
  ["pgcstack", "ptls", "gcframe", "task.gcstack", "frame.prev"]

/-- A local value that only serves the collector. -/
def isCollectorValue (token : Text) : Bool :=
  let name := Name.bare token
  valuePrefixes.any (name.startsWith ·) || Text.occurs "pgcstack" name ||
    (Text.stripSuffix? name Allocation.tagSuffix).isSome

/-- The functions that only serve the collector's frame. -/
def frameFunctions : List Text :=
  ["@julia.get_pgcstack", "@julia.new_gc_frame", "@julia.push_gc_frame", "@julia.pop_gc_frame",
    "@julia.get_gc_frame_slot"]

/-- A line is scaffolding if it calls no allocator and its code mentions a collector value, a value
that is gone, or a function of the collector's frame. -/
def isScaffolding (gone : List Text) (line : Text) : Bool :=
  !Allocation.isCall line &&
    ((Token.locals (Line.code line)).any (fun t => isCollectorValue t || gone.contains t) ||
      (Token.globals (Line.code line)).any (frameFunctions.contains ·))

/-- One pass from the first line to the last: the lines that stay, and the values that are gone. -/
def sweep (gone : List Text) : List Text → List Text × List Text
  | [] => ([], gone)
  | line :: rest =>
    if isScaffolding gone line then sweep ((Line.assigned? line).toList ++ gone) rest
    else
      let (kept, gone) := sweep gone rest
      (line :: kept, gone)

@[simp] theorem sweep_nil (gone : List Text) : sweep gone [] = ([], gone) := rfl

@[simp] theorem sweep_cons_of_scaffolding {gone : List Text} {line : Text} (h : isScaffolding gone line)
    (rest : List Text) :
    sweep gone (line :: rest) = sweep ((Line.assigned? line).toList ++ gone) rest := by
  rw [sweep, if_pos h]

@[simp] theorem sweep_cons_of_not_scaffolding {gone : List Text} {line : Text} (h : ¬ isScaffolding gone line)
    (rest : List Text) :
    sweep gone (line :: rest) = (line :: (sweep gone rest).1, (sweep gone rest).2) := by
  rw [sweep, if_neg h]

/-- Sweep until no line goes any more. -/
def settle (gone lines : List Text) : List Text :=
  let (kept, next) := sweep gone lines
  if kept.length < lines.length then settle next kept else lines
termination_by lines.length

/-- A body without scaffolding, and the number of lines that are gone. -/
def strip (body : Text) : Text × Nat :=
  let kept := settle [] body.lines
  (Text.unlines kept, body.lines.length - kept.length)

end Freestanding.Scaffolding
