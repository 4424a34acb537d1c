import Freestanding.Host.Recording
import Std.Data.ExtTreeMap

/-!
# Call graphs

The functions that a program needs are those reached from its entry along calls.  They are found
breadth first, compiled where that has not happened, and named.  The host's functions that only raise
errors are left out, with everything that only they call, unless one of them is the entry.

The functions stand in the order of their discovery, and an index has the place of each handle.

Two functions may have the same name in the output.  Then the later one gets a number as a suffix: the
least one, from the number of earlier functions with that name on, that gives a free name.  The walk keeps
count of the names that functions would have had, and a list of those that they have got.

## Main definitions

* `CallGraph` — the functions found, in order of discovery, with an index.
* `CallGraph.freshName` — the name of a function beside those that are taken.
* `CallGraph.Names` — the names given out so far.
* `CallGraph.claim` — the handles seen for the first time among some callees.
* `CallGraph.collect` — the walk from an entry.
-/

namespace Freestanding

/-- A function that is reached from the entry. -/
structure CallGraph.Node where
  /-- The handle. -/
  handle : Handle
  /-- The signature. -/
  signature : Signature
  /-- The name in the output. -/
  mangled : Text
  /-- The number of earlier functions that would have had the same name. -/
  overload : Nat
  deriving DecidableEq, Repr

/-- The functions reached from an entry, in order of discovery. -/
structure CallGraph where
  /-- The functions; the entry comes first. -/
  nodes : List CallGraph.Node := []
  /-- The places of the functions in that list, by the numbers of their handles. -/
  index : Std.ExtTreeMap UInt32 Nat := ∅

namespace CallGraph

/-- The functions of the host that only raise errors. -/
def skipped : List Text :=
  ["throw_boundserror", "throw_inexacterror", "throw_overflowerr_binaryop", "throw_domerror"]

/-- The entry. -/
def entry? (g : CallGraph) : Option Node :=
  g.nodes.head?

/-- The function with a handle: the one at the place that the index has for it. -/
def get? (g : CallGraph) (h : Handle) : Option Node :=
  g.index[h.id]?.bind (g.nodes[·]?)

/-- The function with a handle was reached. -/
def contains (g : CallGraph) (h : Handle) : Bool :=
  g.index.contains h.id

/-- The output name of the function with a handle. -/
def nameOf? (g : CallGraph) (h : Handle) : Option Text :=
  (g.get? h).map Node.mangled

/-- One more function at the end. -/
def push (g : CallGraph) (n : Node) : CallGraph where
  nodes := g.nodes ++ [n]
  index := g.index.insert n.handle.id g.nodes.length

@[simp] theorem nodes_push (g : CallGraph) (n : Node) : (g.push n).nodes = g.nodes ++ [n] := rfl

/-! ### Names -/

/-- A name with a number as a suffix. -/
def suffixed (base : Text) (k : Nat) : Text :=
  base ++ '_' :: Text.decimal k

/-- The first number from `k` on whose suffix gives a free name, if `tries` steps find one. -/
def freeSuffix (base : Text) (taken : List Text) : (tries k : Nat) → Nat
  | 0, k => k
  | tries + 1, k => if suffixed base k ∈ taken then freeSuffix base taken tries (k + 1) else k

/-- A name beside those that are taken, for a function with `overload` namesakes before it.  As many
steps as there are names taken find a free suffix. -/
def freshName (base : Text) (overload : Nat) (taken : List Text) : Text :=
  if overload = 0 ∧ base ∉ taken then base
  else suffixed base (freeSuffix base taken taken.length (max overload 1))

/-- The output name that a function would have alone. -/
def baseName (s : Signature) : Text :=
  s.scope.mangle s.name

/-- The names that have been given out. -/
structure Names where
  /-- How many functions would have had a name alone. -/
  uses : Std.ExtTreeMap Text Nat := ∅
  /-- The names that are taken, the last one at the end. -/
  taken : List Text := []

/-- The next function, under a name beside those that are taken. -/
def nextNode (names : Names) (handle : Handle) (s : Signature) : Node :=
  let overload := names.uses.getD (baseName s) 0
  { handle := handle
    signature := s
    mangled := freshName (baseName s) overload names.taken
    overload := overload }

/-- The names after a function has got its own. -/
def Names.note (names : Names) (n : Node) : Names where
  uses := names.uses.insert (baseName n.signature) (n.overload + 1)
  taken := names.taken ++ [n.mangled]

@[simp] theorem handle_nextNode (names : Names) (h : Handle) (s : Signature) :
    (nextNode names h s).handle = h := rfl

@[simp] theorem signature_nextNode (names : Names) (h : Handle) (s : Signature) :
    (nextNode names h s).signature = s := rfl

/-! ### The walk -/

/-- The handles among `callees` that are still unseen, each once and in order, and those that then
remain unseen. -/
def claim (unseen : List Handle) : (callees : List Handle) → List Handle × List Handle
  | [] => ([], unseen)
  | c :: rest =>
    if c ∈ unseen then
      let (fresh, left) := claim (unseen.erase c) rest
      (c :: fresh, left)
    else claim unseen rest

@[simp] theorem claim_nil (unseen : List Handle) : claim unseen [] = ([], unseen) := rfl

@[simp] theorem claim_cons_of_mem {unseen : List Handle} {c : Handle} (h : c ∈ unseen) (rest : List Handle) :
    claim unseen (c :: rest) =
      (c :: (claim (unseen.erase c) rest).1, (claim (unseen.erase c) rest).2) := by
  rw [claim, if_pos h]

@[simp] theorem claim_cons_of_notMem {unseen : List Handle} {c : Handle} (h : c ∉ unseen)
    (rest : List Handle) : claim unseen (c :: rest) = claim unseen rest := by
  rw [claim, if_neg h]

/-- Claiming moves handles and drops none. -/
theorem length_claim (unseen callees : List Handle) :
    (claim unseen callees).1.length + (claim unseen callees).2.length = unseen.length := by
  induction callees generalizing unseen with
  | nil => simp
  | cons c rest ih =>
    by_cases h : c ∈ unseen
    · rw [claim_cons_of_mem h]
      have hlen := List.length_erase_of_mem h
      have hpos := List.length_pos_of_mem h
      have := ih (unseen.erase c)
      simp only [List.length_cons]
      omega
    · rw [claim_cons_of_notMem h]
      exact ih unseen

/-- Visit the functions of a queue and those reached from them.  The walk also returns the host, in
which every function visited so far is compiled. -/
def walk (entry : Handle) (host : Host) (unseen queue : List Handle) (names : Names) (g : CallGraph) :
    Host × Except Error CallGraph :=
  match queue with
  | [] => (host, .ok g)
  | h :: queue =>
    match host.describe h with
    | .error e => (host, .error e)
    | .ok s =>
      if h ≠ entry ∧ s.name ∈ skipped then walk entry host unseen queue names g
      else
        match host.ensureCompiled h with
        | .error e => (host, .error e)
        | .ok host =>
          match host.callees h with
          | .error e => (host, .error e)
          | .ok callees =>
            walk entry host (claim unseen callees).2 (queue ++ (claim unseen callees).1)
              (names.note (nextNode names h s)) (g.push (nextNode names h s))
termination_by unseen.length + queue.length
decreasing_by
  · simp
  · have := length_claim unseen callees
    simp only [List.length_append, List.length_cons]
    omega

/-- All handles of a host. -/
def handles (host : Host) : List Handle :=
  (List.range host.functions.length).map Handle.ofPosition

/-- The functions reached from an entry, and the host with all of them compiled. -/
def collect (host : Host) (entry : Handle) : Host × Except Error CallGraph :=
  walk entry host ((handles host).erase entry) [entry] {} {}

end CallGraph

end Freestanding
