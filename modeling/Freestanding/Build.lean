import Freestanding.Collector.Elimination
import Freestanding.Container.Lowering
import Freestanding.Output
import Freestanding.Program.Link

/-!
# Builds

A run from a host to output files.  The global variables of the program are found by a scan of its
scopes, its functions by a walk from the entry.  Every function is dumped, its listing taken from the
dump and freed of the collector and of the host's containers, and judged.  Then the functions are
linked, and the result is written.

A fatal error ends the run before anything is written.  What is found wrong but can be lived with is
reported.

## Main definitions

* `Prepared` — a function's code with what its preparation did and found.
* `Build.prepare` — from a function to its code.
* `Report` — the outcome of a run.
* `Build.program` — everything up to the linked program.
* `Build.run` — the same, and the files.
-/

namespace Freestanding

/-- A function's code, with what its preparation did and found. -/
structure Prepared where
  /-- The function with its code. -/
  routine : CompiledRoutine
  /-- What was done about the collector. -/
  collector : Collector.Tally
  /-- What was done about containers. -/
  containers : Container.Tally
  /-- The reason why the code still needs the host. -/
  finding : Option Error

/-- The outcome of a run. -/
structure Report where
  /-- The number of functions. -/
  functions : Nat := 0
  /-- The number of units. -/
  units : Nat := 0
  /-- The number of global variables. -/
  bindings : Nat := 0
  /-- What was done about the collector. -/
  collector : Collector.Tally := {}
  /-- What was done about containers. -/
  containers : Container.Tally := {}
  /-- The files. -/
  output : Output.Summary := {}
  /-- What was found wrong. -/
  diagnostics : List Error := []
  deriving DecidableEq, Repr

/-- The exit code of a run: success means that nothing was found wrong. -/
def Report.exitCode (r : Report) : Nat :=
  if r.diagnostics.isEmpty then 0 else 1

namespace Build

/-- Prepare the code of a function. -/
def prepare (policy : Policy) (heap : HeapImage) (host : Host) (r : Routine) : Attempt Prepared := do
  let dump ← Attempt.ofExcept (host.dump r.handle)
  let listing ← Attempt.ofExcept (Listing.ofDump r.target dump)
  let (listing, collector) := Collector.eliminate policy listing
  let (listing, result) ← ExceptT.lift (Container.lower heap r.name r.outputName listing)
  let containers ← Attempt.ofExcept result
  let finding ← Collector.verdict policy r.name listing
  return { routine := { toRoutine := r, listing }, collector, containers, finding }

/-- The global variables that the scopes of a program yield.  Cells without a static form are an error
unless the settings say to skip them. -/
def knownBindings (settings : Settings) (root : Scope) : Attempt Bindings := do
  let scan ← ExceptT.lift root.scan
  match scan.rejected with
  | [] => return scan.bindings
  | first :: rest =>
    if !settings.skipUnsupported then throw first
    (first :: rest).forM fun e => Attempt.warn (.skippedBinding e)
    return scan.bindings

/-- The report on a program. -/
def report (prepared : List Prepared) (p : Program) : Report :=
  { functions := p.functions.length
    units := p.units.size
    bindings := p.bindingCount
    collector := (prepared.map Prepared.collector).foldl Collector.Tally.add {}
    containers := (prepared.map Prepared.containers).foldl Container.Tally.add {}
    diagnostics := prepared.filterMap Prepared.finding ++ p.diagnostics }

/-- Prepare and link the functions of a call graph. -/
def linkGraph (settings : Settings) (heap : HeapImage) (known : Bindings) (host : Host) (entry : Handle)
    (graph : CallGraph) : Attempt (Program × Report) := do
  let prepared ← (graph.nodes.map (Routine.ofNode entry)).mapM (prepare settings.policy heap host)
  let (_, result) ← ExceptT.lift (Program.link heap ∅ known (prepared.map Prepared.routine))
  let program ← Attempt.ofExcept result
  return (program, report prepared program)

/-- Everything up to the linked program.  The host comes back with the functions that were compiled. -/
def program (settings : Settings) (heap : HeapImage) (host : Host) (root : Scope) (entry : Handle) :
    Logged (Host × Except Error (Program × Report)) := do
  match ← (knownBindings settings root).run with
  | .error e => return (host, .error e)
  | .ok known =>
    match CallGraph.collect host entry with
    | (host, .error e) => return (host, .error e)
    | (host, .ok graph) => return (host, ← (linkGraph settings heap known host entry graph).run)

/-- A whole run: link the program, then write its files. -/
def run (settings : Settings) (heap : HeapImage) (host : Host) (root : Scope) (entry : Handle)
    (files : FileTree) : Logged (Host × FileTree × Except Error Report) := do
  match ← program settings heap host root entry with
  | (host, .error e) => return (host, files, .error e)
  | (host, .ok (program, report)) =>
    let (files, result) := Output.write settings program files
    return (host, files, result.map fun output => { report with output })

end Build

end Freestanding
