import Freestanding.Error
import Freestanding.Host.Signature

/-!
# Recorded hosts

The compiler of the host is known through a recording: for each function its signature, the functions
it calls, its IR dump, and whether the host had compiled it.  Recording a signature again replaces what
was recorded and keeps the handle.

## Main definitions

* `Recorded` — a function of a recording.
* `Host` — a host made of recorded functions.
* `Host.ofRecording` — the host of a list of functions that refer to one another by position.
* `Host.describe`, `Host.callees`, `Host.ensureCompiled`, `Host.dump` — what a host can be asked.
-/

namespace Freestanding

/-- A function of a recording. -/
structure Recorded where
  /-- The name. -/
  name : Text
  /-- The scope, with dots. -/
  scope : Text
  /-- The types of the arguments. -/
  arguments : List Text := []
  /-- The functions that are called, by position. -/
  callees : List Nat := []
  /-- The IR dump. -/
  ir : Text
  /-- The host had compiled the function. -/
  compiled : Bool := false
  deriving DecidableEq, Repr

/-- The signature of a recorded function. -/
def Recorded.signature (f : Recorded) : Signature :=
  ⟨f.name, .parse f.scope, f.arguments⟩

/-- A host that answers from a recording. -/
structure Host where
  /-- The recorded functions, in the order of their handles. -/
  functions : List Recorded := []
  /-- The signatures of the recorded functions. -/
  table : SignatureTable := {}
  /-- The functions that were compiled because someone asked, in order. -/
  compiledOnDemand : List Handle := []
  deriving DecidableEq, Repr

namespace Host

/-- The number of functions. -/
def size (h : Host) : Nat :=
  h.table.size

/-! ### Recording -/

/-- Record a function, and say what handle its signature has. -/
def add (h : Host) (f : Recorded) : Host × Handle :=
  let (table, handle) := h.table.intern f.signature
  let functions :=
    if handle.position < h.functions.length then h.functions.set handle.position f
    else h.functions ++ [f]
  ({ h with functions := functions, table := table }, handle)

/-- Record that a function calls another one. -/
def addCallee (h : Host) (caller callee : Handle) : Host :=
  { h with
    functions := h.functions.modify caller.position fun f =>
      { f with callees := f.callees ++ [callee.position] } }

/-- Record functions without the functions they call, and say what handles they have. -/
def addAll (h : Host) : List Recorded → Host × List Handle
  | [] => (h, [])
  | f :: rest =>
    let (h, handle) := h.add { f with callees := [] }
    let (h, handles) := h.addAll rest
    (h, handle :: handles)

/-- Record the calls of one function, where `handles` are the handles by position. -/
def addCallees (handles : List Handle) (caller : Handle) (h : Host) : List Nat → Except Error Host
  | [] => .ok h
  | callee :: rest =>
    match handles[callee]? with
    | some target => (h.addCallee caller target).addCallees handles caller rest
    | none => .error (.unknownFunction (Handle.ofPosition callee).id)

/-- The host of a recording whose functions refer to one another by position. -/
def ofRecording (functions : List Recorded) : Except Error Host :=
  let (host, handles) := ({} : Host).addAll functions
  (functions.zip handles).foldlM (fun h (f, caller) => h.addCallees handles caller f.callees) host

/-- The recording of a host. -/
def recording (h : Host) : List Recorded :=
  h.functions

/-! ### Asking -/

/-- The handle of the first function with a name. -/
def handleOf? (h : Host) (name : Text) : Option Handle :=
  (h.functions.findIdx? (·.name == name)).map Handle.ofPosition

/-- The recorded function with a handle. -/
def get (h : Host) (f : Handle) : Except Error Recorded :=
  match h.functions[f.position]? with
  | some r => .ok r
  | none => .error (.unknownFunction f.id)

/-- The signature of a function. -/
def describe (h : Host) (f : Handle) : Except Error Signature :=
  match h.table.get? f with
  | some s => .ok s
  | none => .error (.unknownFunction f.id)

/-- The functions that a function calls. -/
def callees (h : Host) (f : Handle) : Except Error (List Handle) := do
  let r ← h.get f
  r.callees.mapM fun n =>
    if n < h.functions.length then .ok (.ofPosition n)
    else .error (.unknownFunction (Handle.ofPosition n).id)

/-- Have a function compiled. -/
def ensureCompiled (h : Host) (f : Handle) : Except Error Host := do
  let r ← h.get f
  if r.compiled then return h
  else return { h with
    functions := h.functions.set f.position { r with compiled := true }
    compiledOnDemand := h.compiledOnDemand ++ [f] }

/-- The IR dump of a compiled function. -/
def dump (h : Host) (f : Handle) : Except Error Text := do
  let r ← h.get f
  if r.compiled then return r.ir
  else throw (.host ("`" ++ r.name ++ "` was never compiled"))

end Host

end Freestanding
