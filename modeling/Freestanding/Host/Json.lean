import Freestanding.Host.Recording
import Freestanding.Json.Decoder
import Freestanding.Json.Printer

/-!
# Recordings as JSON

A recording is a list of functions that refer to the functions they call by position.

## Main definitions

* `Recorded.toJson`, `Recorded.decode?` — functions.
* `Host.toJson`, `Host.decode` — hosts.
-/

namespace Freestanding

namespace Recorded

/-- Read a function. -/
def decode? : Json.Decoder Recorded
  | room + 1, j => do
    let fields ← Json.slots?
      ["name", "namespace", "argument_types", "callees", "ir", "compiled"] j
    match fields with
    | [name, scope, arguments, callees, ir, compiled] =>
      return {
        name := ← Json.required? Json.text? room name
        scope := ← Json.required? Json.text? room scope
        arguments := ← Json.optional? (Json.list? Json.text?) [] room arguments
        callees := (← Json.optional? (Json.list? Json.word?) [] room callees).map (·.toNat)
        ir := ← Json.required? Json.text? room ir
        compiled := ← Json.optional? Json.bool? false room compiled }
    | _ => none
  | 0, _ => none

/-- The document of a function. -/
def toJson (f : Recorded) : Json :=
  .record [
    ("name", .ofText f.name),
    ("namespace", .ofText f.scope),
    ("argument_types", .array (f.arguments.map .ofText)),
    ("callees", .array (f.callees.map .ofNat)),
    ("ir", .ofText f.ir),
    ("compiled", .bool f.compiled)]

end Recorded

namespace Host

/-- Read the functions of a recording. -/
def decodeRecording? : Json.Decoder (List Recorded)
  | room + 1, j => do
    match (← Json.slots? ["functions"] j) with
    | [functions] => Json.required? (Json.list? Recorded.decode?) room functions
    | _ => none
  | 0, _ => none

/-- The host of a recording that is given as text. -/
def decode (t : Text) : Except Error Host :=
  match Json.decodeText? decodeRecording? t with
  | some functions => ofRecording functions
  | none => .error (.undecodable .hostRecording)

/-- The document of a host's recording. -/
def toJson (h : Host) : Json :=
  .record [("functions", .array (h.recording.map Recorded.toJson))]

end Host

end Freestanding
