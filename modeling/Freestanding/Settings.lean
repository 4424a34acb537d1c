import Freestanding.Json.Decoder
import Freestanding.Json.Printer
import Freestanding.Policy

/-!
# Settings

The options of a run: where to write, what to do about code that needs the host, whether to keep the
dumps beside the output, and whether to go on without the cells that have no static form.

## Main definitions

* `Settings` — the options and their defaults.
* `Settings.toJson`, `Settings.decode?` — options as JSON, in which every one may be missing.
-/

namespace Freestanding

/-- The options of a run. -/
structure Settings where
  /-- The dumps are written beside the output. -/
  debug : Bool := false
  /-- The policy. -/
  policy : Policy := .warn
  /-- The directory of the output. -/
  outputDir : Text := "build"
  /-- Cells without a static form are left out. -/
  skipUnsupported : Bool := true
  deriving DecidableEq, Repr

/-- Read a policy: its name, or an object with that name and nothing in it. -/
def Policy.decode? : Json.Decoder Policy
  | _, .string s => s.text.bind Policy.ofName?
  | _ + 1, .object [(name, .null)] => name.text.bind Policy.ofName?
  | _, _ => none

namespace Settings

/-- Read options. -/
def decode? : Json.Decoder Settings
  | room + 1, j => do
    let fields ← Json.slots? ["debug", "policy", "output_dir", "skip_unsupported_bindings"] j
    let default : Settings := {}
    match fields with
    | [debug, policy, outputDir, skip] =>
      return {
        debug := ← Json.optional? Json.bool? default.debug room debug
        policy := ← Json.optional? Policy.decode? default.policy room policy
        outputDir := ← Json.optional? Json.text? default.outputDir room outputDir
        skipUnsupported := ← Json.optional? Json.bool? default.skipUnsupported room skip }
    | _ => none
  | 0, _ => none

/-- The document of options. -/
def toJson (s : Settings) : Json :=
  .record [
    ("debug", .bool s.debug),
    ("policy", .ofText s.policy.name),
    ("output_dir", .ofText s.outputDir),
    ("skip_unsupported_bindings", .bool s.skipUnsupported)]

end Settings

end Freestanding
