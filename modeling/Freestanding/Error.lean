import Freestanding.Text.Number

/-!
# Errors

The causes for which a run stops, skips an item or ends with a complaint.  Each has a severity: a fatal
error ends the run before anything is written, a recoverable one concerns a single item that may be
left out, and a warning is collected and reported with the result.

## Main definitions

* `Error` — the causes.
* `Error.message` — their wording.
* `Error.severity`, `Error.isSoft` — their weight.
-/

namespace Freestanding

/-- A kind of document that is read from text. -/
inductive Document
  /-- An image of the host's memory. -/
  | heapImage
  /-- A recording of the host's functions. -/
  | hostRecording
  /-- The options of a run. -/
  | settings
  /-- A value of the host. -/
  | value
  /-- A scope with its cells, or one cell. -/
  | scope
  /-- The element layout of a container type. -/
  | layout
  deriving DecidableEq, Repr

/-- What can go wrong. -/
inductive Error
  /-- The value of a cell has no static form. -/
  | unsupportedValue (identifier typeName : Text)
  /-- The host has no function with this handle. -/
  | unknownFunction (handle : UInt32)
  /-- The dump of a function does not define it. -/
  | functionNotFound (function : Text)
  /-- A construct was recognised but does not have its usual shape. -/
  | malformed (function construct detail : Text)
  /-- One container type has two element layouts in one scope. -/
  | inconsistentLayout (symbol scope : Text)
  /-- The host's memory could not be read. -/
  | unreadable (address : UInt64) (what : Text)
  /-- A function refers to an address for which there is no cell and no value. -/
  | missingBinding (function : Text) (address : UInt64)
  /-- The code of a function still needs the host. -/
  | notSelfContained (function reason : Text)
  /-- Two outputs of one run go to the same file. -/
  | outputCollision (path first second : Text)
  /-- A file could not be read or written. -/
  | file (path detail : Text)
  /-- An option has no meaning. -/
  | config (detail : Text)
  /-- A document could not be decoded. -/
  | undecodable (document : Document)
  /-- The host refused. -/
  | host (detail : Text)
  deriving DecidableEq, Repr

/-- How much an error weighs. -/
inductive Severity
  /-- The run ends and nothing is written. -/
  | fatal
  /-- One item may be skipped. -/
  | recoverable
  /-- The error is reported at the end of the run. -/
  | warning
  deriving DecidableEq, Repr

namespace Error

/-- An address as it is shown in messages. -/
def showAddress (a : UInt64) : Text :=
  "0x" ++ Text.hex a.toNat

/-- The wording of an error. -/
def message : Error → Text
  | .unsupportedValue identifier typeName =>
    "Unsupported value type for `" ++ identifier ++ "`: " ++ typeName
  | .unknownFunction handle => "Unknown function handle: " ++ Text.decimal handle.toNat
  | .functionNotFound function =>
    "Function `" ++ function ++ "` has no matching definition in its IR dump"
  | .malformed function construct detail =>
    "Malformed " ++ construct ++ " in `" ++ function ++ "`: " ++ detail
  | .inconsistentLayout symbol scope =>
    "Container type " ++ symbol ++ " used with inconsistent layouts in `" ++ scope ++ "`"
  | .unreadable address what => "Runtime read failed at " ++ showAddress address ++ ": " ++ what
  | .missingBinding function address =>
    "No binding for address " ++ showAddress address ++ " referenced by `" ++ function ++ "`"
  | .notSelfContained function reason =>
    "Function `" ++ function ++ "` is not self-contained: " ++ reason
  | .outputCollision path first second =>
    "Output file " ++ path ++ " would be written by both " ++ first ++ " and " ++ second
  | .file path detail => "I/O error on " ++ path ++ ": " ++ detail
  | .config detail => "Configuration error: " ++ detail
  | .undecodable .heapImage => "Configuration error: heap snapshot"
  | .undecodable .hostRecording => "Configuration error: host recording"
  | .undecodable _ => "Configuration error"
  | .host detail => "Host error: " ++ detail

/-- The weight of an error. -/
def severity : Error → Severity
  | .unsupportedValue .. => .recoverable
  | .missingBinding .. | .notSelfContained .. => .warning
  | _ => .fatal

/-- An error that is collected instead of ending the run. -/
def isSoft (e : Error) : Bool :=
  e.severity == .warning

end Error

end Freestanding
