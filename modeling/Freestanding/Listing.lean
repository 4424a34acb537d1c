import Freestanding.Heap.Object
import Freestanding.Renaming

/-!
# Listings

The code of one function, taken apart: its definitions (the function itself first, then the helpers
compiled with it), the constants and declarations they refer to, the run-time addresses hidden behind
symbols, and the lines that concern the file as a whole.  Every later stage reads and changes a
listing; rendering one gives the text of an output file.

## Main definitions

* `AddressTable` — symbols that stand for run-time addresses, by what is at the address.
* `Listing` — the parts.
* `Listing.functionTexts` — the definitions, put together again.
* `Listing.declare`, `Listing.rename` — adding a declaration, and renaming symbols.
* `Listing.render` — the text of the file.
-/

namespace Freestanding

/-- Symbols that stand for addresses of the host's memory, each under its address. -/
structure AddressTable where
  /-- Cells that hold global variables. -/
  cells : Std.ExtTreeMap UInt64 Text := ∅
  /-- Descriptors of container types. -/
  containers : Std.ExtTreeMap UInt64 Text := ∅
  /-- All other objects. -/
  others : Std.ExtTreeMap UInt64 Text := ∅

namespace AddressTable

/-- The lowest address for which a symbol stands as a container type. -/
def containerAddress? (t : AddressTable) (symbol : Text) : Option UInt64 :=
  (t.containers.toList.find? (·.2 == symbol)).map Prod.fst

/-- A symbol stands for a container type. -/
def isContainer (t : AddressTable) (symbol : Text) : Bool :=
  t.containers.values.contains symbol

end AddressTable

/-- The code of one compiled function and all it comes with. -/
structure Listing where
  /-- The first lines of the definitions, each with its opening brace; the function itself comes
  first. -/
  headers : List Text := []
  /-- The text between the braces of each definition, in the same order. -/
  bodies : List Text := []
  /-- The lines that define constants, by symbol. -/
  constants : Std.ExtTreeMap Text Text := ∅
  /-- The symbols that stand for run-time addresses. -/
  addresses : AddressTable := {}
  /-- The lines that declare functions defined elsewhere, by symbol. -/
  declarations : Std.ExtTreeMap Text Text := ∅
  /-- The attribute groups. -/
  attributes : List Text := []
  /-- The lines that describe the target machine. -/
  targets : List Text := []
  /-- The metadata lines. -/
  metadata : List Text := []
  /-- The element layouts of the container types that the code works with, by symbol. -/
  layouts : Std.ExtTreeMap Text Layout := ∅
  /-- The lines that declare the global variables the code refers to, by symbol. -/
  externals : Std.ExtTreeMap Text Text := ∅
  /-- The dump from which the listing was taken. -/
  dump : Text := []

namespace Listing

/-- The text of a definition. -/
def functionText (header body : Text) : Text :=
  header ++ body ++ "\x7d"

/-- The texts of all definitions. -/
def functionTexts (l : Listing) : List Text :=
  List.zipWith functionText l.headers l.bodies

/-- Declare a symbol, unless it is declared already. -/
def declare (l : Listing) (symbol line : Text) : Listing :=
  { l with declarations := l.declarations.insertIfNew symbol line }

/-- Declarations under new names, in the order of the old ones: where two symbols come to have one
name, the later declaration stays. -/
def renameDeclarations (r : Renaming) (declarations : Std.ExtTreeMap Text Text) :
    Std.ExtTreeMap Text Text :=
  declarations.toList.foldl (fun m (symbol, line) => m.insert (r.apply symbol) (line.rename r)) ∅

/-- Rename symbols in all definitions and declarations. -/
def rename (r : Renaming) (l : Listing) : Listing :=
  { l with
    headers := l.headers.map (Text.rename r)
    bodies := l.bodies.map (Text.rename r)
    declarations := renameDeclarations r l.declarations }

/-- A part of a file: an empty line and then the items, one after the other; nothing if there are
none. -/
def renderSection : (items : List Text) → Text
  | [] => []
  | items => '\n' :: items.flatMap (· ++ ['\n'])

/-- A text as comment lines. -/
def renderComment (comment : Text) : Text :=
  comment.printedLines.flatMap fun line => "; " ++ line ++ "\n"

/-- The parts of the file, in their order. -/
def parts (l : Listing) : List (List Text) :=
  [l.targets, l.constants.values, l.externals.values, l.functionTexts, l.declarations.values,
    l.attributes, l.metadata]

/-- The file that holds the code, under a comment. -/
def render (l : Listing) (comment : Text) : Text :=
  renderComment comment ++ l.parts.flatMap renderSection

end Listing

end Freestanding
