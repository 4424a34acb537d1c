import Freestanding.Token
import Std.Data.ExtTreeMap

/-!
# Renamings

A renaming gives new global symbols for old ones.  It is applied to all tokens of a text at once, and
to whole tokens only, so a symbol that is a prefix of another never disturbs it.

## Main definitions

* `Renaming` — the map from old to new symbols.
* `Renaming.apply` — the new symbol of a token.
* `Text.rename` — a text with all its global symbols renamed.
-/

namespace Freestanding

/-- New global symbols for old ones, both written with their sigil. -/
abbrev Renaming := Std.ExtTreeMap Text Text

namespace Renaming

/-- The new symbol for a token; a token that is not renamed stays. -/
def apply (r : Renaming) (token : Text) : Text :=
  r.getD token token

/-- The characters of a segment after renaming. -/
def segment (r : Renaming) : Token.Segment → Text
  | .gap c => [c]
  | .token t => r.apply t

end Renaming

/-- A text with its global symbols renamed. -/
def Text.rename (r : Renaming) (t : Text) : Text :=
  (Token.segments '@' t).flatMap r.segment

end Freestanding
