import Freestanding.Token

/-!
# Names

A symbol or value is known by its bare name, without sigil and quotes.  Writing a name down again puts
it in quotes unless it is an identifier: name characters only, the first of them no digit.

## Main definitions

* `Name.bare` — the name of a token.
* `Name.symbol`, `Name.value` — a name as a global symbol and as a local value.
* `Name.derived` — the name of a helper value beside an existing one.
* `Name.sanitize` — a name reduced to letters, digits, underscores and dots.
-/

namespace Freestanding.Name

/-- The name of a symbol or value, without its sigil and the quotes around it. -/
def bare (token : Text) : Text :=
  let quoted := token.dropWhile fun c => c == '@' || c == '%'
  Text.dropWhileEnd (· == '"') (quoted.dropWhile (· == '"'))

/-- A name that needs no quotes. -/
def isIdentifier : Text → Bool
  | [] => false
  | c :: cs => Token.isNameChar c && !c.isDigit && cs.all Token.isNameChar

/-- A name written with a sigil, in quotes where it needs them. -/
def write (sigil : Char) (name : Text) : Text :=
  if isIdentifier name then sigil :: name else sigil :: '"' :: (name ++ ['"'])

/-- A name written as a global symbol. -/
def symbol (name : Text) : Text :=
  write '@' name

/-- A name written as a local value. -/
def value (name : Text) : Text :=
  write '%' name

/-- The value whose name is that of `token` with a dot and a suffix. -/
def derived (token suffix : Text) : Text :=
  value (bare token ++ '.' :: suffix)

/-- A character that `sanitize` keeps. -/
def isPlain (c : Char) : Bool :=
  c.isAlphanum || c == '_' || c == '.'

/-- A name with an underscore in place of every character that is not plain. -/
def sanitize (name : Text) : Text :=
  name.map fun c => if isPlain c then c else '_'

end Freestanding.Name
