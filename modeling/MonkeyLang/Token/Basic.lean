import MonkeyLang.Text.Position
import MonkeyLang.Text.Quoted
import MonkeyLang.Token.Kind

/-!
Tokens, and the classes of characters that they are made of.
-/

namespace MonkeyLang

/-- A token: its kind, the text that matters (a string without its quotes), and the place where
it starts. -/
structure Token where
  kind : Kind
  literal : String
  position : Position
  deriving DecidableEq, Repr, Inhabited

/-- How a token is shown: its kind and its text between quotes. -/
def Token.text (t : Token) : String :=
  t.kind.display ++ "(" ++ Text.quoted t.literal ++ ")"

/-- The blanks between tokens. -/
def isSpace (c : Char) : Bool :=
  c = ' ' || c = '\t' || c = '\r' || c = '\n'

/-- The characters of words: the ASCII letters and the underscore. -/
def isLetter (c : Char) : Bool :=
  ('a' ≤ c && c ≤ 'z') || ('A' ≤ c && c ≤ 'Z') || c = '_'

/-- The digits of integer literals: the ASCII ones. -/
def isDigit (c : Char) : Bool :=
  '0' ≤ c && c ≤ '9'

end MonkeyLang
