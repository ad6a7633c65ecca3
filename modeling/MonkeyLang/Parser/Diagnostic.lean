import MonkeyLang.Text.Position
import MonkeyLang.Text.Quoted
import MonkeyLang.Token.Kind

/-!
The mistakes that reading a program text can find, for both ways to read one.
-/

namespace MonkeyLang

/-- What is wrong with a program text, and where. -/
inductive Diagnostic where
  /-- A character that starts no token. -/
  | illegalCharacter (literal : String) (position : Position)
  /-- A token of the kind `found` in the place of one of the kind `wanted`. -/
  | wrongToken (wanted found : Kind) (position : Position)
  /-- A token that starts no expression in the place of an expression. -/
  | noExpression (found : Kind) (position : Position)
  /-- An integer literal above the greatest word. -/
  | integerRange (literal : String) (position : Position)
  /-- A token that the grammar does not allow in its place. -/
  | unexpectedToken (literal : String) (position : Position)
  /-- A character that the grammar has no token for. -/
  | unexpectedCharacter (literal : String) (position : Position)
  /-- The text ends where the grammar needs more. -/
  | unexpectedEnd
  deriving DecidableEq, Repr

/-- The wording of a diagnostic. -/
def Diagnostic.message : Diagnostic → String
  | .illegalCharacter literal p =>
    "illegal character " ++ Text.quoted literal ++ " at " ++ p.text
  | .wrongToken wanted found p =>
    "expected next token to be " ++ wanted.display ++ ", got " ++ found.display ++
      " instead at " ++ p.text
  | .noExpression found p => "no prefix parse function for " ++ found.display ++ " at " ++ p.text
  | .integerRange literal p => "could not parse " ++ literal ++ " as integer at " ++ p.text
  | .unexpectedToken literal p =>
    "unexpected token " ++ Text.quoted literal ++ " at " ++ p.text
  | .unexpectedCharacter literal p =>
    "unexpected character " ++ Text.quoted literal ++ " at " ++ p.text
  | .unexpectedEnd => "unexpected end of input"

end MonkeyLang
