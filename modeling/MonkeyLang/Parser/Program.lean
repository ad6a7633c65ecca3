import MonkeyLang.Parser.Expression
import MonkeyLang.Token.Lexer

/-!
Whole programs by precedence climbing. Reading always goes to the end of the text and reports all
mistakes on its way.
-/

namespace MonkeyLang

/-- What reading a program gives: a tree, and the diagnostics in the order they were found. The
tree is whole where there are none. -/
structure Parsed where
  tree : Code
  diagnostics : List Diagnostic
  deriving DecidableEq, Repr, Inhabited

def Parsed.messages (p : Parsed) : List String :=
  p.diagnostics.map Diagnostic.message

namespace Parse

/-- A whole program, with the budget for the nesting of its expressions. -/
def program (fuel budget : Nat) : Parse Code := do
  return .program (← statements (expression fuel budget) [.eof] fuel)

end Parse

/-- The program of a list of tokens, if its expressions nest within `budget` levels. -/
def parseTokens? (budget : Nat) (tokens : List Token) : Option Parsed := do
  let (tree, cursor) ← (Parse.program (tokens.length + 1) budget).run (Cursor.start tokens)
  return ⟨tree, cursor.diagnostics.toList⟩

/-- The program that a text writes, if its expressions nest within the limit. -/
def parse? (text : String) : Option Parsed :=
  parseTokens? nestingLimit (tokenize text)

end MonkeyLang
