import MonkeyLang.Grammar.Machine
import MonkeyLang.Parser.Program

/-!
Whole programs by the grammar, and the choice between the two ways to read a program.
-/

namespace MonkeyLang

/-- The program that a text writes by the grammar. The first mistake in its form leaves an empty
program; literals out of range are reported all, and are missing in the tree. There is no result
where the nodes nest deeper than the limit. -/
def parseGrammar? (text : String) : Option Parsed :=
  match ({} : Grammar.Machine).run (Source.ofString text) with
  | .error d => some ⟨.program [], [d]⟩
  | .ok m => if m.program.fits nestingLimit then some ⟨m.program, m.diagnostics.toList⟩ else none

/-- The two ways to read a program. -/
inductive FrontEnd where
  /-- By the precedence of operators, with all mistakes reported. -/
  | precedence
  /-- By the grammar, up to the first mistake. -/
  | grammar
  deriving DecidableEq, Repr, Inhabited

/-- The program that a text writes, if it does not nest too deep. -/
def FrontEnd.parse? : FrontEnd → String → Option Parsed
  | .precedence => MonkeyLang.parse?
  | .grammar => parseGrammar?

end MonkeyLang
