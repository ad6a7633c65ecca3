import MonkeyLang.Label.Fault

/-!
The ways in which a program can stop without a value. They are apart from the failures of the
language, which are values.
-/

namespace MonkeyLang

/-- Why an evaluation stopped without a value. -/
inductive Halt where
  /-- Evaluations nest too deep, or the nodes of something that is read or shown do. -/
  | tooDeep
  /-- A missing node was to be evaluated. -/
  | missingNode
  /-- A builtin function lacks an argument that it needs. -/
  | missingArgument
  /-- A label of a saved tree was used as it cannot be. -/
  | label (f : LabelFault)
  deriving DecidableEq, Repr

/-- The wording of a halt. -/
def Halt.message : Halt → String
  | .tooDeep => "maximum recursion depth exceeded"
  | .missingNode => "evaluate: unexpected node type NoneType"
  | .missingArgument => "list index out of range"
  | .label f => f.message

end MonkeyLang
