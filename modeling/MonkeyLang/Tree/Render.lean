import MonkeyLang.Tree.Basic

/-!
Program trees as text close to source. Every prefix and infix operation stands in parentheses, so
the grouping is visible; the braces of blocks are left out.
-/

namespace MonkeyLang.Tree

mutual

/-- The text of a tree. A missing part shows as `None`, but as nothing after `let`, `return` and
`else` and in a statement. -/
def render : Code → String
  | .missing => "None"
  | .program ss => String.join (renderEach ss)
  | .letStatement x .missing => "let " ++ x ++ " = ;"
  | .letStatement x t => "let " ++ x ++ " = " ++ t.render ++ ";"
  | .returnStatement .missing => "return;"
  | .returnStatement t => "return " ++ t.render ++ ";"
  | .expressionStatement .missing => ""
  | .expressionStatement t => t.render
  | .block ss => String.join (renderEach ss)
  | .identifier x => x
  | .integer n => toString n
  | .string s => "\"" ++ s ++ "\""
  | .boolean b => if b then "true" else "false"
  | .prefixed o t => "(" ++ o ++ t.render ++ ")"
  | .infixed l o r => "(" ++ l.render ++ " " ++ o ++ " " ++ r.render ++ ")"
  | .conditional c t .missing => "if" ++ c.render ++ " " ++ t.render
  | .conditional c t e => "if" ++ c.render ++ " " ++ t.render ++ "else " ++ e.render
  | .function ps t => "fn(" ++ ", ".intercalate ps ++ ") " ++ t.render
  | .call f as => f.render ++ "(" ++ ", ".intercalate (renderEach as) ++ ")"
termination_by structural t => t

def renderEach : List Code → List String
  | [] => []
  | t :: ts => t.render :: renderEach ts
termination_by structural ts => ts

end

/-- The text of a tree whose nodes nest within the limit. -/
def render? (t : Code) : Option String :=
  if t.fits nestingLimit then some t.render else none

theorem renderEach_eq_map (ts : List Code) : renderEach ts = ts.map render := by
  induction ts with
  | nil => rfl
  | cons t ts ih => rw [renderEach, List.map_cons, ih]

end MonkeyLang.Tree
