import MonkeyLang.Json.Basic
import MonkeyLang.Tree.Basic

/-!
Program trees as debug notes show them: each node by its kind and its fields. Labels are shown as
the JSON values that they are.
-/

namespace MonkeyLang.Tree

/-- A parameter or a let name, which debug notes show as an identifier. -/
def inspectName (name : Json) : String :=
  "Identifier(value=" ++ name.inspected ++ ")"

def bracketed (items : List String) : String :=
  "[" ++ ", ".intercalate items ++ "]"

mutual

/-- The text of a tree in debug notes. -/
def inspect : Tree Json → String
  | .missing => "None"
  | .program ss => "Program(statements=" ++ bracketed (inspectEach ss) ++ ")"
  | .letStatement x t =>
    "LetStatement(name=" ++ inspectName x ++ ", value=" ++ t.inspect ++ ")"
  | .returnStatement t => "ReturnStatement(value=" ++ t.inspect ++ ")"
  | .expressionStatement t => "ExpressionStatement(expression=" ++ t.inspect ++ ")"
  | .block ss => "BlockStatement(statements=" ++ bracketed (inspectEach ss) ++ ")"
  | .identifier x => inspectName x
  | .integer n => "IntegerLiteral(value=" ++ toString n ++ ")"
  | .string s => "StringLiteral(value=" ++ s.inspected ++ ")"
  | .boolean b => "BooleanLiteral(value=" ++ (if b then "True" else "False") ++ ")"
  | .prefixed o t =>
    "PrefixExpression(operator=" ++ o.inspected ++ ", right=" ++ t.inspect ++ ")"
  | .infixed l o r =>
    "InfixExpression(left=" ++ l.inspect ++ ", operator=" ++ o.inspected ++ ", right=" ++
      r.inspect ++ ")"
  | .conditional c t e =>
    "IfExpression(condition=" ++ c.inspect ++ ", consequence=" ++ t.inspect ++
      ", alternative=" ++ e.inspect ++ ")"
  | .function ps t =>
    "FunctionLiteral(parameters=" ++ bracketed (ps.map inspectName) ++ ", body=" ++ t.inspect ++ ")"
  | .call f as =>
    "CallExpression(function=" ++ f.inspect ++ ", arguments=" ++ bracketed (inspectEach as) ++ ")"
termination_by structural t => t

def inspectEach : List (Tree Json) → List String
  | [] => []
  | t :: ts => t.inspect :: inspectEach ts
termination_by structural ts => ts

end

end MonkeyLang.Tree
