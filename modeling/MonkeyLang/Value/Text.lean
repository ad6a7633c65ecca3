import MonkeyLang.Halt
import MonkeyLang.Tree.Inspect
import MonkeyLang.Value.Basic

/-!
Values as text, for printing and for debug notes. A function is shown with its body, which must not
nest deeper than the limit.
-/

namespace MonkeyLang.Value

/-- Whether a value can be shown: the body of a function must nest within the limit. -/
def isShowable : Value → Bool
  | .returned v => v.isShowable
  | .function _ body _ => body.fits nestingLimit
  | _ => true

/-- The text of a function. -/
def functionText (parameters : List Json) (body : Program) : Except Halt String := do
  match parameters.findSome? Json.nonText? with
  | some j => throw (.label (.nameNotText j.className))
  | none =>
    let names := ", ".intercalate (parameters.map Json.display)
    let text ← body.renderProgram
    return "fn(" ++ names ++ ") \x7b\n" ++ text ++ "\n\x7d"

/-- What shows a value: a text, or the value itself that stands in the place of one. -/
def content : Value → Except Halt Json
  | .integer n => .ok (.string (toString n))
  | .string s => .ok (.string s)
  | .datum j => .ok j
  | .boolean b => .ok (.string (if b then "true" else "false"))
  | .null => .ok (.string "null")
  | .returned v => v.content
  | .function ps body _ => (functionText ps body).map .string
  | .builtin _ => .ok (.string "builtin function")
  | .error f => .ok (.string ("ERROR: " ++ f.message))

/-- The text of a value, as printed. -/
def text (v : Value) : Except Halt String :=
  v.content.map Json.display

/-- The text of a value in debug notes. -/
def inspect : Value → String
  | .integer n => "Integer(value=" ++ toString n ++ ")"
  | .string s => "String(value=" ++ Text.quoted s ++ ")"
  | .datum j => "String(value=" ++ j.inspected ++ ")"
  | .boolean b => "Boolean(value=" ++ (if b then "True" else "False") ++ ")"
  | .null => "null"
  | .returned v => "ReturnValue(value=" ++ v.inspect ++ ")"
  | .function ps body _ =>
    "Function(parameters=" ++ Tree.bracketed (ps.map Tree.inspectName) ++ ", body=" ++
      body.inspect ++ ")"
  | .builtin b => "<builtin " ++ b.name ++ ">"
  | .error f => "Error(" ++ Text.quoted f.message ++ ")"

end MonkeyLang.Value
