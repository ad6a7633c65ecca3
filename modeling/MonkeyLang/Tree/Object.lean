import MonkeyLang.Json.Basic
import MonkeyLang.Text.Numeral
import MonkeyLang.Tree.Basic

/-!
Program trees as JSON objects: each node is an object whose field `type` names its kind. Reading
takes any JSON value; a field that should hold a name, an operator or a text may hold anything,
so what is read is a tree with JSON labels.
-/

namespace MonkeyLang

/-- Why a JSON value is not a tree. -/
inductive ObjectError where
  /-- A node that is neither an object nor null. -/
  | notAnObject
  /-- An object whose field `type` names no kind of node. -/
  | unknownType (type : Json)
  /-- A field that a node of its kind needs. -/
  | missingField (key : String)
  /-- A value of the class `className` in the place of a list. -/
  | notIterable (className : String)
  /-- A value of the class `className` in the place of an integer. -/
  | notANumber (className : String)
  /-- A text in the place of an integer that writes none. -/
  | numeral (e : Text.NumeralError)
  /-- The special numbers in the place of an integer. -/
  | infinite
  | notFinite
  /-- Objects nest deeper than the budget. -/
  | tooDeep
  deriving Repr, Inhabited

/-- The wording of an error. -/
def ObjectError.message : ObjectError → String
  | .notAnObject => "Invalid AST object"
  | .unknownType type => "Unknown AST node type: " ++ type.display
  | .missingField key => Text.quoted key
  | .notIterable className => "'" ++ className ++ "' object is not iterable"
  | .notANumber className =>
    "int() argument must be a string, a bytes-like object or a real number, not '" ++ className ++
      "'"
  | .numeral e => e.message
  | .infinite => "cannot convert float infinity to integer"
  | .notFinite => "cannot convert float NaN to integer"
  | .tooDeep => "maximum recursion depth exceeded"

namespace Json

/-- The items of a value that stands for a list: the elements of an array, the characters of a
text, the keys of an object. -/
def items : Json → Except ObjectError (List Json)
  | .array elements => .ok elements
  | .string s => .ok (s.toList.map fun c => .string (String.singleton c))
  | .object fields => .ok (fields.map fun f => .string f.1)
  | j => .error (.notIterable j.className)

/-- The integer that a value stands for: a number without its fraction, a truth value as zero or
one, or the number that a text writes. -/
def toInteger : Json → Except ObjectError Int
  | .int n => .ok n
  | .bool b => .ok (if b then 1 else 0)
  | .string s => (Text.integer s).mapError .numeral
  | .real (.finite negative mantissa exponent) =>
    let n : Int := Real64.magnitude mantissa exponent
    .ok (if negative then -n else n)
  | .real (.infinite _) => .error .infinite
  | .real .nan => .error .notFinite
  | j => .error (.notANumber j.className)

def required (fields : List (String × Json)) (key : String) : Except ObjectError Json :=
  match field? fields key with
  | some j => .ok j
  | none => .error (.missingField key)

/-- The value of a field that is null where it is not there. -/
def optional (fields : List (String × Json)) (key : String) : Json :=
  (field? fields key).getD .null

end Json

namespace Tree

variable {α : Type}

/-- An object with its `type` first. -/
def objectOf (type : String) (fields : List (String × Json)) : Json :=
  .object (("type", .string type) :: fields)

mutual

/-- The object of a tree, where `label` gives the value of a label. -/
def toJson (label : α → Json) : Tree α → Json
  | .missing => .null
  | .program ss => objectOf "Program" [("statements", .array (toJsonEach label ss))]
  | .letStatement x t =>
    objectOf "LetStatement" [("name", label x), ("value", t.toJson label)]
  | .returnStatement t => objectOf "ReturnStatement" [("value", t.toJson label)]
  | .expressionStatement t =>
    objectOf "ExpressionStatement" [("expression", t.toJson label)]
  | .block ss => objectOf "BlockStatement" [("statements", .array (toJsonEach label ss))]
  | .identifier x => objectOf "Identifier" [("value", label x)]
  | .integer n => objectOf "IntegerLiteral" [("value", .int n)]
  | .string s => objectOf "StringLiteral" [("value", label s)]
  | .boolean b => objectOf "BooleanLiteral" [("value", .bool b)]
  | .prefixed o t =>
    objectOf "PrefixExpression" [("operator", label o), ("right", t.toJson label)]
  | .infixed l o r =>
    objectOf "InfixExpression"
      [("operator", label o), ("left", l.toJson label), ("right", r.toJson label)]
  | .conditional c t e =>
    objectOf "IfExpression"
      [("condition", c.toJson label), ("consequence", t.toJson label),
        ("alternative", e.toJson label)]
  | .function ps t =>
    objectOf "FunctionLiteral"
      [("parameters", .array (ps.map label)), ("body", t.toJson label)]
  | .call f as =>
    objectOf "CallExpression"
      [("function", f.toJson label), ("arguments", .array (toJsonEach label as))]
termination_by structural t => t

def toJsonEach (label : α → Json) : List (Tree α) → List Json
  | [] => []
  | t :: ts => t.toJson label :: toJsonEach label ts
termination_by structural ts => ts

end

/-- The node of an object with the given fields, where `inner` reads the nodes inside it. Of
several faults the one in the field that is read first is reported. -/
def ofFields (inner : Json → Except ObjectError (Tree Json)) (fields : List (String × Json)) :
    Except ObjectError (Tree Json) :=
  let type := Json.optional fields "type"
  let unknown : Except ObjectError (Tree Json) := .error (.unknownType type)
  match type with
  | .string name =>
    match name with
    | "Program" => do
      return .program (← (← (← Json.required fields "statements").items).mapM inner)
    | "LetStatement" => do
      return .letStatement (← Json.required fields "name") (← inner (Json.optional fields "value"))
    | "ReturnStatement" => do
      return .returnStatement (← inner (Json.optional fields "value"))
    | "ExpressionStatement" => do
      return .expressionStatement (← inner (Json.optional fields "expression"))
    | "BlockStatement" => do
      return .block (← (← (← Json.required fields "statements").items).mapM inner)
    | "Identifier" => do
      return .identifier (← Json.required fields "value")
    | "IntegerLiteral" => do
      return .integer (← (← Json.required fields "value").toInteger)
    | "StringLiteral" => do
      return .string (← Json.required fields "value")
    | "BooleanLiteral" => do
      return .boolean (← Json.required fields "value").truthy
    | "PrefixExpression" => do
      return .prefixed (← Json.required fields "operator")
        (← inner (← Json.required fields "right"))
    | "InfixExpression" => do
      return .infixed (← inner (← Json.required fields "left"))
        (← Json.required fields "operator") (← inner (← Json.required fields "right"))
    | "IfExpression" => do
      return .conditional (← inner (← Json.required fields "condition"))
        (← inner (← Json.required fields "consequence"))
        (← inner (Json.optional fields "alternative"))
    | "FunctionLiteral" => do
      return .function (← (← Json.required fields "parameters").items)
        (← inner (← Json.required fields "body"))
    | "CallExpression" => do
      return .call (← inner (← Json.required fields "function"))
        (← (← (← Json.required fields "arguments").items).mapM inner)
    | _ => unknown
  | _ => unknown

/-- The tree that a JSON value describes, if its nodes nest in fewer than `budget` levels. -/
def ofJson : (budget : Nat) → Json → Except ObjectError (Tree Json)
  | 0, _ => .error .tooDeep
  | budget + 1, j =>
    match j with
    | .null => .ok .missing
    | .object fields => ofFields (ofJson budget) fields
    | _ => .error .notAnObject

def toObject (t : Code) : Json :=
  t.toJson .string

end Tree

end MonkeyLang
