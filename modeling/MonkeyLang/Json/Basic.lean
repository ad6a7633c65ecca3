import MonkeyLang.Json.Real
import MonkeyLang.Text.Quoted

/-!
JSON values, and how messages show them.
-/

namespace MonkeyLang

/-- A JSON value. Whole numbers have any size; the fields of an object keep their order. -/
inductive Json where
  | null
  | bool (b : Bool)
  | int (n : Int)
  | real (x : Real64)
  | string (s : String)
  | array (elements : List Json)
  | object (fields : List (String × Json))
  deriving Repr, Inhabited

namespace Json

def field? : List (String × Json) → String → Option Json
  | [], _ => none
  | (k, v) :: fields, key => if key = k then some v else field? fields key

/-- Sets the field `key`. A key that is there already keeps its place and changes its value. -/
def setField (key : String) (value : Json) : List (String × Json) → List (String × Json)
  | [] => [(key, value)]
  | (k, v) :: fields =>
    if k = key then (k, value) :: fields else (k, v) :: setField key value fields

/-- Whether the values of a value nest in fewer than `budget` levels. -/
def fits : (budget : Nat) → Json → Bool
  | 0, _ => false
  | n + 1, j =>
    match j with
    | .array elements => elements.all (fits n)
    | .object fields => fields.all fun f => fits n f.2
    | _ => true

/-- Whether a value counts as true: all do but null, false, zero and what is empty. -/
def truthy : Json → Bool
  | .null => false
  | .bool b => b
  | .int n => n ≠ 0
  | .real x => !x.isZero
  | .string s => s ≠ ""
  | .array elements => !elements.isEmpty
  | .object fields => !fields.isEmpty

/-- The word for the class of a value in messages. -/
def className : Json → String
  | .null => "NoneType"
  | .bool _ => "bool"
  | .int _ => "int"
  | .real _ => "float"
  | .string _ => "str"
  | .array _ => "list"
  | .object _ => "dict"

mutual

/-- The characters of a value as messages show it inside another one. -/
def inspect : Json → List Char
  | .null => "None".toList
  | .bool b => (if b then "True" else "False").toList
  | .int n => (toString n).toList
  | .real x => x.text
  | .string s => Text.quotedChars s.toList
  | .array elements => '[' :: inspectElements elements ++ [']']
  | .object fields => '{' :: inspectFields fields ++ ['}']
termination_by structural j => j

def inspectElements : List Json → List Char
  | [] => []
  | [j] => j.inspect
  | j :: js => j.inspect ++ ',' :: ' ' :: inspectElements js
termination_by structural js => js

def inspectFields : List (String × Json) → List Char
  | [] => []
  | [(k, j)] => Text.quotedChars k.toList ++ ':' :: ' ' :: j.inspect
  | (k, j) :: fs =>
    Text.quotedChars k.toList ++ ':' :: ' ' :: j.inspect ++ ',' :: ' ' :: inspectFields fs
termination_by structural fs => fs

end

/-- A value as messages show it inside another one: texts are quoted. -/
def inspected (j : Json) : String :=
  String.ofList j.inspect

/-- A value as messages show it by itself: a text stands without quotes. -/
def display : Json → String
  | .string s => s
  | j => j.inspected

end Json

end MonkeyLang
