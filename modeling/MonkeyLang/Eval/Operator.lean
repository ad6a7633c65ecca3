import MonkeyLang.Label.Sum
import MonkeyLang.Value.Basic
import MonkeyLang.Word

/-!
The operators on values. An operation that makes no sense gives a failure; only what stands in the
place of a text in a saved tree can be at fault.
-/

namespace MonkeyLang

/-- An operation on two integers. The quotient is rounded down. -/
def integerInfix (operator : String) (a b : Int) : Value :=
  match operator with
  | "+" => .integer (Word.wrap (a + b))
  | "-" => .integer (Word.wrap (a - b))
  | "*" => .integer (Word.wrap (a * b))
  | "/" => if b = 0 then .error .divisionByZero else .integer (Word.wrap (a.fdiv b))
  | "<" => .boolean (a < b)
  | ">" => .boolean (b < a)
  | "==" => .boolean (a = b)
  | "!=" => .boolean (a ≠ b)
  | _ => .error (.unknownInfix .number operator .number)

/-- An operation on two truth values. -/
def booleanInfix (operator : String) (a b : Bool) : Value :=
  match operator with
  | "==" => .boolean (a = b)
  | "!=" => .boolean (a ≠ b)
  | _ => .error (.unknownInfix .boolean operator .boolean)

def stringInfix (operator : String) (a b : String) : Value :=
  match operator with
  | "+" => .string (a ++ b)
  | _ => .error (.unknownInfix .string operator .string)

/-- An operation on two values in the place of texts. -/
def datumInfix (operator : String) (a b : Json) : Except LabelFault Value :=
  match operator with
  | "+" => (a.sum b).map .ofLabel
  | _ => .ok (.error (.unknownInfix .string operator .string))

/-- An operation on one value. -/
def applyPrefix (operator : String) (right : Value) : Value :=
  match operator with
  | "!" => .boolean !right.truthy
  | "-" =>
    match right with
    | .integer n => .integer (Word.wrap (-n))
    | v => .error (.unknownPrefix "-" v.type)
  | _ => .error (.unknownPrefix operator right.type)

/-- An operation on two values, which are of one type. -/
def applyInfix (operator : String) (left right : Value) : Except LabelFault Value :=
  match left, right with
  | .integer a, .integer b => .ok (integerInfix operator a b)
  | .boolean a, .boolean b => .ok (booleanInfix operator a b)
  | .string a, .string b => .ok (stringInfix operator a b)
  | .datum a, .datum b => datumInfix operator a b
  | .datum a, .string b => datumInfix operator a (.string b)
  | .string a, .datum b => datumInfix operator (.string a) b
  | left, right =>
    if left.type = right.type then .ok (.error (.unknownInfix left.type operator right.type))
    else .ok (.error (.typeMismatch left.type operator right.type))

end MonkeyLang
