import MonkeyLang.Tree.Program

/-!
The values of programs, their types, and the failures of evaluation with their wording.
-/

namespace MonkeyLang

/-- The functions that every program can use. -/
inductive Builtin where
  /-- The number of characters of a text. -/
  | len
  /-- Prints its arguments, a line each. -/
  | puts
  deriving DecidableEq, Repr, Inhabited

def Builtin.name : Builtin → String
  | .len => "len"
  | .puts => "puts"

/-- How many arguments a builtin function takes; `none` is any number. -/
def Builtin.arity : Builtin → Option Nat
  | .len => some 1
  | .puts => none

/-- The type of a value. -/
inductive ValueType where
  | number
  | string
  | boolean
  | null
  | returned
  | function
  | builtin
  | error
  deriving DecidableEq, Repr, Inhabited

/-- The name of a type in messages. -/
def ValueType.name : ValueType → String
  | .number => "number"
  | .string => "string"
  | .boolean => "boolean"
  | .null => "null"
  | .returned => "return"
  | .function => "function"
  | .builtin => "builtin"
  | .error => "error"

inductive Callee where
  | function
  | builtin
  deriving DecidableEq, Repr

/-- Why an evaluation failed. -/
inductive Failure where
  /-- A name that no scope binds. -/
  | unboundName (name : String)
  /-- An operator that is no prefix operator of its operand's type. -/
  | unknownPrefix (operator : String) (right : ValueType)
  /-- An operator that is no infix operator of its operands' type. -/
  | unknownInfix (left : ValueType) (operator : String) (right : ValueType)
  /-- Operands of different types. -/
  | typeMismatch (left : ValueType) (operator : String) (right : ValueType)
  | divisionByZero
  /-- A call with another number of arguments than the callee takes. -/
  | wrongArity (callee : Callee) (got want : Nat)
  /-- A call of a value that is no function. -/
  | notAFunction (type : ValueType)
  /-- A value without a length. -/
  | noLength (type : ValueType)
  /-- A failure that was handed in from outside. -/
  | reported (message : String)
  deriving DecidableEq, Repr

/-- The wording of a failure. -/
def Failure.message : Failure → String
  | .unboundName name => "identifier not found: " ++ name
  | .unknownPrefix operator right => "unknown operator: " ++ operator ++ right.name
  | .unknownInfix left operator right =>
    "unknown operator: " ++ left.name ++ " " ++ operator ++ " " ++ right.name
  | .typeMismatch left operator right =>
    "type mismatch: " ++ left.name ++ " " ++ operator ++ " " ++ right.name
  | .divisionByZero => "division by zero"
  | .wrongArity _ got want =>
    "wrong number of arguments. got=" ++ toString got ++ ", want=" ++ toString want
  | .notAFunction type => "not a function: " ++ type.name
  | .noLength type => "argument to `len` not supported, got " ++ type.name
  | .reported message => message

/-- The number of a scope in its store. -/
abbrev ScopeId := Nat

/-- A value that evaluation can have. A failure and the value of a `return` on its way out are
values too; a function refers to the scope that it was made in. A `datum` is what a saved tree has
in the place of a text, and is never a text itself. -/
inductive Value where
  | integer (n : Int)
  | string (s : String)
  | datum (j : Json)
  | boolean (b : Bool)
  | null
  | returned (v : Value)
  | function (parameters : List Json) (body : Program) (scope : ScopeId)
  | builtin (b : Builtin)
  | error (f : Failure)
  deriving Repr, Inhabited

namespace Value

/-- The type of a value. -/
def type : Value → ValueType
  | .integer _ => .number
  | .string _ | .datum _ => .string
  | .boolean _ => .boolean
  | .null => .null
  | .returned _ => .returned
  | .function .. => .function
  | .builtin _ => .builtin
  | .error _ => .error

/-- Whether a value counts as true: all do but null and false. -/
def truthy : Value → Bool
  | .null => false
  | .boolean b => b
  | _ => true

def isError : Value → Bool
  | .error _ => true
  | _ => false

def isBuiltin : Value → Bool
  | .builtin _ => true
  | _ => false

/-- The value that a text literal with the given label has. -/
def ofLabel : Json → Value
  | .string s => .string s
  | j => .datum j

/-- The value inside a `return`, where that ends. -/
def unwrapped : Value → Value
  | .returned v => v
  | v => v

end Value

end MonkeyLang
