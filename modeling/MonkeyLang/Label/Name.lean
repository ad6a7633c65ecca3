import MonkeyLang.Label.Fault

/-!
Names that values can be bound to: texts, and the other JSON values without parts. Numbers and truth
values that are equal are the same name, with true as one and false as zero.
-/

namespace MonkeyLang

/-- A name. -/
inductive Name where
  | text (s : String)
  | null
  | boolean (b : Bool)
  | int (n : Int)
  | real (x : Real64)
  deriving DecidableEq, Repr, Inhabited

namespace Name

/-- The form that equal names have in common: a whole number, if the name stands for one. -/
def key : Name → Name
  | .boolean b => .int (if b then 1 else 0)
  | .real x =>
    match x.toInt? with
    | some n => .int n
    | none => .real x
  | name => name

/-- Whether two names are the same. -/
def same (a b : Name) : Bool :=
  a.key = b.key

@[simp]
theorem same_text (s t : String) : same (.text s) (.text t) = decide (s = t) := by
  simp [same, key]

/-- The name as a label. -/
def toJson : Name → Json
  | .text s => .string s
  | .null => .null
  | .boolean b => .bool b
  | .int n => .int n
  | .real x => .real x

def text? : Name → Option String
  | .text s => some s
  | _ => none

end Name

/-- The name that a label is. Arrays and objects are none. -/
def Json.name : Json → Except LabelFault Name
  | .string s => .ok (.text s)
  | .null => .ok .null
  | .bool b => .ok (.boolean b)
  | .int n => .ok (.int n)
  | .real x => .ok (.real x)
  | j => .error (.unhashable j.className)

end MonkeyLang
