import MonkeyLang.Json.Basic

/-!
What can go wrong with a label. In program text every label is a text and nothing can; a saved tree
may have any JSON value in the place of one.
-/

namespace MonkeyLang

/-- Why a label cannot be used as it was to be. Values are told apart by the words for their
classes. -/
inductive LabelFault where
  /-- An array or an object in the place of a name. -/
  | unhashable (className : String)
  /-- A name that is no text was to be rendered. -/
  | nameNotText (className : String)
  /-- The parameter number `index` is no text and was to be noted. -/
  | parameterNotText (index : Nat) (className : String)
  /-- A value without a length. -/
  | noLength (className : String)
  /-- A value of the class `added` was to be appended to one of the class `kept`, which takes only
  its own kind. -/
  | cannotAppend (kept added : String)
  /-- Two values without a sum. -/
  | noSum (left right : String)
  /-- A whole number in a sum with a real one is too large to be one. -/
  | tooLarge
  deriving DecidableEq, Repr

/-- The wording of a fault. -/
def LabelFault.message : LabelFault → String
  | .unhashable className => "unhashable type: '" ++ className ++ "'"
  | .nameNotText className => "__str__ returned non-string (type " ++ className ++ ")"
  | .parameterNotText index className =>
    "sequence item " ++ toString index ++ ": expected str instance, " ++ className ++ " found"
  | .noLength className => "object of type '" ++ className ++ "' has no len()"
  | .cannotAppend kept added =>
    "can only concatenate " ++ kept ++ " (not \"" ++ added ++ "\") to " ++ kept
  | .noSum left right =>
    "unsupported operand type(s) for +: '" ++ left ++ "' and '" ++ right ++ "'"
  | .tooLarge => "int too large to convert to float"

def Json.nonText? : Json → Option Json
  | .string _ => none
  | j => some j

end MonkeyLang
