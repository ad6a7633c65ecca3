import MonkeyLang.Label.Fault

/-!
The operations on texts, for any JSON value in the place of one. Arrays are joined as texts are, and
numbers are added, with true as one and false as zero.
-/

namespace MonkeyLang.Json

/-- The number of characters, elements or fields. -/
def size : Json → Except LabelFault Nat
  | .string s => .ok s.length
  | .array elements => .ok elements.length
  | .object fields => .ok fields.length
  | j => .error (.noLength j.className)

/-- The whole number that a value is. -/
def whole? : Json → Option Int
  | .int n => some n
  | .bool b => some (if b then 1 else 0)
  | _ => none

/-- The real number that a value is, where there is one for each whole number that is not too
large. -/
def real? : Json → Option (Except LabelFault Real64)
  | .real x => some (.ok x)
  | j =>
    j.whole?.map fun n =>
      match Real64.ofInt n with
      | .infinite _ => .error .tooLarge
      | x => .ok x

/-- The sum of two numbers, which is whole if both are, and none if one is no number. -/
def numberSum? (a b : Json) : Option (Except LabelFault Json) :=
  match a.whole?, b.whole? with
  | some m, some n => some (.ok (.int (m + n)))
  | _, _ => do
    let x ← a.real?
    let y ← b.real?
    return do return .real ((← x).add (← y))

/-- The sum of two values. -/
def sum (a b : Json) : Except LabelFault Json :=
  match a, b with
  | .string s, .string t => .ok (.string (s ++ t))
  | .array as, .array bs => .ok (.array (as ++ bs))
  | .string _, b | .array _, b => .error (.cannotAppend a.className b.className)
  | a, b => (numberSum? a b).getD (.error (.noSum a.className b.className))

end MonkeyLang.Json
