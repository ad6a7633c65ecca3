import MonkeyLang.Json.Basic
import MonkeyLang.Text.Numeral

/-!
Reading JSON texts. Every reader takes the characters that are left and gives what it read and
the characters after it. Besides the standard's values the words `NaN`, `Infinity` and
`-Infinity` are numbers.
-/

namespace MonkeyLang.Json

/-- Why a text cannot be read. -/
inductive ReadError where
  /-- It is not JSON. -/
  | malformed
  /-- Its values nest too deep. -/
  | tooDeep
  /-- It has a whole number with too many digits. -/
  | numeral (e : Text.NumeralError)
  deriving DecidableEq, Repr

abbrev Reader (α : Type) := List Char → Except ReadError (α × List Char)

/-- The blanks between the parts of a value. -/
def isGap (c : Char) : Bool :=
  c = ' ' || c = '\t' || c = '\n' || c = '\r'

def skipGap (cs : List Char) : List Char :=
  cs.dropWhile isGap

/-- The value of a hexadecimal digit. -/
def hexDigit? (c : Char) : Option Nat :=
  if '0' ≤ c && c ≤ '9' then some (c.toNat - '0'.toNat)
  else if 'a' ≤ c && c ≤ 'f' then some (c.toNat - 'a'.toNat + 10)
  else if 'A' ≤ c && c ≤ 'F' then some (c.toNat - 'A'.toNat + 10)
  else none

def hex4? (a b c d : Char) : Option Nat := do
  return (((← hexDigit? a) * 16 + (← hexDigit? b)) * 16 + (← hexDigit? c)) * 16 + (← hexDigit? d)

/-- The character of an escape of one letter. -/
def escape? : Char → Option Char
  | '"' => some '"'
  | '\\' => some '\\'
  | '/' => some '/'
  | 'b' => some '\x08'
  | 'f' => some '\x0c'
  | 'n' => some '\n'
  | 'r' => some '\r'
  | 't' => some '\t'
  | _ => none

/-- The character of the unit `n`. Half of a pair without the other half is no character, and a
`String` cannot hold it: all such halves are read as the replacement character, so texts that differ
in nothing else are not told apart, though JSON has them as different strings. -/
def ofUnit (n : Nat) : Char :=
  if 0xd800 ≤ n ∧ n < 0xe000 then '\ufffd' else Char.ofNat n

/-- The character of the units `high` and `low`, where they are the two halves of a pair. -/
def ofPair? (high low : Nat) : Option Char :=
  if 0xd800 ≤ high ∧ high < 0xdc00 ∧ 0xdc00 ≤ low ∧ low < 0xe000 then
    some (Char.ofNat (0x10000 + (high - 0xd800) * 0x400 + (low - 0xdc00)))
  else none

/-- The second half of a pair that follows as an escape, joined with the first half `high`. -/
def pairWith? (high : Nat) : List Char → Option (Char × List Char)
  | '\\' :: 'u' :: a :: b :: c :: d :: cs => do
    let low ← hex4? a b c d
    let joined ← ofPair? high low
    return (joined, cs)
  | _ => none

theorem pairWith?_length {high : Nat} {cs rest : List Char} {c : Char}
    (h : pairWith? high cs = some (c, rest)) : rest.length < cs.length := by
  unfold pairWith? at h
  split at h
  · simp only [bind, Option.bind_eq_some_iff, pure, Option.some.injEq, Prod.mk.injEq] at h
    obtain ⟨_, _, _, _, _, rfl⟩ := h
    simp only [List.length_cons]
    omega
  · cases h

/-- The rest of a string whose opening quote was read, behind the reversed characters `acc`. -/
def stringTail (acc cs : List Char) : Except ReadError (String × List Char) :=
  match cs with
  | [] => .error .malformed
  | '"' :: cs => .ok (String.ofList acc.reverse, cs)
  | '\\' :: 'u' :: a :: b :: c :: d :: cs =>
    match hex4? a b c d with
    | none => .error .malformed
    | some unit =>
      match _h : pairWith? unit cs with
      | some (joined, rest) => stringTail (joined :: acc) rest
      | none => stringTail (ofUnit unit :: acc) cs
  | '\\' :: e :: cs =>
    match escape? e with
    | none => .error .malformed
    | some c => stringTail (c :: acc) cs
  | c :: cs => if c.toNat < 0x20 || c = '\\' then .error .malformed else stringTail (c :: acc) cs
termination_by cs.length
decreasing_by
  all_goals simp only [List.length_cons]
  · have := pairWith?_length _h
    omega
  all_goals omega

/-- The digits at the start. -/
def digits (cs : List Char) : List Char × List Char :=
  (cs.takeWhile isAsciiDigit, cs.dropWhile isAsciiDigit)
where
  isAsciiDigit (c : Char) : Bool := '0' ≤ c && c ≤ '9'

/-- The number that ASCII digits write. -/
def ofDigits (ds : List Char) : Nat :=
  Text.ofDigits (ds.map fun c => c.toNat - '0'.toNat)

/-- The digits after a point, if there are any. -/
def fraction? : List Char → Option (List Char × List Char)
  | '.' :: cs =>
    match digits cs with
    | ([], _) => none
    | r => some r
  | _ => none

/-- The power of ten after an `e`, if there is one. -/
def exponent? : List Char → Option (Int × List Char)
  | e :: cs =>
    if e = 'e' ∨ e = 'E' then
      let (negative, cs) := match cs with
        | '-' :: cs => (true, cs)
        | '+' :: cs => (false, cs)
        | cs => (false, cs)
      match digits cs with
      | ([], _) => none
      | (ds, rest) => some (if negative then -(ofDigits ds : Int) else ofDigits ds, rest)
    else none
  | [] => none

/-- A number, after its sign. A zero at the start is the whole of the digits before the point. -/
def number (negative : Bool) : Reader Json := fun cs =>
  let (whole, rest) := match cs with
    | '0' :: cs => (['0'], cs)
    | cs => digits cs
  if whole.isEmpty then .error .malformed
  else
    let frac := fraction? rest
    let afterFrac := (frac.map (·.2)).getD rest
    let exp := exponent? afterFrac
    let afterExp := (exp.map (·.2)).getD afterFrac
    if frac.isNone && exp.isNone then
      if Text.digitLimit < whole.length then .error (.numeral (.tooManyDigits whole.length))
      else
        let n : Int := ofDigits whole
        .ok (.int (if negative then -n else n), rest)
    else
      let places := (frac.map (·.1)).getD []
      let power := (exp.map (·.1)).getD 0 - places.length
      .ok (.real (.ofDecimal negative (ofDigits (whole ++ places)) power), afterExp)

/-- The fixed word `word`, which stands for `value`. -/
def word (text : String) (value : Json) : Reader Json := fun cs =>
  if text.toList.isPrefixOf cs then .ok (value, cs.drop text.length) else .error .malformed

/-- The elements of an array that has at least one, up to its closing bracket. There are at most
`fuel` of them. -/
def elements (value : Reader Json) : (fuel : Nat) → Reader (List Json)
  | 0, _ => .error .malformed
  | fuel + 1, cs => do
    let (j, cs) ← value cs
    match skipGap cs with
    | ']' :: cs => return ([j], cs)
    | ',' :: cs =>
      let (js, cs) ← elements value fuel (skipGap cs)
      return (j :: js, cs)
    | _ => throw .malformed

/-- The fields of an object that has at least one, up to its closing brace. There are at most
`fuel` of them. -/
def fields (value : Reader Json) : (fuel : Nat) → List (String × Json) →
    Reader (List (String × Json))
  | 0, _, _ => .error .malformed
  | fuel + 1, done, cs =>
    match cs with
    | '"' :: cs => do
      let (key, cs) ← stringTail [] cs
      match skipGap cs with
      | ':' :: cs =>
        let (j, cs) ← value (skipGap cs)
        let done := setField key j done
        match skipGap cs with
        | '}' :: cs => return (done, cs)
        | ',' :: cs => fields value fuel done (skipGap cs)
        | _ => throw .malformed
      | _ => throw .malformed
    | _ => .error .malformed

/-- A value, where `inner` reads the values inside it. -/
def valueWith (inner : Reader Json) : Reader Json
  | [] => .error .malformed
  | '"' :: cs => do
    let (s, cs) ← stringTail [] cs
    return (.string s, cs)
  | '[' :: cs =>
    match skipGap cs with
    | ']' :: cs => .ok (.array [], cs)
    | cs => do
      let (js, cs) ← elements inner (cs.length + 1) cs
      return (.array js, cs)
  | '{' :: cs =>
    match skipGap cs with
    | '}' :: cs => .ok (.object [], cs)
    | cs => do
      let (fs, cs) ← fields inner (cs.length + 1) [] cs
      return (.object fs, cs)
  | 'n' :: cs => word "null" .null ('n' :: cs)
  | 't' :: cs => word "true" (.bool true) ('t' :: cs)
  | 'f' :: cs => word "false" (.bool false) ('f' :: cs)
  | 'N' :: cs => word "NaN" (.real .nan) ('N' :: cs)
  | 'I' :: cs => word "Infinity" (.real (.infinite false)) ('I' :: cs)
  | '-' :: 'I' :: cs => word "-Infinity" (.real (.infinite true)) ('-' :: 'I' :: cs)
  | '-' :: cs => number true cs
  | cs => number false cs

/-- A value whose parts nest below `budget` levels. -/
def value : (budget : Nat) → Reader Json
  | 0, _ => .error .tooDeep
  | budget + 1, cs => valueWith (value budget) cs

/-- The value that a text writes, with blanks around it allowed and nothing else. -/
def read (budget : Nat) (text : String) : Except ReadError Json := do
  let (j, cs) ← value budget (skipGap text.toList)
  if (skipGap cs).isEmpty then return j else throw .malformed

end MonkeyLang.Json
