import MonkeyLang.Text.Blank
import MonkeyLang.Text.Digit
import MonkeyLang.Text.Quoted

/-!
Integers written as text: an optional sign, then decimal digits of any script with single
underscores between them, with blanks allowed around the whole.
-/

namespace MonkeyLang.Text

/-- Why a text is not an integer. -/
inductive NumeralError where
  /-- It is not a sign and digits. -/
  | malformed (text : String)
  /-- It has more digits than `digitLimit`. -/
  | tooManyDigits (count : Nat)
  deriving DecidableEq, Repr

/-- The greatest number of digits, leading zeros included, that is read. -/
def digitLimit : Nat := 4300

/-- The greatest length of the quoted text in the message for a malformed numeral. -/
def numeralExcerpt : Nat := 200

/-- The wording of a numeral error. -/
def NumeralError.message : NumeralError → String
  | .malformed text =>
    "invalid literal for int() with base 10: " ++
      String.ofList ((quotedChars text.toList).take numeralExcerpt)
  | .tooManyDigits count =>
    "Exceeds the limit (" ++ toString digitLimit ++
      " digits) for integer string conversion: value has " ++ toString count ++
      " digits; use sys.set_int_max_str_digits() to increase the limit"

/-- The blanks around a numeral: the usual ones without the information separators. -/
def isNumeralBlank (c : Char) : Bool :=
  isBlank c && !(0x1c ≤ c.toNat && c.toNat ≤ 0x1f)

/-- The number that `digits` write in base ten, most significant digit first. -/
def ofDigits (digits : List Nat) : Nat :=
  digits.foldl (fun n d => n * 10 + d) 0

/-- The leading digits of a text, with an underscore allowed between two of them, and what
follows. There is no result where an underscore is not followed by a digit. -/
def digitRun : List Char → Option (List Nat × List Char)
  | [] => some ([], [])
  | c :: cs =>
    match decimalDigit? c with
    | none => some ([], c :: cs)
    | some d =>
      match cs with
      | '_' :: c' :: cs' =>
        if (decimalDigit? c').isSome then
          (digitRun (c' :: cs')).map fun r => (d :: r.1, r.2)
        else none
      | ['_'] => none
      | cs => (digitRun cs).map fun r => (d :: r.1, r.2)

/-- The unsigned integer that makes up all of `cs`. The digits are counted before anything that
follows them is looked at; `text` is quoted in the error. -/
def unsigned (text : String) (cs : List Char) : Except NumeralError Nat :=
  match digitRun cs with
  | none => .error (.malformed text)
  | some (digits, rest) =>
    if digits.isEmpty then .error (.malformed text)
    else if digitLimit < digits.length then .error (.tooManyDigits digits.length)
    else if rest.isEmpty then .ok (ofDigits digits)
    else .error (.malformed text)

/-- The integer that a text writes. -/
def integer (text : String) : Except NumeralError Int :=
  match trim isNumeralBlank text.toList with
  | '+' :: cs => (unsigned text cs).map Int.ofNat
  | '-' :: cs => (unsigned text cs).map fun n => -(n : Int)
  | cs => (unsigned text cs).map Int.ofNat

end MonkeyLang.Text
