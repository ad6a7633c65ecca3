/-!
The numbers that JSON texts write with a point or an exponent. They are kept to the precision of
a 64-bit binary number: a sign and a mantissa times a power of two.
-/

namespace MonkeyLang

/-- A number with 53 binary digits, or one of the three special ones. -/
inductive Real64 where
  /-- The number `mantissa * 2 ^ exponent`, with a sign that zero has too. -/
  | finite (negative : Bool) (mantissa : Nat) (exponent : Int)
  | infinite (negative : Bool)
  | nan
  deriving DecidableEq, Repr, Inhabited

namespace Real64

/-- The integer nearest to `n / d`; a half goes to the even neighbour. -/
def roundDiv (n d : Nat) : Nat :=
  let q := n / d
  let twice := 2 * (n % d)
  if twice < d then q
  else if d < twice then q + 1
  else if q % 2 = 0 then q else q + 1

/-- The least and the greatest exponent of two. -/
def minExponent : Int := -1074
def maxExponent : Int := 971

/-- The quotient `n / d` times `base ^ (-e)`, as a quotient of naturals. -/
def scale (base n d : Nat) (e : Int) : Nat × Nat :=
  if e < 0 then (n * base.pow (-e).toNat, d) else (n, d * base.pow e.toNat)

/-- The least mantissa with 53 binary digits. -/
def leastFull : Nat := Nat.pow 2 52

/-- The number nearest to the positive quotient `n / d`. -/
def ofQuotient (negative : Bool) (n d : Nat) : Real64 :=
  let guess : Int := (Nat.log2 n : Int) - (Nat.log2 d : Int) - 52
  -- The quotient of two numbers has as many binary digits as the guess says, or one less.
  let (n₁, d₁) := scale 2 n d guess
  let e := max minExponent (if n₁ < d₁ * leastFull then guess - 1 else guess)
  let (n₂, d₂) := scale 2 n d e
  let m := roundDiv n₂ d₂
  let (m, e) := if m = 2 * leastFull then (leastFull, e + 1) else (m, e)
  if maxExponent < e then .infinite negative else .finite negative m e

/-- The number nearest to `digits * 10 ^ exponent`. -/
def ofDecimal (negative : Bool) (digits : Nat) (exponent : Int) : Real64 :=
  if digits = 0 then .finite negative 0 0
  else
    -- The value lies below `10 ^ top` and not below `10 ^ (top - 1)`.
    let top : Int := (Nat.toDigits 10 digits).length + exponent
    if 310 < top then .infinite negative
    else if top < -330 then .finite negative 0 0
    else
      let (n, d) := scale 10 digits 1 (-exponent)
      ofQuotient negative n d

def isZero : Real64 → Bool
  | .finite _ m _ => m = 0
  | _ => false

/-- The integer part of `mantissa * 2 ^ exponent`. -/
def magnitude (mantissa : Nat) (exponent : Int) : Nat :=
  let (n, d) := scale 2 mantissa 1 (-exponent)
  n / d

/-- The integer that the number is, if it is one. -/
def toInt? : Real64 → Option Int
  | .finite negative m e =>
    let (n, d) := scale 2 m 1 (-e)
    if n % d = 0 then some (if negative then -(n / d : Nat) else (n / d : Nat)) else none
  | _ => none

def ofInt (n : Int) : Real64 :=
  if n = 0 then .finite false 0 0 else ofQuotient (n < 0) n.natAbs 1

/-- The integer `mantissa * 2 ^ exponent` with its sign, for an exponent that is not negative. -/
def shifted (negative : Bool) (mantissa : Nat) (exponent : Int) : Int :=
  let n : Nat := mantissa * Nat.pow 2 exponent.toNat
  if negative then -n else n

/-- The number nearest to the sum. A sum of zero is negative only if both numbers are. -/
def add : Real64 → Real64 → Real64
  | .nan, _ | _, .nan => .nan
  | .infinite a, .infinite b => if a = b then .infinite a else .nan
  | .infinite a, .finite .. | .finite .., .infinite a => .infinite a
  | .finite a m e, .finite b n f =>
    let low := if e < f then e else f
    let sum := shifted a m (e - low) + shifted b n (f - low)
    if sum = 0 then .finite (a && b) 0 0
    else
      let (p, q) := scale 2 sum.natAbs 1 (-low)
      ofQuotient (sum < 0) p q

/-- The decimal exponent `k` with `10 ^ k ≤ n / d < 10 ^ (k + 1)`, found from an estimate that is
at most `fuel` too great. -/
def decimalExponent (n d : Nat) : (fuel : Nat) → Int → Int
  | 0, k => k
  | fuel + 1, k =>
    let (n₁, d₁) := scale 10 n d k
    if d₁ ≤ n₁ then k else decimalExponent n d fuel (k - 1)

/-- The shortest decimal that reads back as the positive number `x`, which is `n / d`: the first
of the candidates with `count`, `count + 1`, … digits that does, nearest ones first. The result
is a digit sequence and the power of ten of its last digit. -/
def shortest (x : Real64) (n d : Nat) (k : Int) : (fuel count : Nat) → Nat × Int
  | 0, _ => (0, 0)
  | fuel + 1, count =>
    let e := k - (count - 1 : Nat)
    let (n₁, d₁) := scale 10 n d e
    let below := n₁ / d₁
    let near := roundDiv n₁ d₁
    let other := if near = below then below + 1 else below
    if ofDecimal false near e = x then (near, e)
    else if ofDecimal false other e = x then (other, e)
    else shortest x n d k fuel (count + 1)

/-- The digits of `digits * 10 ^ exponent` as text: positional from 10⁻⁴ up to below 10¹⁶, with a
point in any case, and with an exponent of at least two digits otherwise. -/
def layout (digits : Nat) (exponent : Int) : List Char :=
  let ds := Nat.toDigits 10 digits
  let top := exponent + ds.length - 1
  if -4 ≤ top && top < 16 then
    if 0 ≤ exponent then ds ++ List.replicate exponent.toNat '0' ++ ['.', '0']
    else
      let places := (-exponent).toNat
      let ds := List.replicate (places + 1 - ds.length) '0' ++ ds
      ds.take (ds.length - places) ++ '.' :: ds.drop (ds.length - places)
  else
    let mantissa := match ds with
      | [d] => [d]
      | d :: rest => d :: '.' :: rest
      | [] => ['0']
    let size := Nat.toDigits 10 top.natAbs
    let size := List.replicate (2 - size.length) '0' ++ size
    mantissa ++ 'e' :: (if top < 0 then '-' else '+') :: size

/-- The digits without the zeros at their end, and the power of ten that makes up for them. -/
def dropZeros : (fuel digits : Nat) → Int → Nat × Int
  | 0, digits, e => (digits, e)
  | fuel + 1, digits, e =>
    if digits ≠ 0 ∧ digits % 10 = 0 then dropZeros fuel (digits / 10) (e + 1) else (digits, e)

/-- The text of a number: the fewest digits that read back as it. -/
def text : Real64 → List Char
  | .nan => "nan".toList
  | .infinite negative => if negative then "-inf".toList else "inf".toList
  | .finite negative m e =>
    let body :=
      if m = 0 then "0.0".toList
      else
        let (n, d) := scale 2 m 1 (-e)
        let estimate : Int := ((Nat.log2 n : Int) - (Nat.log2 d : Int) + 1) * 30103 / 100000 + 1
        let k := decimalExponent n d 4 estimate
        let (digits, exponent) := shortest (.finite false m e) n d k 17 1
        let (digits, exponent) := dropZeros 17 digits exponent
        layout digits exponent
    if negative then '-' :: body else body

end Real64

end MonkeyLang
