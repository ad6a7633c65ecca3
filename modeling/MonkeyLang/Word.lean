import MonkeyLang.Text.Numeral

/-!
Integers of the language are signed 64-bit words: arithmetic keeps the representative of its exact
result between `-2 ^ 63` and `2 ^ 63 - 1`.
-/

namespace MonkeyLang.Word

/-- The greatest word, `2 ^ 63 - 1`. -/
def max : Int := 9223372036854775807

/-- The least word, `-2 ^ 63`. -/
def min : Int := -9223372036854775808

/-- The number of words, `2 ^ 64`. -/
def count : Nat := 18446744073709551616

/-- The word that differs from `n` by a multiple of `2 ^ 64`. -/
def wrap (n : Int) : Int :=
  n.bmod count

/-- The value of a literal that is not above the greatest word. -/
def ofLiteral? (literal : String) : Option Int :=
  match Text.integer literal with
  | .ok n => if n ≤ max then some n else none
  | .error _ => none

theorem min_le_wrap (n : Int) : min ≤ wrap n :=
  Int.le_bmod (by decide)

theorem wrap_le_max (n : Int) : wrap n ≤ max :=
  Int.le_of_lt_add_one (Int.bmod_lt (by decide))

end MonkeyLang.Word
