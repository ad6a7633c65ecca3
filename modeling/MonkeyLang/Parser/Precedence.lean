import MonkeyLang.Token.Kind

/-!
The order of the operators by how tightly they bind, and the tokens that start an operand.
-/

namespace MonkeyLang

/-- How tightly an operator binds, from `lowest` to `call`. -/
inductive Precedence where
  | lowest
  | equality
  | comparison
  | sum
  | product
  | unary
  | call
  deriving DecidableEq, Repr, Inhabited

namespace Precedence

/-- The place of a precedence in their order. -/
def rank : Precedence → Nat
  | .lowest => 1
  | .equality => 2
  | .comparison => 3
  | .sum => 4
  | .product => 5
  | .unary => 6
  | .call => 7

instance : LT Precedence := ⟨fun p q => p.rank < q.rank⟩

instance (p q : Precedence) : Decidable (p < q) :=
  inferInstanceAs (Decidable (p.rank < q.rank))

end Precedence

/-- How tightly a token after an operand binds it. A token that cannot continue an expression
binds no operand at all, which is what `lowest` says. -/
def Kind.precedence : Kind → Precedence
  | .eq | .notEq => .equality
  | .lt | .gt => .comparison
  | .plus | .minus => .sum
  | .asterisk | .slash => .product
  | .lparen => .call
  | _ => .lowest

/-- Whether a token can start an expression. -/
def Kind.startsOperand : Kind → Bool
  | .ident | .int | .string | .kwTrue | .kwFalse | .bang | .minus | .lparen | .kwIf | .kwFn => true
  | _ => false

end MonkeyLang
