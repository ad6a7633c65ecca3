import MonkeyLang.Proofs.Eval.Run

/-!
# Arithmetic on words

The integers of the language are exact, and every operation wraps its result. Expressions of
literals, negation and the four operations of arithmetic have the value that a machine with signed
64-bit words in two's complement comes to: `Arithmetic.eval_tree`. Wrapping goes through sums,
differences, products and negation, so it makes no difference whether it is done at each step or at
the end; a quotient has to be looked at by itself (`Word.toInt_floorQuotient`).
-/

namespace MonkeyLang

/-! ## Words -/

namespace Word

/-- The quotient of two words rounded down. The division of a machine rounds toward zero, so its
quotient is one too great where there is a remainder and the signs differ. -/
def floorQuotient (x y : BitVec 64) : BitVec 64 :=
  if x.srem y ≠ 0#64 ∧ x.slt 0#64 ≠ y.slt 0#64 then x.sdiv y - 1#64 else x.sdiv y

theorem toInt_ofInt (n : Int) : (BitVec.ofInt 64 n).toInt = wrap n := by
  rw [BitVec.toInt_ofInt]
  rfl

theorem wrap_of_mem {n : Int} (h : min ≤ n ∧ n ≤ max) : wrap n = n :=
  Int.bmod_eq_of_le h.1 (Int.lt_add_one_of_le h.2)

theorem toInt_mem (x : BitVec 64) : min ≤ x.toInt ∧ x.toInt ≤ max :=
  ⟨BitVec.le_toInt x, Int.le_of_lt_add_one BitVec.toInt_lt⟩

theorem toInt_eq_zero_iff {x : BitVec 64} : x.toInt = 0 ↔ x = 0#64 :=
  BitVec.toInt_inj (y := 0#64)

/-- Rounding down, by the quotient that is rounded toward zero. -/
theorem fdiv_eq_tdiv {a b : Int} (hb : b ≠ 0) :
    a.fdiv b = if a.tmod b ≠ 0 ∧ (a < 0 ↔ 0 < b) then a.tdiv b - 1 else a.tdiv b := by
  have hd : b ∣ a ↔ a.tmod b = 0 := Int.dvd_iff_tmod_eq_zero
  rw [Int.fdiv_eq_tdiv]
  by_cases hr : a.tmod b = 0
  · simp [hd, hr]
  · rcases Int.lt_or_gt_of_ne hb with hb | hb
    · have hs := Int.sign_eq_neg_one_of_neg hb
      by_cases ha : a < 0 <;> simp [hd, hr, hs] <;> omega
    · have hs := Int.sign_eq_one_of_pos hb
      by_cases ha : a < 0 <;> simp [hd, hr, hs] <;> omega

theorem floorQuotient_eq {x y : BitVec 64} (hy : y ≠ 0#64) :
    floorQuotient x y = BitVec.ofInt 64 (x.toInt.fdiv y.toInt) := by
  have hq : x.sdiv y = BitVec.ofInt 64 (x.toInt.tdiv y.toInt) := by
    refine BitVec.eq_of_toInt_eq ?_
    rw [BitVec.toInt_sdiv, BitVec.toInt_ofInt]
  have hr : x.srem y ≠ 0#64 ↔ x.toInt.tmod y.toInt ≠ 0 := by
    rw [← BitVec.toInt_srem, Ne, Ne, toInt_eq_zero_iff]
  have hs : x.slt 0#64 ≠ y.slt 0#64 ↔ (x.toInt < 0 ↔ 0 < y.toInt) := by
    have hy' : y.toInt ≠ 0 := mt toInt_eq_zero_iff.1 hy
    rw [Ne, Bool.eq_iff_iff, BitVec.slt_iff_toInt_lt, BitVec.slt_iff_toInt_lt, BitVec.toInt_zero]
    omega
  rw [fdiv_eq_tdiv (mt toInt_eq_zero_iff.1 hy), floorQuotient]
  simp only [hr, hs]
  split
  · rw [hq, Int.sub_eq_add_neg, BitVec.ofInt_add, BitVec.sub_eq_add_neg, BitVec.ofInt_neg]
    rfl
  · exact hq

/-- A quotient of words is a word, but for that of the least one by minus one. -/
theorem fdiv_mem {a b : Int} (ha : min ≤ a ∧ a ≤ max) (hb : b ≠ 0) (hne : ¬ (a = min ∧ b = -1)) :
    min ≤ a.fdiv b ∧ a.fdiv b ≤ max := by
  have bounds (a b : Int) (hb : 0 < b) (hl : min * b ≤ a) (hu : a < (max + 1) * b) :
      min ≤ a.fdiv b ∧ a.fdiv b ≤ max := by
    rw [Int.fdiv_eq_ediv_of_nonneg _ (Int.le_of_lt hb)]
    exact ⟨(Int.le_ediv_iff_mul_le hb).2 hl,
      Int.le_of_lt_add_one ((Int.ediv_lt_iff_lt_mul hb).2 hu)⟩
  unfold min max at *
  rcases Int.lt_or_gt_of_ne hb with hb | hb
  · -- the negative of the least word is too great by one, which only a divisor of one leaves so
    rw [← Int.neg_fdiv_neg]
    exact bounds (-a) (-b) (by omega) (by omega) (by omega)
  · exact bounds a b hb (by omega) (by omega)

/-- The quotient is exact, but for that of the least word by minus one, which is the least word
again. -/
theorem toInt_floorQuotient {x y : BitVec 64} (hy : y ≠ 0#64) :
    (floorQuotient x y).toInt =
      if x = BitVec.intMin 64 ∧ y = -1#64 then min else x.toInt.fdiv y.toInt := by
  by_cases h : x = BitVec.intMin 64 ∧ y = -1#64
  · obtain ⟨rfl, rfl⟩ := h
    decide
  · rw [if_neg h, floorQuotient_eq hy, toInt_ofInt]
    refine wrap_of_mem (fdiv_mem (toInt_mem x) (mt toInt_eq_zero_iff.1 hy) fun he => h ?_)
    exact ⟨BitVec.eq_of_toInt_eq he.1, BitVec.eq_of_toInt_eq he.2⟩

end Word

/-! ## Expressions -/

/-- The operations of arithmetic between two numbers. -/
inductive ArithmeticOperator where
  | add
  | subtract
  | multiply
  | divide
  deriving DecidableEq, Repr

namespace ArithmeticOperator

def symbol : ArithmeticOperator → String
  | .add => "+"
  | .subtract => "-"
  | .multiply => "*"
  | .divide => "/"

/-- The operation of a machine. -/
def onWords : ArithmeticOperator → BitVec 64 → BitVec 64 → BitVec 64
  | .add, x, y => x + y
  | .subtract, x, y => x - y
  | .multiply, x, y => x * y
  | .divide, x, y => Word.floorQuotient x y

/-- The operation of mathematics. -/
def onIntegers : ArithmeticOperator → Int → Int → Int
  | .add, a, b => a + b
  | .subtract, a, b => a - b
  | .multiply, a, b => a * b
  | .divide, a, b => a.fdiv b

/-- All operations but division go through the step from a number to its word. -/
theorem onWords_ofInt {o : ArithmeticOperator} (h : o ≠ .divide) (a b : Int) :
    o.onWords (BitVec.ofInt 64 a) (BitVec.ofInt 64 b) = BitVec.ofInt 64 (o.onIntegers a b) := by
  cases o with
  | add => exact (BitVec.ofInt_add a b).symm
  | subtract =>
    rw [onIntegers, Int.sub_eq_add_neg, BitVec.ofInt_add, BitVec.ofInt_neg, ← BitVec.sub_eq_add_neg]
    rfl
  | multiply => exact (BitVec.ofInt_mul a b).symm
  | divide => exact absurd rfl h

/-- An operation on the numbers of two words has the number of a word, unless it divides by zero. -/
theorem integerInfix_toInt (o : ArithmeticOperator) (x y : BitVec 64) :
    integerInfix o.symbol x.toInt y.toInt =
      if o = .divide ∧ y = 0#64 then .error .divisionByZero
      else .integer (o.onWords x y).toInt := by
  cases o with
  | add => exact congrArg Value.integer (BitVec.toInt_add x y).symm
  | subtract => exact congrArg Value.integer BitVec.toInt_sub.symm
  | multiply => exact congrArg Value.integer (BitVec.toInt_mul x y).symm
  | divide =>
    by_cases hy : y = 0#64
    · rw [if_pos ⟨rfl, hy⟩]
      exact if_pos (Word.toInt_eq_zero_iff.2 hy)
    · rw [if_neg fun h => hy h.2, onWords, Word.floorQuotient_eq hy, Word.toInt_ofInt]
      exact if_neg (mt Word.toInt_eq_zero_iff.1 hy)

end ArithmeticOperator

/-- Expressions of literals, negation and the operations of arithmetic. -/
inductive Arithmetic where
  | literal (n : Int) (h : 0 ≤ n ∧ n ≤ Word.max)
  | negate (e : Arithmetic)
  | operate (l : Arithmetic) (o : ArithmeticOperator) (r : Arithmetic)

namespace Arithmetic

def tree : Arithmetic → Program
  | .literal n _ => .integer n
  | .negate e => .prefixed (.string "-") e.tree
  | .operate l o r => .infixed l.tree (.string o.symbol) r.tree

/-- How deep the operations of an expression nest. -/
def depth : Arithmetic → Nat
  | .literal .. => 0
  | .negate e => e.depth + 1
  | .operate l _ r => max l.depth r.depth + 1

/-- The word that a machine comes to from left to right, unless it comes to a division by zero. -/
def word? : Arithmetic → Option (BitVec 64)
  | .literal n _ => some (BitVec.ofInt 64 n)
  | .negate e => e.word?.map (-·)
  | .operate l o r => do
    let x ← l.word?
    let y ← r.word?
    if o = .divide ∧ y = 0#64 then none else some (o.onWords x y)

/-- The number of mathematics. -/
def exactValue : Arithmetic → Int
  | .literal n _ => n
  | .negate e => -e.exactValue
  | .operate l o r => o.onIntegers l.exactValue r.exactValue

def divides : Arithmetic → Bool
  | .literal .. => false
  | .negate e => e.divides
  | .operate l o r => o == .divide || l.divides || r.divides

/-- The part `d` of an expression is come to from left to right: what stands to the left of it has a
value. -/
inductive ComesTo (d : Arithmetic) : Arithmetic → Prop where
  | here : ComesTo d d
  | operand {e : Arithmetic} : ComesTo d e → ComesTo d (.negate e)
  | left {l r : Arithmetic} {o : ArithmeticOperator} : ComesTo d l → ComesTo d (.operate l o r)
  | right {l r : Arithmetic} {o : ArithmeticOperator} {x : BitVec 64} :
      l.word? = some x → ComesTo d r → ComesTo d (.operate l o r)

/-- A division is come to whose divisor is zero. -/
def DividesByZero (e : Arithmetic) : Prop :=
  ∃ l r x, ComesTo (.operate l .divide r) e ∧ l.word? = some x ∧ r.word? = some 0#64

/-- A tree divides by zero if it comes to all that a tree comes to which does. -/
theorem DividesByZero.imp {e e' : Arithmetic} (h : e.DividesByZero)
    (hc : ∀ d, ComesTo d e → ComesTo d e') : e'.DividesByZero := by
  obtain ⟨l, r, x, hd, hl, hr⟩ := h
  exact ⟨l, r, x, hc _ hd, hl, hr⟩

/-- An operation has a word if its operands have, and if it does not divide by zero. -/
theorem word?_operate {l r : Arithmetic} {x y : BitVec 64} (hl : l.word? = some x)
    (hr : r.word? = some y) (o : ArithmeticOperator) :
    (operate l o r).word? = if o = .divide ∧ y = 0#64 then none else some (o.onWords x y) := by
  rw [word?, hl, hr]
  rfl

/-- A machine comes to no word exactly where it comes to a division by zero. -/
theorem word?_eq_none_iff (e : Arithmetic) : e.word? = none ↔ e.DividesByZero := by
  constructor
  · intro h
    induction e with
    | literal n hn => cases h
    | negate e ih => exact (ih (Option.map_eq_none_iff.1 h)).imp fun d => .operand
    | operate l o r ihl ihr =>
      cases hl : l.word? with
      | none => exact (ihl hl).imp fun d => .left
      | some x =>
        cases hr : r.word? with
        | none => exact (ihr hr).imp fun d => .right hl
        | some y =>
          -- both operands have a word, so it is this division
          rw [word?_operate hl hr] at h
          split at h
          · next ho =>
            obtain ⟨rfl, rfl⟩ := ho
            exact ⟨l, r, x, .here, hl, hr⟩
          · cases h
  · rintro ⟨l, r, x, hd, hl, hr⟩
    induction hd with
    | here => exact (word?_operate hl hr .divide).trans (if_pos ⟨rfl, rfl⟩)
    | operand _ ih => rw [word?, ih]; rfl
    | left _ ih => rw [word?, ih]; rfl
    | right hx _ ih => rw [word?, hx, ih]; rfl

/-- Without a division, the word is that of the number of mathematics. -/
theorem word?_of_not_divides {e : Arithmetic} (h : e.divides = false) :
    e.word? = some (BitVec.ofInt 64 e.exactValue) := by
  induction e with
  | literal n hn => rfl
  | negate e ih =>
    rw [word?, ih h, exactValue, BitVec.ofInt_neg]
    rfl
  | operate l o r ihl ihr =>
    simp only [divides, Bool.or_eq_false_iff, beq_eq_false_iff_ne] at h
    obtain ⟨⟨ho, hl⟩, hr⟩ := h
    rw [word?_operate (ihl hl) (ihr hr), if_neg fun hd => ho hd.1, o.onWords_ofInt ho]
    rfl

/-! ## Evaluation -/

def value (e : Arithmetic) : Value :=
  match e.word? with
  | some x => .integer x.toInt
  | none => .error .divisionByZero

theorem value_of_some {e : Arithmetic} {x : BitVec 64} (h : e.word? = some x) :
    e.value = .integer x.toInt := by
  rw [value, h]

theorem value_of_none {e : Arithmetic} (h : e.word? = none) :
    e.value = .error .divisionByZero := by
  rw [value, h]

variable {settings : Settings} {scope : ScopeId} {m : Machine} {n : Nat} {e l r : Arithmetic}
  {o : ArithmeticOperator}

/-- One level more of the budget for the sign. -/
theorem eval_negate (h : eval settings n e.tree scope m = .done e.value m) :
    eval settings (n + 1) (negate e).tree scope m = .done (negate e).value m := by
  show Run.unlessError _ _ m = _
  cases he : e.word? with
  | none =>
    rw [value_of_none he] at h
    rw [Run.unlessError_of_error h rfl, value_of_none (by rw [word?, he]; rfl)]
  | some x =>
    rw [value_of_some he] at h
    rw [Run.unlessError_of_done h rfl, value_of_some (x := -x) (by rw [word?, he]; rfl),
      BitVec.toInt_neg]
    rfl

/-- One level more of the budget for the operator. The right operand is evaluated only where the
left one has a word. -/
theorem eval_operate (hl : eval settings n l.tree scope m = .done l.value m)
    (hr : ∀ x, l.word? = some x → eval settings n r.tree scope m = .done r.value m) :
    eval settings (n + 1) (operate l o r).tree scope m = .done (operate l o r).value m := by
  show Run.unlessError _ _ m = _
  cases hx : l.word? with
  | none =>
    -- the left operand fails, so the right one is not come to
    rw [value_of_none hx] at hl
    rw [Run.unlessError_of_error hl rfl, value_of_none (by rw [word?, hx]; rfl)]
  | some x =>
    rw [value_of_some hx] at hl
    replace hr := hr x hx
    rw [Run.unlessError_of_done hl rfl]
    cases hy : r.word? with
    | none =>
      rw [value_of_none hy] at hr
      rw [Run.unlessError_of_error hr rfl, value_of_none (by rw [word?, hx, hy]; rfl)]
    | some y =>
      rw [value_of_some hy] at hr
      rw [Run.unlessError_of_done hr rfl]
      -- two words: the operator decides, and it fails for a zero divisor
      show Outcome.done (integerInfix o.symbol x.toInt y.toInt) m = _
      rw [o.integerInfix_toInt, value, word?_operate hx hy]
      split <;> rfl

/-- The evaluation of an expression changes nothing. It has the value, unless it nests too deep. -/
theorem eval_tree_cases (settings : Settings) (scope : ScopeId) (m : Machine) (e : Arithmetic)
    (budget : Nat) :
    eval settings budget e.tree scope m = .done e.value m ∨
      budget ≤ e.depth ∧ eval settings budget e.tree scope m = .halted .tooDeep m := by
  induction e generalizing budget with
  | literal k hk =>
    cases budget with
    | zero => exact .inr ⟨Nat.zero_le _, rfl⟩
    | succ n =>
      have hw : (BitVec.ofInt 64 k).toInt = k :=
        (Word.toInt_ofInt k).trans (Word.wrap_of_mem ⟨Int.le_trans (by decide) hk.1, hk.2⟩)
      left
      rw [value_of_some rfl, hw]
      rfl
  | negate e ih =>
    cases budget with
    | zero => exact .inr ⟨Nat.zero_le _, rfl⟩
    | succ n =>
      obtain h | ⟨hn, h⟩ := ih n
      · exact .inl (eval_negate h)
      · exact .inr ⟨Nat.succ_le_succ hn, Run.unlessError_of_halted h⟩
  | operate l o r ihl ihr =>
    cases budget with
    | zero => exact .inr ⟨Nat.zero_le _, rfl⟩
    | succ n =>
      obtain hl | ⟨hn, hl⟩ := ihl n
      · obtain hr | ⟨hn, hr⟩ := ihr n
        · exact .inl (eval_operate hl fun _ _ => hr)
        · -- the right operand is only come to if the left one has a word
          cases hx : l.word? with
          | none => exact .inl (eval_operate hl fun x h => by cases hx.symm.trans h)
          | some x =>
            rw [value_of_some hx] at hl
            refine .inr ⟨Nat.succ_le_succ (Nat.le_trans hn (Nat.le_max_right _ _)), ?_⟩
            exact (Run.unlessError_of_done hl rfl).trans (Run.unlessError_of_halted hr)
      · refine .inr ⟨Nat.succ_le_succ (Nat.le_trans hn (Nat.le_max_left _ _)), ?_⟩
        exact Run.unlessError_of_halted hl

/-- An expression of arithmetic, evaluated in whatever scope and with whatever settings, has the
integer that words in two's complement give, or fails exactly where a division by zero is come to.
Their quotients are rounded down, and exact but for that of the least word by minus one. Without a
division the value is the exact one, wrapped once. -/
theorem eval_tree (settings : Settings) (scope : ScopeId) (m : Machine) (e : Arithmetic)
    (budget : Nat) :
    (e.depth < budget → ∃ v, eval settings budget e.tree scope m = .done v m) ∧
    (∀ v m', eval settings budget e.tree scope m = .done v m' →
      m' = m ∧ (v = .error .divisionByZero ↔ e.DividesByZero) ∧
      (¬ e.DividesByZero → ∃ x, e.word? = some x ∧ v = .integer x.toInt) ∧
      (e.divides = false → v = .integer (Word.wrap e.exactValue))) ∧
    Failure.divisionByZero.message = "division by zero" ∧
    ∀ x y : BitVec 64, y ≠ 0#64 → (Word.floorQuotient x y).toInt =
      if x = BitVec.intMin 64 ∧ y = -1#64 then Word.min else x.toInt.fdiv y.toInt := by
  have hcases := eval_tree_cases settings scope m e budget
  refine ⟨fun hb => ?_, fun v m' hv => ?_, rfl, fun x y => Word.toInt_floorQuotient⟩
  · obtain h | ⟨hn, -⟩ := hcases
    · exact ⟨_, h⟩
    · exact absurd hb (Nat.not_lt.2 hn)
  · obtain h | ⟨-, h⟩ := hcases
    · -- it is done with the value of the expression, so `v` is that value
      cases h.symm.trans hv
      refine ⟨rfl, ?_, fun hd => ?_, fun hd => ?_⟩
      · rw [← word?_eq_none_iff, value]
        cases e.word? <;> simp
      · obtain ⟨x, hx⟩ := Option.ne_none_iff_exists'.1 (mt e.word?_eq_none_iff.1 hd)
        exact ⟨x, hx, value_of_some hx⟩
      · rw [value_of_some (word?_of_not_divides hd), Word.toInt_ofInt]
    · cases h.symm.trans hv

/-- The least word is made of the greatest one and divided by minus one. Since that has a value, the
division by zero to the right of it is come to. -/
theorem eval_tree_leastQuotient :
    let one : Arithmetic := .literal 1 (by decide)
    let greatest : Arithmetic := .literal Word.max (by decide)
    let least : Arithmetic := .operate (.negate greatest) .subtract one
    let e : Arithmetic := .operate least .divide (.negate one)
    let zero : Arithmetic := .operate one .subtract one
    let failing : Arithmetic := .operate e .add (.operate one .divide zero)
    e.depth < 10 ∧ failing.depth < 10 ∧ ¬ e.DividesByZero ∧ failing.DividesByZero ∧
      eval {} 10 e.tree 0 { store := {} } = .done (.integer Word.min) { store := {} } ∧
      eval {} 10 failing.tree 0 { store := {} } = .done (.error .divisionByZero) { store := {} } := by
  intro one greatest least e zero failing
  have he : e.depth < 10 := by decide
  have hf : failing.depth < 10 := by decide
  have hw : e.word? = some (BitVec.intMin 64) := by decide
  have hn : ¬ e.DividesByZero := fun h => by cases hw.symm.trans (e.word?_eq_none_iff.2 h)
  -- the right operand is come to, as the left one has a word
  have hd : failing.DividesByZero :=
    ⟨one, zero, 1#64, .right hw .here, by decide, by decide⟩
  refine ⟨he, hf, hn, hd, ?_, ?_⟩
  · obtain ⟨v, hv⟩ := (eval_tree {} 0 { store := {} } e 10).1 he
    obtain ⟨x, hx, rfl⟩ := ((eval_tree {} 0 { store := {} } e 10).2.1 v _ hv).2.2.1 hn
    cases hw.symm.trans hx
    exact hv
  · obtain ⟨v, hv⟩ := (eval_tree {} 0 { store := {} } failing 10).1 hf
    obtain rfl := ((eval_tree {} 0 { store := {} } failing 10).2.1 v _ hv).2.1.2 hd
    exact hv

end Arithmetic

end MonkeyLang
