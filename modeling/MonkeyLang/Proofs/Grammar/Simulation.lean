import MonkeyLang.Grammar.Machine
import MonkeyLang.Proofs.Syntax.Reading

/-!
# The machine of the grammar follows every reading

Where tokens start with a phrase, feeding them to the machine is the same as putting the tree of the
phrase where it belongs and feeding the rest: `simulates_of_reads`. So a reading of all tokens of a
text is the program that the machine ends with: `feedAll_of_reads`.

The machine sees one token at a time and puts operations together only when the token behind them
comes. A phrase can therefore be exchanged for its tree only where a token follows, and an operation
with a prefix or an infix operator only where that token does not bind its right operand tighter.
-/

namespace MonkeyLang.Grammar

namespace Machine

/-- The machine after several tokens. -/
def feedAll : Machine → List Token → Except Diagnostic Machine
  | m, [] => .ok m
  | m, t :: ts =>
    match m.feed t with
    | .ok m => m.feedAll ts
    | .error d => .error d

/-- The machine with another stack and mode. -/
def set (m : Machine) (stack : List Pending) (mode : Mode) : Machine :=
  { m with stack, mode }

section

variable {m m' : Machine} {t : Token} {ts : List Token} {s s' : List Pending} {e e' st : Code}

/-- A token that is taken leaves the rest to the machine behind it. -/
theorem feedAll_cons_of_ok (h : m.feed t = .ok m') : m.feedAll (t :: ts) = m'.feedAll ts := by
  rw [feedAll, h]

/-- Where all tokens are taken, the first one is, and the machine behind it takes the rest. -/
theorem exists_feed (h : m.feedAll (t :: ts) = .ok m') :
    ∃ m₁, m.feed t = .ok m₁ ∧ m₁.feedAll ts = .ok m' := by
  rw [feedAll] at h
  split at h
  · next m₁ hf => exact ⟨m₁, hf, h⟩
  · cases h

/-- Two machines that agree on the next token agree on all tokens from it on. -/
theorem feedAll_cons_congr (h : m.feed t = m'.feed t) :
    m.feedAll (t :: ts) = m'.feedAll (t :: ts) := by
  rw [feedAll, feedAll, h]

/-! ## The mode before a token

How a token continues an operand, a statement or a stack does not depend on the mode, since the new
mode replaces it. -/

/-- The start of an operand depends on the stack and the token alone. -/
theorem operand_set (m : Machine) (s : List Pending) (x y : Mode) (t : Token) :
    (m.set s x).operand t = (m.set s y).operand t := by
  unfold operand
  cases t.kind <;> rfl

/-- A statement is filed by the stack alone. -/
theorem endStatement_set (m : Machine) (s : List Pending) (x y : Mode) (st : Code) :
    (m.set s x).endStatement st = (m.set s y).endStatement st := by
  cases s with
  | nil => rfl
  | cons p s => cases p <;> rfl

/-- The token behind a statement is met with no regard to the mode before it. -/
theorem afterStatement_set (m : Machine) (s : List Pending) (x y : Mode) (st : Code) (t : Token) :
    (m.set s x).afterStatement st t = (m.set s y).afterStatement st t := by
  rw [afterStatement, afterStatement, endStatement_set m s x y]

theorem mode_endStatement (m : Machine) (st : Code) : (m.endStatement st).mode = .statement := by
  unfold endStatement
  split <;> rfl

/-! ## Operations on the stack -/

/-- What a token behind an expression does to the construct that the expression stands in. -/
def conclude (m : Machine) (t : Token) (e : Code) : List Pending → Except Diagnostic Machine
  | .letValue name :: s => (m.set s .statement).afterStatement (.letStatement name e) t
  | .returnValue :: s => (m.set s .statement).afterStatement (.returnStatement e) t
  | .statementValue :: s => (m.set s .statement).afterStatement (.expressionStatement e) t
  | .group :: s => if t.kind = .rparen then .ok (m.set s (.ended e)) else .error (unexpected t)
  | .condition :: s =>
    if t.kind = .rparen then .ok (m.set s (.conditionClosed e)) else .error (unexpected t)
  | .arguments f done :: s =>
    match t.kind with
    | .comma => .ok (m.set (.arguments f (e :: done) :: s) .operand)
    | .rparen => .ok (m.set s (.ended (.call f (e :: done).reverse)))
    | _ => .error (unexpected t)
  | _ => .error (unexpected t)

/-- The end of an expression puts all waiting operations together and concludes the construct that
is then on top. -/
theorem endExpression_set (m : Machine) (s : List Pending) (x : Mode) (e : Code) (t : Token) :
    (m.set s x).endExpression e t =
      m.conclude t (reduce .lowest e s).1 (reduce .lowest e s).2 := by
  have hs : (m.set s x).stack = s := rfl
  rw [endExpression, hs]
  generalize reduce .lowest e s = er
  obtain ⟨e, r⟩ := er
  cases r with
  | nil => rfl
  | cons p r =>
    cases p with
    | letValue name => exact afterStatement_set m r x .statement _ t
    | returnValue => exact afterStatement_set m r x .statement _ t
    | statementValue => exact afterStatement_set m r x .statement _ t
    | _ => rfl

/-- A token behind an operand only sees how the operations on the stack are put together, unless it
is the parenthesis of a call. -/
theorem afterOperand_congr {x y : Mode} (ht : t.kind ≠ .lparen)
    (h : reduce t.kind.precedence e s = reduce t.kind.precedence e' s') :
    (m.set s x).afterOperand e t = (m.set s' y).afterOperand e' t := by
  rw [afterOperand, afterOperand, if_neg ht, if_neg ht]
  by_cases hl : t.kind.precedence = .lowest
  · rw [hl] at h
    rw [if_pos hl, if_pos hl, endExpression_set, endExpression_set, h]
  · rw [if_neg hl, if_neg hl]
    have hs : (m.set s x).stack = s := rfl
    have hs' : (m.set s' y).stack = s' := rfl
    rw [hs, hs', h]
    rfl

/-- The token behind an operand is met with no regard to the mode before it. -/
theorem afterOperand_set (m : Machine) (s : List Pending) (x y : Mode) (e : Code) (t : Token) :
    (m.set s x).afterOperand e t = (m.set s y).afterOperand e t := by
  by_cases ht : t.kind = .lparen
  · rw [afterOperand, afterOperand, if_pos ht, if_pos ht]
    rfl
  · exact afterOperand_congr ht rfl

/-- The stack `s` is not touched by an operator that binds tighter than `p`. -/
def Holds (p : Precedence) (s : List Pending) : Prop :=
  ∀ k e, p < k → k ≠ .call → reduce k e s = (e, s)

/-- Nothing binds tighter than a prefix operator but a call. -/
theorem Holds.unary (s : List Pending) : Holds .unary s := by
  intro k e hk hc
  have hk : k = .call := by
    revert hk
    cases k <;> decide
  exact absurd hk hc

/-- A waiting infix operator is not touched by one that binds tighter. -/
theorem Holds.infixed (l : Code) (o : String) (p : Precedence) (s : List Pending) :
    Holds p (.infixed l o p :: s) := by
  intro k e hk _
  rw [reduce, if_pos hk]

end

end Machine

/-! ## What a phrase does to the machine -/

/-- The mode that waits for the block of a role. -/
def BlockRole.opening : BlockRole → Mode
  | .consequence c => .conditionClosed c
  | .alternative c b => .elseOpen c b
  | .body ps => .parametersClosed ps

/-- The mode after the block of a role. -/
def BlockRole.closing : BlockRole → Code → Mode
  | .consequence c, b => .consequence c b
  | .alternative c t, b => .closed (.conditional c t b)
  | .body ps, b => .closed (.function ps b)

open MonkeyLang.Grammar.Machine

/-- Feeding the tokens `ts` is the same as putting the tree of a phrase in its place and feeding the
tokens `ts'`. -/
def Simulates : Phrase → List Token → List Token → Prop
  | .expression p e, ts, ts' => ∀ (m : Machine) (s : List Pending), Holds p s →
    (m.set s .operand).feedAll ts = (m.set s (.ended e)).feedAll ts'
  | .operand e, ts, ts' => ∀ (m : Machine) (s : List Pending),
    (m.set s .operand).feedAll ts = (m.set s (.ended e)).feedAll ts'
  | .operations p left e, ts, ts' => ∀ (m : Machine) (s : List Pending), Holds p s →
    (m.set s (.ended left)).feedAll ts = (m.set s (.ended e)).feedAll ts'
  | .arguments as, ts, ts' => ∀ (m : Machine) (s : List Pending) (f : Code),
    (m.set s (.ended f)).feedAll ts = (m.set s (.ended (.call f as))).feedAll ts'
  | .moreArguments as, ts, ts' => ∀ (m : Machine) (s : List Pending) (f a : Code) (done : List Code),
    (m.set (.arguments f done :: s) (.ended a)).feedAll ts =
      (m.set s (.ended (.call f ((a :: done).reverse ++ as)))).feedAll ts'
  | .parameters ps, ts, ts' => ∀ (m : Machine) (s : List Pending),
    (m.set s .fnOpen).feedAll ts = (m.set s (.parametersClosed ps)).feedAll ts'
  | .moreParameters ps, ts, ts' => ∀ (m : Machine) (s : List Pending) (done : List String),
    (m.set s (.parameter done)).feedAll ts =
      (m.set s (.parametersClosed (done.reverse ++ ps))).feedAll ts'
  | .block b, ts, ts' => ∀ (m : Machine) (s : List Pending) (role : BlockRole),
    (m.set s role.opening).feedAll ts = (m.set s (role.closing b)).feedAll ts'
  | .statement st, ts, ts' => ∀ (m : Machine) (s : List Pending),
    (m.set s .statement).feedAll ts = ((m.set s .statement).endStatement st).feedAll ts'
  | .statements ss, ts, ts' => ∀ (m : Machine) (s : List Pending),
    (m.set s .statement).feedAll ts = (ss.foldl endStatement (m.set s .statement)).feedAll ts'

section

variable {m : Machine} {s : List Pending} {p : Precedence} {e e' left right b b' c st : Code}
  {as ss : List Code} {ps : List String} {t o u x a l : Token} {ts ts₁ ts₂ ts₃ : List Token}

/-! ### Operations -/

/-- A prefix operator waits for its operand until a token comes that is no call. -/
theorem feedAll_prefixed {operator : String} (hn : ¬ .unary < (nextKind ts).precedence)
    (hne : ts ≠ []) :
    (m.set (.prefixed operator :: s) (.ended e)).feedAll ts =
      (m.set s (.ended (.prefixed operator e))).feedAll ts := by
  obtain ⟨t, ts, rfl⟩ := List.exists_cons_of_ne_nil hne
  have ht : t.kind ≠ .lparen := by
    intro hk
    rw [nextKind_cons, hk] at hn
    exact hn (by decide)
  exact feedAll_cons_congr (afterOperand_congr ht (by rw [reduce]))

/-- An infix operator waits for its right operand until a token comes that does not bind that
tighter. -/
theorem feedAll_infixed {operator : String} (hp : p < .call)
    (hn : ¬ p < (nextKind ts).precedence) (hne : ts ≠ []) :
    (m.set (.infixed left operator p :: s) (.ended right)).feedAll ts =
      (m.set s (.ended (.infixed left operator right))).feedAll ts := by
  obtain ⟨t, ts, rfl⟩ := List.exists_cons_of_ne_nil hne
  rw [nextKind_cons] at hn
  have ht : t.kind ≠ .lparen := by
    intro hk
    rw [hk] at hn
    exact hn hp
  exact feedAll_cons_congr (afterOperand_congr ht (by rw [reduce, if_neg hn]))

/-- Only the parenthesis of a call binds as tight as a call. -/
theorem lt_call {k : Kind} (hk : k ≠ .lparen) : k.precedence < .call := by
  revert hk
  cases k <;> decide

/-- An infix operator that binds tighter than what the stack holds waits on top of it. -/
theorem feed_operator (ht : t.kind ≠ .lparen) (hp : p < t.kind.precedence) (hs : Holds p s) :
    (m.set s (.ended left)).feed t =
      .ok (m.set (.infixed left t.literal t.kind.precedence :: s) .operand) := by
  have hc := lt_call ht
  have hl : t.kind.precedence ≠ .lowest := by
    intro hl
    rw [hl] at hp
    revert hp
    cases p <;> decide
  -- `call` is the one precedence that a stack need not hold against, and the operator is none.
  have hr : reduce t.kind.precedence left s = (left, s) := by
    refine hs _ _ hp fun hk => ?_
    rw [hk] at hc
    exact absurd hc (by decide)
  have hst : (m.set s (.ended left)).stack = s := rfl
  show (m.set s (.ended left)).afterOperand left t = _
  rw [afterOperand, if_neg ht, if_neg hl, hst, hr]
  rfl

/-- Operations that start with an infix operator: its right operand, put together with the left one
before the operations that follow. -/
theorem simulates_infixed (ht : t.kind ≠ .lparen) (hp : p < t.kind.precedence)
    (h₁ : Simulates (.expression t.kind.precedence right) ts ts₁)
    (h₂ : Simulates (.operations p (.infixed left t.literal right) e) ts₁ ts₂)
    (hn : ¬ t.kind.precedence < (nextKind ts₁).precedence) (hne : ts₁ ≠ []) :
    Simulates (.operations p left e) (t :: ts) ts₂ := by
  intro m s hs
  rw [feedAll_cons_of_ok (feed_operator ht hp hs), h₁ m _ (Holds.infixed _ _ _ _),
    feedAll_infixed (lt_call ht) hn hne]
  exact h₂ m s hs

/-- Operations that start with a call: its arguments, then the operations that follow. -/
theorem simulates_call (h₁ : Simulates (.arguments as) (t :: ts) ts₁)
    (h₂ : Simulates (.operations p (.call left as) e) ts₁ ts₂) :
    Simulates (.operations p left e) (t :: ts) ts₂ := by
  intro m s hs
  rw [h₁ m s left]
  exact h₂ m s hs

/-! ### Operands -/

/-- A token that no operand goes on with is behind a whole expression. -/
theorem feed_ended (hn : ¬ .lowest < t.kind.precedence) :
    (m.set s (.ended e)).feed t = m.conclude t (reduce .lowest e s).1 (reduce .lowest e s).2 := by
  -- The parenthesis of a call would go on with the operand.
  have hl : t.kind ≠ .lparen := by
    intro hk
    rw [hk] at hn
    exact hn (by decide)
  have hp : t.kind.precedence = .lowest := by
    revert hn
    cases t.kind.precedence <;> decide
  show (m.set s (.ended e)).afterOperand e t = _
  rw [afterOperand, if_neg hl, if_pos hp, endExpression_set]

/-- An operand that ends with a brace goes on as any other. -/
theorem feedAll_closed (hne : ts ≠ []) :
    (m.set s (.closed e)).feedAll ts = (m.set s (.ended e)).feedAll ts := by
  obtain ⟨t, ts, rfl⟩ := List.exists_cons_of_ne_nil hne
  exact feedAll_cons_congr (afterOperand_set m s _ _ e t)

/-- A conditional ends with its first block where no `else` follows. -/
theorem feedAll_consequence (hn : nextKind ts ≠ .kwElse) (hne : ts ≠ []) :
    (m.set s (.consequence c b)).feedAll ts =
      (m.set s (.ended (.conditional c b .missing))).feedAll ts := by
  obtain ⟨t, ts, rfl⟩ := List.exists_cons_of_ne_nil hne
  rw [nextKind_cons] at hn
  refine feedAll_cons_congr ?_
  show (if t.kind = .kwElse then _ else _) = _
  rw [if_neg hn]
  exact afterOperand_set m s _ _ _ t

/-- A prefix operator and the operand behind it. -/
theorem simulates_prefixed (ht : t.kind = .bang ∨ t.kind = .minus)
    (h : Simulates (.expression .unary e) ts ts₁) (hn : ¬ .unary < (nextKind ts₁).precedence)
    (hne : ts₁ ≠ []) : Simulates (.operand (.prefixed t.literal e)) (t :: ts) ts₁ := by
  intro m s
  -- The operator goes on the stack, under the operand.
  have hf : (m.set s .operand).feed t = .ok (m.set (.prefixed t.literal :: s) .operand) := by
    show (m.set s .operand).operand t = _
    rw [operand]
    rcases ht with ht | ht <;> rw [ht] <;> rfl
  rw [feedAll_cons_of_ok hf, h m _ (Holds.unary _), feedAll_prefixed hn hne]

/-- An expression in parentheses stands for itself. -/
theorem simulates_group (ht : t.kind = .lparen)
    (h : Simulates (.expression .lowest e) ts (u :: ts₁)) (hu : u.kind = .rparen) :
    Simulates (.operand e) (t :: ts) ts₁ := by
  intro m s
  have hf : (m.set s .operand).feed t = .ok (m.set (.group :: s) .operand) := by
    show (m.set s .operand).operand t = _
    rw [operand, ht]
    rfl
  -- The group is on top again once its expression has ended, so the parenthesis closes it.
  have hc : (m.set (.group :: s) (.ended e)).feed u = .ok (m.set s (.ended e)) := by
    rw [feed_ended (by rw [hu]; decide)]
    show (if u.kind = .rparen then _ else _) = _
    rw [if_pos hu]
    rfl
  rw [feedAll_cons_of_ok hf, h m _ (fun _ _ _ _ => rfl), feedAll_cons_of_ok hc]

/-- A conditional up to its first block. -/
theorem feedAll_condition (ht : t.kind = .kwIf) (ho : o.kind = .lparen)
    (h : Simulates (.expression .lowest c) ts (u :: ts₁)) (hu : u.kind = .rparen) :
    (m.set s .operand).feedAll (t :: o :: ts) = (m.set s (.conditionClosed c)).feedAll ts₁ := by
  have h₁ : (m.set s .operand).feed t = .ok (m.set s .ifOpen) := by
    show (m.set s .operand).operand t = _
    rw [operand, ht]
    rfl
  have h₂ : (m.set s .ifOpen).feed o = .ok (m.set (.condition :: s) .operand) := by
    show (if o.kind = .lparen then _ else _) = _
    rw [if_pos ho]
    rfl
  have h₃ : (m.set (.condition :: s) (.ended c)).feed u = .ok (m.set s (.conditionClosed c)) := by
    rw [feed_ended (by rw [hu]; decide)]
    show (if u.kind = .rparen then _ else _) = _
    rw [if_pos hu]
    rfl
  -- Nothing can reach below the pending condition, so the stack holds against every operator.
  rw [feedAll_cons_of_ok h₁, feedAll_cons_of_ok h₂, h m _ (fun _ _ _ _ => rfl),
    feedAll_cons_of_ok h₃]

/-- A conditional with one block leaves the other one missing. -/
theorem simulates_conditional (ht : t.kind = .kwIf) (ho : o.kind = .lparen)
    (h : Simulates (.expression .lowest c) ts (u :: ts₁)) (hu : u.kind = .rparen)
    (hb : Simulates (.block b) ts₁ ts₂) (he : nextKind ts₂ ≠ .kwElse) (hne : ts₂ ≠ []) :
    Simulates (.operand (.conditional c b .missing)) (t :: o :: ts) ts₂ := by
  intro m s
  have hb : (m.set s (.conditionClosed c)).feedAll ts₁ = _ := hb m s (.consequence c)
  rw [feedAll_condition ht ho h hu, hb]
  exact feedAll_consequence he hne

/-- A conditional with an `else` and a second block. -/
theorem simulates_alternative (ht : t.kind = .kwIf) (ho : o.kind = .lparen)
    (h : Simulates (.expression .lowest c) ts (u :: ts₁)) (hu : u.kind = .rparen)
    (hb : Simulates (.block b) ts₁ (l :: ts₂)) (hl : l.kind = .kwElse)
    (hb' : Simulates (.block b') ts₂ ts₃) (hne : ts₃ ≠ []) :
    Simulates (.operand (.conditional c b b')) (t :: o :: ts) ts₃ := by
  intro m s
  have hb : (m.set s (.conditionClosed c)).feedAll ts₁ = _ := hb m s (.consequence c)
  have hb' : (m.set s (.elseOpen c b)).feedAll ts₂ = _ := hb' m s (.alternative c b)
  have hf : (m.set s (.consequence c b)).feed l = .ok (m.set s (.elseOpen c b)) := by
    show (if l.kind = .kwElse then _ else _) = _
    rw [if_pos hl]
    rfl
  rw [feedAll_condition ht ho h hu, hb]
  show (m.set s (.consequence c b)).feedAll (l :: ts₂) = _
  rw [feedAll_cons_of_ok hf, hb']
  exact feedAll_closed hne

/-- A function literal: its parameters and its body. -/
theorem simulates_function (ht : t.kind = .kwFn) (h : Simulates (.parameters ps) ts ts₁)
    (hb : Simulates (.block b) ts₁ ts₂) (hne : ts₂ ≠ []) :
    Simulates (.operand (.function ps b)) (t :: ts) ts₂ := by
  intro m s
  have hf : (m.set s .operand).feed t = .ok (m.set s .fnOpen) := by
    show (m.set s .operand).operand t = _
    rw [operand, ht]
    rfl
  have hb : (m.set s (.parametersClosed ps)).feedAll ts₁ = _ := hb m s (.body ps)
  rw [feedAll_cons_of_ok hf, h m s, hb]
  exact feedAll_closed hne

/-! ### Lists in parentheses -/

theorem feed_fnOpen (ho : o.kind = .lparen) :
    (m.set s .fnOpen).feed o = .ok (m.set s .parametersOpen) := by
  show (if o.kind = .lparen then _ else _) = _
  rw [if_pos ho]
  rfl

theorem feed_callOpen {f : Code} (ho : o.kind = .lparen) :
    (m.set s (.ended f)).feed o = .ok (m.set s (.callOpen f)) := by
  show (m.set s (.ended f)).afterOperand f o = _
  rw [afterOperand, if_pos ho]
  rfl

theorem feed_parametersOpen : (m.set s .parametersOpen).feed u = (match u.kind with
    | .ident => .ok (m.set s (.parameter [u.literal]))
    | .rparen => .ok (m.set s (.parametersClosed []))
    | _ => .error (unexpected u)) := rfl

theorem feed_parameter {done : List String} :
    (m.set s (.parameter done)).feed u = (match u.kind with
      | .comma => .ok (m.set s (.parameterNext done))
      | .rparen => .ok (m.set s (.parametersClosed done.reverse))
      | _ => .error (unexpected u)) := rfl

/-- Behind an argument the list goes on with a comma or ends. -/
theorem feed_argument {f a : Code} {done : List Code} (hn : ¬ .lowest < u.kind.precedence) :
    (m.set (.arguments f done :: s) (.ended a)).feed u = (match u.kind with
      | .comma => .ok (m.set (.arguments f (a :: done) :: s) .operand)
      | .rparen => .ok (m.set s (.ended (.call f (a :: done).reverse)))
      | _ => .error (unexpected u)) :=
  feed_ended hn

/-- The empty list of parameters. -/
theorem simulates_noParameters (ho : o.kind = .lparen) (hu : u.kind = .rparen) :
    Simulates (.parameters []) (o :: u :: ts) ts := by
  intro m s
  have hf : (m.set s .parametersOpen).feed u = .ok (m.set s (.parametersClosed [])) := by
    rw [feed_parametersOpen, hu]
  rw [feedAll_cons_of_ok (feed_fnOpen ho), feedAll_cons_of_ok hf]

/-- A list of parameters from its first name. -/
theorem simulates_parameters (ho : o.kind = .lparen) (hx : x.kind = .ident)
    (h : Simulates (.moreParameters ps) ts ts₁) :
    Simulates (.parameters (x.literal :: ps)) (o :: x :: ts) ts₁ := by
  intro m s
  have hf : (m.set s .parametersOpen).feed x = .ok (m.set s (.parameter [x.literal])) := by
    rw [feed_parametersOpen, hx]
  rw [feedAll_cons_of_ok (feed_fnOpen ho), feedAll_cons_of_ok hf, h m s [x.literal]]
  rfl

/-- The parenthesis that ends the parameters gives them in the order of the text. -/
theorem simulates_lastParameter (hu : u.kind = .rparen) :
    Simulates (.moreParameters []) (u :: ts) ts := by
  intro m s done
  have hf : (m.set s (.parameter done)).feed u =
      .ok (m.set s (.parametersClosed done.reverse)) := by
    rw [feed_parameter, hu]
  rw [feedAll_cons_of_ok hf, List.append_nil]

/-- A comma and one more parameter. -/
theorem simulates_nextParameter (hu : u.kind = .comma) (hx : x.kind = .ident)
    (h : Simulates (.moreParameters ps) ts ts₁) :
    Simulates (.moreParameters (x.literal :: ps)) (u :: x :: ts) ts₁ := by
  intro m s done
  have hf : (m.set s (.parameter done)).feed u = .ok (m.set s (.parameterNext done)) := by
    rw [feed_parameter, hu]
  have hf' : (m.set s (.parameterNext done)).feed x =
      .ok (m.set s (.parameter (x.literal :: done))) := by
    show (if x.kind = .ident then _ else _) = _
    rw [if_pos hx]
    rfl
  rw [feedAll_cons_of_ok hf, feedAll_cons_of_ok hf', h m s (x.literal :: done),
    List.reverse_cons, List.append_assoc]
  rfl

/-- The empty list of arguments. -/
theorem simulates_noArguments (ho : o.kind = .lparen) (hu : u.kind = .rparen) :
    Simulates (.arguments []) (o :: u :: ts) ts := by
  intro m s f
  have hf : (m.set s (.callOpen f)).feed u = .ok (m.set s (.ended (.call f []))) := by
    show (if u.kind = .rparen then _ else _) = _
    rw [if_pos hu]
    rfl
  rw [feedAll_cons_of_ok (feed_callOpen ho), feedAll_cons_of_ok hf]

/-- An operand starts in the same way wherever it starts. -/
theorem feedAll_operand {q : Pending} {mode : Mode} (hk : (nextKind ts).startsOperand = true)
    (hf : ∀ t, t.kind.startsOperand = true →
      (m.set s mode).feed t = (m.set (q :: s) mode).operand t) :
    (m.set s mode).feedAll ts = (m.set (q :: s) .operand).feedAll ts := by
  -- At the end of the text no operand could start.
  cases ts with
  | nil => exact absurd hk (by decide)
  | cons t ts => exact feedAll_cons_congr ((hf t hk).trans (operand_set m (q :: s) mode .operand t))

/-- A list of arguments from its first one. -/
theorem simulates_arguments (ho : o.kind = .lparen) (hk : (nextKind ts).startsOperand = true)
    (h₁ : Simulates (.expression .lowest e) ts ts₁) (h₂ : Simulates (.moreArguments as) ts₁ ts₂) :
    Simulates (.arguments (e :: as)) (o :: ts) ts₂ := by
  intro m s f
  have hs : (m.set s (.callOpen f)).feedAll ts =
      (m.set (.arguments f [] :: s) .operand).feedAll ts := by
    refine feedAll_operand hk fun t ht => ?_
    -- A closing parenthesis would make the list empty, but it starts no operand.
    have hr : t.kind ≠ .rparen := by
      intro hr
      rw [hr] at ht
      exact absurd ht (by decide)
    show (if t.kind = .rparen then _ else _) = _
    rw [if_neg hr]
    rfl
  rw [feedAll_cons_of_ok (feed_callOpen ho), hs, h₁ m _ (fun _ _ _ _ => rfl), h₂ m s f e []]
  rfl

/-- The parenthesis that ends the arguments makes the call, with them in the order of the text. -/
theorem simulates_lastArgument (hu : u.kind = .rparen) :
    Simulates (.moreArguments []) (u :: ts) ts := by
  intro m s f a done
  have hf : (m.set (.arguments f done :: s) (.ended a)).feed u =
      .ok (m.set s (.ended (.call f (a :: done).reverse))) := by
    rw [feed_argument (by rw [hu]; decide), hu]
  rw [feedAll_cons_of_ok hf, List.append_nil]

/-- A comma and one more argument. -/
theorem simulates_nextArgument (hu : u.kind = .comma)
    (h₁ : Simulates (.expression .lowest e) ts ts₁) (h₂ : Simulates (.moreArguments as) ts₁ ts₂) :
    Simulates (.moreArguments (e :: as)) (u :: ts) ts₂ := by
  intro m s f a done
  have hf : (m.set (.arguments f done :: s) (.ended a)).feed u =
      .ok (m.set (.arguments f (a :: done) :: s) .operand) := by
    rw [feed_argument (by rw [hu]; decide), hu]
  rw [feedAll_cons_of_ok hf, h₁ m _ (fun _ _ _ _ => rfl), h₂ m s f e (a :: done),
    List.reverse_cons, List.append_assoc]
  rfl

/-! ### Statements -/

/-- A statement that the next token ends, with the semicolon that may be that token. -/
theorem feedAll_afterStatement {m' : Machine}
    (hf : m'.feed t = (m.set s .statement).afterStatement st t) :
    m'.feedAll (t :: ts) =
      ((m.set s .statement).endStatement st).feedAll (skipSemicolon (t :: ts)) := by
  -- The semicolon belongs to the statement. Any other token starts the next one, so both machines
  -- are about to read it in the same mode.
  by_cases ht : t.kind = .semicolon
  · rw [afterStatement, if_pos ht] at hf
    rw [feedAll_cons_of_ok hf, skipSemicolon_of_eq ht]
  · have hn : nextKind (t :: ts) ≠ .semicolon := ht
    rw [afterStatement, if_neg ht] at hf
    rw [skipSemicolon_of_ne hn]
    refine feedAll_cons_congr (hf.trans ?_)
    rw [feed, mode_endStatement]

/-- An expression that is the last part of a statement. -/
theorem feedAll_value {q : Pending} (hn : ¬ .lowest < (nextKind ts).precedence) (hne : ts ≠ [])
    (hr : reduce .lowest e (q :: s) = (e, q :: s))
    (hq : ∀ t, m.conclude t e (q :: s) = (m.set s .statement).afterStatement st t) :
    (m.set (q :: s) (.ended e)).feedAll ts =
      ((m.set s .statement).endStatement st).feedAll (skipSemicolon ts) := by
  obtain ⟨t, ts, rfl⟩ := List.exists_cons_of_ne_nil hne
  refine feedAll_afterStatement ?_
  rw [feed_ended hn, hr]
  exact hq t

/-- A let statement with the semicolon that may end it. -/
theorem simulates_letStatement (ht : t.kind = .kwLet) (hx : x.kind = .ident) (ha : a.kind = .assign)
    (h : Simulates (.expression .lowest e) ts ts₁) (hn : ¬ .lowest < (nextKind ts₁).precedence)
    (hne : ts₁ ≠ []) :
    Simulates (.statement (.letStatement x.literal e)) (t :: x :: a :: ts) (skipSemicolon ts₁) := by
  intro m s
  -- the keyword, the name and the sign are taken one by one
  have h₁ : (m.set s .statement).feed t = .ok (m.set s .letName) := by
    show (m.set s .statement).statement t = _
    rw [statement, ht]
    rfl
  have h₂ : (m.set s .letName).feed x = .ok (m.set s (.letAssign x.literal)) := by
    show (if x.kind = .ident then _ else _) = _
    rw [if_pos hx]
    rfl
  have h₃ : (m.set s (.letAssign x.literal)).feed a =
      .ok (m.set (.letValue x.literal :: s) .operand) := by
    show (if a.kind = .assign then _ else _) = _
    rw [if_pos ha]
    rfl
  -- then the value, on a stack that no operator reaches below
  rw [feedAll_cons_of_ok h₁, feedAll_cons_of_ok h₂, feedAll_cons_of_ok h₃,
    h m _ (fun _ _ _ _ => rfl)]
  exact feedAll_value hn hne rfl fun _ => rfl

/-- A statement may start with `return`, with or without a value behind it. -/
theorem feed_return (ht : t.kind = .kwReturn) :
    (m.set s .statement).feed t = .ok (m.set s .returned) := by
  show (m.set s .statement).statement t = _
  rw [statement, ht]
  rfl

/-- A return statement without a value, seen at a token that ends it. -/
theorem simulates_bareReturn (ht : t.kind = .kwReturn)
    (hn : nextKind ts ∈ [.semicolon, .rbrace, .eof]) (hne : ts ≠ []) :
    Simulates (.statement (.returnStatement .missing)) (t :: ts) (skipSemicolon ts) := by
  intro m s
  obtain ⟨u, us, rfl⟩ := List.exists_cons_of_ne_nil hne
  -- None of the three tokens that end a bare return starts an operand.
  have hu : ¬ u.kind.startsOperand = true := by
    intro hk
    rw [nextKind_cons] at hn
    revert hk hn
    cases u.kind <;> decide
  rw [feedAll_cons_of_ok (feed_return ht)]
  refine feedAll_afterStatement ?_
  show (if u.kind.startsOperand = true then _ else _) = _
  rw [if_neg hu]
  exact afterStatement_set m s .returned .statement _ u

/-- A return statement whose value starts with the token behind `return`. -/
theorem simulates_returnStatement (ht : t.kind = .kwReturn)
    (hk : (nextKind ts).startsOperand = true) (h : Simulates (.expression .lowest e) ts ts₁)
    (hn : ¬ .lowest < (nextKind ts₁).precedence) (hne : ts₁ ≠ []) :
    Simulates (.statement (.returnStatement e)) (t :: ts) (skipSemicolon ts₁) := by
  intro m s
  have hs : (m.set s .returned).feedAll ts = (m.set (.returnValue :: s) .operand).feedAll ts := by
    refine feedAll_operand hk fun u hu => ?_
    show (if u.kind.startsOperand = true then _ else _) = _
    rw [if_pos hu]
    rfl
  rw [feedAll_cons_of_ok (feed_return ht), hs, h m _ (fun _ _ _ _ => rfl)]
  exact feedAll_value hn hne rfl fun _ => rfl

/-- An expression that stands as a statement. -/
theorem simulates_expressionStatement (hk : (nextKind ts).startsOperand = true)
    (h : Simulates (.expression .lowest e) ts ts₁) (hn : ¬ .lowest < (nextKind ts₁).precedence)
    (hne : ts₁ ≠ []) :
    Simulates (.statement (.expressionStatement e)) ts (skipSemicolon ts₁) := by
  intro m s
  have hs : (m.set s .statement).feedAll ts =
      (m.set (.statementValue :: s) .operand).feedAll ts := by
    refine feedAll_operand hk fun t ht => ?_
    show (m.set s .statement).statement t = _
    rw [statement]
    -- The tokens with a rule of their own (`let`, `return` and the two ends) start no operand.
    split
    case h_5 => rfl
    all_goals
      next hk => rw [hk] at ht; exact absurd ht (by decide)
  rw [hs, h m _ (fun _ _ _ _ => rfl)]
  exact feedAll_value hn hne rfl fun _ => rfl

/-- After a statement the machine again waits for one, whatever holds the statement. -/
theorem set_endStatement (m : Machine) (s : List Pending) (st : Code) :
    ∃ (m' : Machine) (s' : List Pending),
      (m.set s .statement).endStatement st = m'.set s' .statement := by
  unfold endStatement
  split
  · exact ⟨m, _, rfl⟩
  · exact ⟨{ m with done := st :: m.done }, s, rfl⟩

/-- A statement and those behind it. -/
theorem simulates_statements (h₁ : Simulates (.statement st) ts ts₁)
    (h₂ : Simulates (.statements ss) ts₁ ts₂) : Simulates (.statements (st :: ss)) ts ts₂ := by
  intro m s
  obtain ⟨m', s', he⟩ := set_endStatement m s st
  rw [h₁ m s, List.foldl_cons, he]
  exact h₂ m' s'

/-- Statements in a block are kept with it, last first. -/
theorem foldl_endStatement_block (m : Machine) (s : List Pending) (role : BlockRole)
    (ss done : List Code) :
    ss.foldl endStatement (m.set (.block role done :: s) .statement) =
      m.set (.block role (ss.reverse ++ done) :: s) .statement := by
  -- The stack holds the statements in the opposite order, so each one is put in front of `done`.
  induction ss generalizing done with
  | nil => rfl
  | cons st ss ih =>
    have h := ih (st :: done)
    rw [List.reverse_cons, List.append_assoc]
    exact h

/-- Statements of the program are kept with the machine, last first. -/
theorem foldl_endStatement_program (m : Machine) (ss : List Code) :
    ss.foldl endStatement (m.set [] .statement) =
      { m with stack := [], mode := .statement, done := ss.reverse ++ m.done } := by
  induction ss generalizing m with
  | nil => rfl
  | cons st ss ih =>
    have h := ih { m with done := st :: m.done }
    rw [List.reverse_cons, List.append_assoc]
    exact h

/-- The brace of a block puts the role of the block on the stack. -/
theorem feed_opening {role : BlockRole} (ho : o.kind = .lbrace) :
    (m.set s role.opening).feed o = .ok (m.set (.block role [] :: s) .statement) := by
  cases role <;>
  · show (if o.kind = .lbrace then _ else _) = _
    rw [if_pos ho]
    rfl

/-- The brace that ends a block takes its role off the stack and gives its statements in order. -/
theorem feed_closing {role : BlockRole} {done : List Code} (hu : u.kind = .rbrace) :
    (m.set (.block role done :: s) .statement).feed u =
      .ok (m.set s (role.closing (.block done.reverse))) := by
  show (m.set (.block role done :: s) .statement).statement u = _
  rw [statement, hu]
  cases role <;> rfl

/-- A block with its statements, in whichever role it stands. -/
theorem simulates_block (ho : o.kind = .lbrace) (h : Simulates (.statements ss) ts (u :: ts₁))
    (hu : u.kind = .rbrace) : Simulates (.block (.block ss)) (o :: ts) ts₁ := by
  intro m s role
  rw [feedAll_cons_of_ok (feed_opening ho), h m _, foldl_endStatement_block,
    feedAll_cons_of_ok (feed_closing hu), List.append_nil, List.reverse_reverse]

end

/-! ## All readings -/

/-- Every reading that is not the last of its tokens is simulated. The induction is on the reading;
each of its rules is one of the lemmas above. -/
theorem simulates_of_reads {n : Nat} {g : Phrase} {ts ts' : List Token}
    (h : Reads [.rbrace] n g ts ts') (hne : ts' ≠ []) : Simulates g ts ts' := by
  -- A phrase that ends before the last token starts before it.
  have before : ∀ {n g} {ts ts' : List Token}, Reads [.rbrace] n g ts ts' → ts' ≠ [] → ts ≠ [] := by
    intro n g ts ts' h hne
    have hl := h.consumes.length_le
    rw [← List.length_pos_iff] at hne ⊢
    omega
  -- The semicolon that a statement takes comes from tokens that are there.
  have value : ∀ {ts : List Token}, skipSemicolon ts ≠ [] → ts ≠ [] := by
    rintro ts hne rfl
    exact hne rfl
  induction h with
  -- Tokens remain behind the first part, since the second part takes some of them.
  | expression _ h₂ ih₁ ih₂ =>
    intro m s hs
    rw [ih₁ (before h₂ hne) m s, ih₂ hne m s hs]
  | @identifier _ t _ hk | @string _ t _ hk | @truth _ t _ hk | @falsity _ t _ hk =>
    intro m s
    refine feedAll_cons_of_ok ?_
    show (m.set s .operand).operand t = _
    rw [operand, hk]
    rfl
  | @integer _ v t _ hk hv =>
    intro m s
    refine feedAll_cons_of_ok ?_
    show (m.set s .operand).operand t = _
    simp only [operand, hk, hv]
    rfl
  | prefixed hk h ih => exact simulates_prefixed hk (ih hne) h.stopsAt hne
  | group ht _ hu ih => exact simulates_group ht (ih (List.cons_ne_nil _ _)) hu
  | conditional ht ho _ hu _ he ih₁ ih₂ =>
    exact simulates_conditional ht ho (ih₁ (List.cons_ne_nil _ _)) hu (ih₂ hne) he hne
  | alternative ht ho _ hu _ hl _ ih₁ ih₂ ih₃ =>
    exact simulates_alternative ht ho (ih₁ (List.cons_ne_nil _ _)) hu
      (ih₂ (List.cons_ne_nil _ _)) hl (ih₃ hne) hne
  | function ht _ h₂ ih₁ ih₂ => exact simulates_function ht (ih₁ (before h₂ hne)) (ih₂ hne) hne
  | noParameters ho hu => exact simulates_noParameters ho hu
  | parameters ho hx _ ih => exact simulates_parameters ho hx (ih hne)
  | lastParameter hu => exact simulates_lastParameter hu
  | nextParameter hc hx _ ih => exact simulates_nextParameter hc hx (ih hne)
  | noArguments ho hu => exact simulates_noArguments ho hu
  | arguments ho h₁ h₂ ih₁ ih₂ =>
    exact simulates_arguments ho h₁.startsWith (ih₁ (before h₂ hne)) (ih₂ hne)
  | lastArgument hu => exact simulates_lastArgument hu
  | nextArgument hc _ h₂ ih₁ ih₂ =>
    exact simulates_nextArgument hc (ih₁ (before h₂ hne)) (ih₂ hne)
  | stop _ => exact fun _ _ _ => rfl
  | call _ _ _ h₂ ih₁ ih₂ => exact simulates_call (ih₁ (before h₂ hne)) (ih₂ hne)
  | infixed ht hp h₁ h₂ ih₁ ih₂ =>
    have hne₁ := before h₂ hne
    exact simulates_infixed ht hp (ih₁ hne₁) (ih₂ hne) h₁.stopsAt hne₁
  | @block _ _ _ _ ts₁ ho _ hc ih =>
    cases ts₁ with
    | nil => exact absurd rfl hne
    | cons u us => exact simulates_block ho (ih (List.cons_ne_nil _ _)) (List.mem_singleton.1 hc)
  | letStatement ht hx ha h ih =>
    exact simulates_letStatement ht hx ha (ih (value hne)) h.stopsAt (value hne)
  | bareReturn ht hn => exact simulates_bareReturn ht hn (value hne)
  | returnStatement ht h ih =>
    exact simulates_returnStatement ht h.startsWith (ih (value hne)) h.stopsAt (value hne)
  | expressionStatement h ih =>
    exact simulates_expressionStatement h.startsWith (ih (value hne)) h.stopsAt (value hne)
  | noStatements => exact fun _ _ => rfl
  | statements _ h₂ ih₁ ih₂ => exact simulates_statements (ih₁ (before h₂ hne)) (ih₂ hne)

/-- Where a reading ends at the end of the text, the machine ends with its statements. -/
theorem feedAll_of_reads {n : Nat} {ss : List Code} {tokens : List Token} {t : Token}
    (h : Reads [.rbrace] n (.statements ss) tokens [t]) (ht : t.kind = .eof) :
    ({} : Machine).feedAll tokens = .ok { done := ss.reverse } := by
  have hs := simulates_of_reads h (List.cons_ne_nil _ _) {} []
  -- The end of the text leaves the machine as it is: no construct is open.
  have hf : ({ done := ss.reverse } : Machine).feed t = .ok { done := ss.reverse } := by
    show ({ done := ss.reverse } : Machine).statement t = _
    rw [statement, ht]
    rfl
  rw [foldl_endStatement_program, List.append_nil] at hs
  exact hs.trans (feedAll_cons_of_ok hf)

end MonkeyLang.Grammar
