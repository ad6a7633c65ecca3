import MonkeyLang.Proofs.Grammar.Simulation
import MonkeyLang.Proofs.Syntax.Balance

/-!
# What one token does to the machine

Every token that the machine takes is of a kind that the mode tries, opens or closes the block that
its brace says, takes no diagnostic back and leaves the stack empty at the end of the text:
`steps_feed`. What a whole run does follows by induction.
-/

namespace MonkeyLang.Grammar

/-- What a construct that is begun adds to the number of open blocks. -/
def Pending.blocks : Pending → Nat
  | .block .. => 1
  | _ => 0

def openBlocks : List Pending → Nat
  | [] => 0
  | p :: s => p.blocks + openBlocks s

namespace Machine

/-- How the machine `m` becomes `m'` by a token of the kind `k`, where the kinds in `allowed` can
stand. -/
structure Stepped (m : Machine) (k : Kind) (allowed : Kind → Bool) (m' : Machine) : Prop where
  /-- The token can stand where it is. -/
  allowed : k ≠ .eof → allowed k = true
  /-- The number of open blocks follows the braces. -/
  blocks : (openBlocks m'.stack : Int) = openBlocks m.stack + k.braceWeight
  /-- No diagnostic is taken back. -/
  diagnostics : m'.diagnostics = #[] → m.diagnostics = #[]
  /-- An operand must follow an `=` and a `!`. -/
  operand : k ∈ [.assign, .bang] → m'.mode = .operand
  /-- Nothing is left open at the end of the text. -/
  final : k = .eof → m'.stack = []

/-- The result `r` of the machine `m` at a token of the kind `k` is a step, if there is one. -/
def Steps (m : Machine) (k : Kind) (allowed : Kind → Bool) (r : Except Diagnostic Machine) : Prop :=
  ∀ m', r = .ok m' → Stepped m k allowed m'

namespace Steps

variable {m m₁ : Machine} {k : Kind} {f g : Kind → Bool} {d : Diagnostic}
  {r : Except Diagnostic Machine}

theorem error : Steps m k f (.error d) := by
  intro m' h
  cases h

/-- A token that moves the machine on and is none of the special ones. -/
theorem ok (hk : k ∉ [.assign, .bang, .eof]) (hf : f k = true)
    (hb : (openBlocks m₁.stack : Int) = openBlocks m.stack + k.braceWeight)
    (hd : m₁.diagnostics = #[] → m.diagnostics = #[]) : Steps m k f (.ok m₁) := by
  intro m' h
  cases h
  refine ⟨fun _ => hf, hb, hd, fun ho => (hk ?_).elim, fun he => (hk ?_).elim⟩
  · exact List.mem_append_left [Kind.eof] ho
  · rw [he]
    decide

/-- A token behind which an operand must follow. -/
theorem ok_operand (hk : k ≠ .eof) (hf : f k = true)
    (hb : (openBlocks m₁.stack : Int) = openBlocks m.stack + k.braceWeight)
    (hd : m₁.diagnostics = m.diagnostics) (ho : m₁.mode = .operand) : Steps m k f (.ok m₁) := by
  intro m' h
  cases h
  exact ⟨fun _ => hf, hb, fun h => hd ▸ h, fun _ => ho, fun he => absurd he hk⟩

/-- The mode of the machine before the token does not matter, nor do constructs that are no
blocks. -/
theorem of_eq (h : Steps m₁ k f r) (hb : openBlocks m₁.stack = openBlocks m.stack)
    (hd : m₁.diagnostics = m.diagnostics) : Steps m k f r := by
  intro m' hr
  obtain ⟨h₁, h₂, h₃, h₄, h₅⟩ := h m' hr
  rw [hb] at h₂
  rw [hd] at h₃
  exact ⟨h₁, h₂, h₃, h₄, h₅⟩

theorem weaken (h : Steps m k f r) (hfg : ∀ k, f k = true → g k = true) : Steps m k g r := by
  intro m' hr
  obtain ⟨h₁, h₂, h₃, h₄, h₅⟩ := h m' hr
  exact ⟨fun he => hfg _ (h₁ he), h₂, h₃, h₄, h₅⟩

end Steps

variable (m : Machine) (t : Token)

/-- A token that starts an operand. -/
theorem steps_operand : Steps m t.kind Kind.startsOperand (m.operand t) := by
  unfold operand
  cases hk : t.kind
  case int =>
    dsimp only
    split
    · exact .ok (by decide) rfl (by simp [inMode, Kind.braceWeight]) id
    · exact .ok (by decide) rfl (by simp [Kind.braceWeight]) fun h => absurd h Array.push_ne_empty
  case bang =>
    exact .ok_operand (by decide) rfl
      (by simp [push, openBlocks, Pending.blocks, Kind.braceWeight]) rfl rfl
  case ident | string | kwTrue | kwFalse | kwIf | kwFn =>
    exact .ok (by decide) rfl (by simp [inMode, Kind.braceWeight]) id
  case minus | lparen =>
    exact .ok (by decide) rfl (by simp [push, openBlocks, Pending.blocks, Kind.braceWeight]) id
  all_goals exact .error

/-- Filing a statement opens no block and reports nothing. -/
theorem endStatement_blocks (s : Code) :
    openBlocks (m.endStatement s).stack = openBlocks m.stack ∧
      (m.endStatement s).diagnostics = m.diagnostics := by
  unfold endStatement
  split
  · next hs => exact ⟨by rw [hs]; rfl, rfl⟩
  · exact ⟨rfl, rfl⟩

/-- A closing brace ends the block on top of the stack, or is an error. -/
theorem steps_endBlock : Steps m .rbrace (Mode.accepts .statement) (m.endBlock t) := by
  unfold endBlock
  split
  · next hs =>
    -- The block on top counts one, which the weight of its brace takes off.
    have hb : ∀ r : List Pending, (openBlocks r : Int) = (1 + openBlocks r : Nat) + -1 := by
      intro r
      omega
    split <;> exact .ok (by decide) rfl (by rw [hs]; exact hb _) id
  · exact .error

/-- A token where a statement can start: one that does, or the end of a block or of the text. -/
theorem steps_statement : Steps m t.kind (Mode.accepts .statement) (m.statement t) := by
  -- most tokens begin an expression, with its statement pending
  have operand : Steps m t.kind (Mode.accepts .statement)
      (({ m with stack := .statementValue :: m.stack } : Machine).operand t) := by
    refine ((steps_operand _ t).weaken ?_).of_eq ?_ rfl
    · intro k
      cases k <;> decide
    · simp [openBlocks, Pending.blocks]
  unfold statement
  cases hk : t.kind
  case kwLet | kwReturn => exact .ok (by decide) rfl (by simp [inMode, Kind.braceWeight]) id
  case rbrace => exact steps_endBlock m t
  case eof =>
    dsimp only
    split
    -- the end of the text ends the program only where nothing is pending
    · next hs =>
      intro m' h
      cases h
      exact ⟨fun he => absurd rfl he, by simp [inMode, Kind.braceWeight], id,
        fun h => absurd h (by decide), fun _ => List.isEmpty_iff.1 hs⟩
    · exact .error
  all_goals
    rw [hk] at operand
    exact operand

/-- A token behind a statement: its semicolon, or what can stand where the next one starts. -/
theorem steps_afterStatement (s : Code) :
    Steps m t.kind (Mode.accepts .returned) (m.afterStatement s t) := by
  obtain ⟨hb, hd⟩ := endStatement_blocks m s
  unfold afterStatement
  dsimp only
  split
  · next hk =>
    rw [hk]
    exact .ok (by decide) rfl (by simp [hb, Kind.braceWeight]) (fun h => hd ▸ h)
  · refine ((steps_statement _ t).weaken ?_).of_eq hb hd
    intro k
    cases k <;> decide

/-- Putting operations together closes no block. -/
theorem reduce_blocks (p : Precedence) (e : Code) (s : List Pending) :
    openBlocks (reduce p e s).2 = openBlocks s := by
  fun_induction reduce p e s with
  | case1 e operator s ih => rw [ih]; simp [openBlocks, Pending.blocks]
  | case2 => rfl
  | case3 e left operator p s hp ih => rw [ih]; simp [openBlocks, Pending.blocks]
  | case4 => rfl

/-- A token that the mode wants and that changes no block, or only opens one. -/
theorem steps_take {k : Kind} {f : Kind → Bool} {m₁ : Machine} (hk : k ∉ [.assign, .bang, .eof])
    (hf : f k = true) (hb : (openBlocks m₁.stack : Int) = openBlocks m.stack + k.braceWeight)
    (hd : m₁.diagnostics = m.diagnostics) :
    Steps m t.kind f (if t.kind = k then .ok m₁ else .error (unexpected t)) := by
  split
  · next he =>
    rw [he]
    exact .ok hk hf hb fun h => hd ▸ h
  · exact .error

/-- A token behind an expression, for every construct that the expression can end in. -/
theorem steps_conclude (e : Code) (s : List Pending) (x : Mode) :
    Steps (m.set s x) t.kind followsOperand (m.conclude t e s) := by
  -- three of the pending constructs are statements that end here
  have statement : ∀ (q : Pending) (s : List Pending) (st : Code), q.blocks = 0 →
      Steps (m.set (q :: s) x) t.kind followsOperand
        ((m.set s .statement).afterStatement st t) := by
    intro q s st hq
    refine ((steps_afterStatement _ t st).weaken ?_).of_eq ?_ rfl
    · intro k
      cases k <;> decide
    · simp [set, openBlocks, hq]
  unfold conclude
  split
  · exact statement _ _ _ rfl
  · exact statement _ _ _ rfl
  · exact statement _ _ _ rfl
  · exact steps_take _ t (by decide) rfl
      (by simp [set, openBlocks, Pending.blocks, Kind.braceWeight]) rfl
  · exact steps_take _ t (by decide) rfl
      (by simp [set, openBlocks, Pending.blocks, Kind.braceWeight]) rfl
  -- an argument, behind which a comma or the parenthesis follows
  · cases t.kind
    case comma | rparen =>
      exact .ok (by decide) rfl (by simp [set, openBlocks, Pending.blocks, Kind.braceWeight]) id
    all_goals exact .error
  · exact .error

/-- A token behind an operand: a call, an operator or one that ends the expression. -/
theorem steps_afterOperand (e : Code) : Steps m t.kind followsOperand (m.afterOperand e t) := by
  unfold afterOperand
  split
  · next hk =>
    rw [hk]
    exact .ok (by decide) rfl (by simp [inMode, Kind.braceWeight]) id
  split
  · have h := steps_conclude m t (reduce .lowest e m.stack).1 (reduce .lowest e m.stack).2 m.mode
    have he := endExpression_set m m.stack m.mode e t
    rw [← he] at h
    exact h.of_eq (reduce_blocks _ _ _) rfl
  · next hl hp =>
    -- A token that binds is an infix operator, since a call was met before.
    have hk : followsOperand t.kind = true ∧ t.kind.braceWeight = 0 ∧ t.kind ≠ .eof := by
      revert hl hp
      cases t.kind <;> decide
    obtain ⟨hf, hw, he⟩ := hk
    exact .ok_operand he hf (by simp [openBlocks, Pending.blocks, reduce_blocks, hw]) rfl rfl

/-- Every token that the machine takes is a step of it. -/
theorem steps_feed : Steps m t.kind m.mode.accepts (m.feed t) := by
  -- where an operand must come, what waits for it is pushed first, and that opens no block
  have operand : ∀ (q : Pending) (x : Mode), q.blocks = 0 →
      (∀ k, Kind.startsOperand k = true → x.accepts k = true) →
      Steps m t.kind x.accepts (({ m with stack := q :: m.stack } : Machine).operand t) := by
    intro q x hq hx
    exact ((steps_operand _ t).weaken hx).of_eq (by simp [openBlocks, hq]) rfl
  unfold feed
  dsimp only
  cases m.mode with
  | statement => exact steps_statement m t
  | returned =>
    dsimp only
    split
    · exact operand _ _ rfl fun k => by cases k <;> decide
    · exact steps_afterStatement m t _
  | operand => exact (steps_operand m t).weaken fun k hk => hk
  | callOpen f =>
    dsimp only
    split
    · next hk =>
      rw [hk]
      exact .ok (by decide) rfl (by simp [inMode, Kind.braceWeight]) id
    · refine operand _ _ rfl fun k hk => ?_
      cases k <;> first | rfl | exact absurd hk (by decide)
  | ended e => exact (steps_afterOperand m t _).weaken fun k hk => hk
  | closed e =>
    refine (steps_afterOperand m t _).weaken fun k hk => ?_
    cases k <;> first | rfl | exact absurd hk (by decide)
  | consequence c b =>
    dsimp only
    split
    · next hk =>
      rw [hk]
      exact .ok (by decide) rfl (by simp [inMode, Kind.braceWeight]) id
    · refine (steps_afterOperand m t _).weaken fun k hk => ?_
      cases k <;> first | rfl | exact absurd hk (by decide)
  | letName => exact steps_take m t (by decide) rfl (by simp [inMode, Kind.braceWeight]) rfl
  | letAssign name =>
    dsimp only
    split
    · next hk =>
      rw [hk]
      exact .ok_operand (by decide) rfl
        (by simp [push, openBlocks, Pending.blocks, Kind.braceWeight]) rfl rfl
    · exact .error
  | ifOpen =>
    exact steps_take m t (by decide) rfl
      (by simp [push, openBlocks, Pending.blocks, Kind.braceWeight]) rfl
  | fnOpen => exact steps_take m t (by decide) rfl (by simp [inMode, Kind.braceWeight]) rfl
  | parametersOpen =>
    cases t.kind
    case ident | rparen => exact .ok (by decide) rfl (by simp [inMode, Kind.braceWeight]) id
    all_goals exact .error
  | parameter ps =>
    cases t.kind
    case comma | rparen => exact .ok (by decide) rfl (by simp [inMode, Kind.braceWeight]) id
    all_goals exact .error
  | parameterNext ps =>
    exact steps_take m t (by decide) rfl (by simp [inMode, Kind.braceWeight]) rfl
  | conditionClosed c =>
    refine steps_take m t (k := .lbrace) (by decide) rfl ?_ rfl
    simp [push, openBlocks, Pending.blocks, Kind.braceWeight, Int.add_comm]
  | elseOpen c b =>
    refine steps_take m t (k := .lbrace) (by decide) rfl ?_ rfl
    simp [push, openBlocks, Pending.blocks, Kind.braceWeight, Int.add_comm]
  | parametersClosed ps =>
    refine steps_take m t (k := .lbrace) (by decide) rfl ?_ rfl
    simp [push, openBlocks, Pending.blocks, Kind.braceWeight, Int.add_comm]

end Machine

end MonkeyLang.Grammar
