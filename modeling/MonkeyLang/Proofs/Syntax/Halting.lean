import MonkeyLang.Proofs.Grammar.Context
import MonkeyLang.Proofs.Syntax.Soundness
import MonkeyLang.Proofs.Syntax.Stage
import MonkeyLang.Proofs.Syntax.Transfer
import MonkeyLang.Proofs.Token.Partition

/-!
# Every text is read to its end

A reader may turn back before it has taken a token, and behind the last token the end of the text
comes for ever, so it takes an argument that reading ends. It is that an expression inside another
one starts behind a token that was taken (`haltsBelow_expressionWith`), and that each round of a
loop takes one. So there is a result wherever the budget for nesting and the rounds of the loops are
more than the tokens left before the end of the text, whatever these tokens are.

How often a reader asks for a token past the end is bounded too. Only the loop over statements moves
on with the end of the text in hand, once before it stops, and every such loop but the outermost one
has taken an opening brace. `Halts` says so in terms of the lead of the cursor.
-/

namespace MonkeyLang.Parse

variable {α β : Type} {c : Cursor} {k : Kind} {b : Bool} {m n : Nat}

/-! ## A logic for readers that have a result -/

/-- The reader `x` has a result at `c`. On the way there each token is taken and dealt with in its
order, the one in hand only if it was not `dealt` with before, and the lead rises by `n` at most. -/
def Halts (n : Nat) (x : Parse α) (c : Cursor) (dealt : Bool) : Prop :=
  ∃ a c', x c = some (a, c') ∧ Stage.Path ⟨c, dealt⟩ ⟨c', true⟩ ∧ c'.lead ≤ c.lead + n

namespace Halts

theorem pure (a : α) : Halts n (Pure.pure a : Parse α) c true :=
  ⟨a, c, rfl, .refl, by omega⟩

/-- The reader goes on from where the steps lead, if these do not raise the lead. -/
theorem of_path {x y : Parse α} {c₁ : Cursor} {b₁ : Bool} (hp : Stage.Path ⟨c, b⟩ ⟨c₁, b₁⟩)
    (hl : c₁.lead + m ≤ c.lead + n) (hxy : x c = y c₁) (h : Halts m y c₁ b₁) : Halts n x c b := by
  obtain ⟨a, c', hr, hp', hl'⟩ := h
  exact ⟨a, c', hxy.trans hr, hp.trans hp', by omega⟩

/-- A token that is no numeral out of range needs nothing said about it. -/
theorem pass {x : Parse α} (hc : c.current.isOutOfRange = false) (h : Halts n x c true) :
    Halts n x c false :=
  of_path (.single (.pass hc)) (Int.le_refl _) rfl h

/-- Only a numeral can be out of range, so a token of any other kind is dealt with as it is. -/
theorem pass_of_eq {x : Parse α} (hk : c.current.kind = k) (hi : k ≠ .int)
    (h : Halts n x c true) : Halts n x c false :=
  pass (Token.isOutOfRange_of_ne hk hi) h

/-- Two readers one after the other. The first one takes no end of the text, so all of the lead is
left to the second, which starts no further from the end than the first. -/
theorem bind {x : Parse α} {f : α → Parse β} (hc : c.Checked) (hx : Halts 0 x c b)
    (hf : ∀ a c₁, c₁.Checked → c₁.ahead ≤ c.ahead → Halts n (f a) c₁ true) :
    Halts n (x >>= f) c b := by
  obtain ⟨a, c₁, hr, hp, hl⟩ := hx
  -- The second reader starts where the first one stopped, with its token dealt with.
  refine of_path hp (by omega) ?_ (hf a c₁ (hp.checked hc) hp.ahead_le)
  rw [bind_apply, hr]
  rfl

/-- Only what is made of the result comes after the reader. -/
theorem map {x : Parse α} (f : α → β) (hx : Halts n x c b) : Halts n (do return f (← x)) c b := by
  obtain ⟨a, c', hr, hp, hl⟩ := hx
  refine ⟨f a, c', ?_, hp, hl⟩
  rw [bind_apply, hr]
  rfl

theorem current {f : Token → Parse β} (h : Halts n (f c.current) c b) :
    Halts n (Parse.current >>= f) c b := h

theorem peek {f : Token → Parse β} (h : Halts n (f c.peek) c b) :
    Halts n (Parse.peek >>= f) c b := h

/-- Moving on pays for what follows with the token in hand and the one that it takes, where these
are before the end of the text. -/
theorem advance {x : Parse β} (hc : c.Checked) (hm : m + 1 ≤ n + c.weight + c.advance.weight)
    (h : Halts m x c.advance false) : Halts n (do Parse.advance; x) c true := by
  have hl := hc.lead_advance
  exact of_path (m := m) (.single (.advance c)) (by omega) rfl h

/-- A token in hand that is not the end of the text pays for the one that is taken, whatever that
is. -/
theorem advance_of_ne {x : Parse β} (hc : c.Checked) (hk : c.current.kind ≠ .eof)
    (h : Halts n x c.advance false) : Halts n (do Parse.advance; x) c true := by
  have hw := Cursor.weight_of_ne hk
  exact advance hc (by omega) h

/-- A mistake of the grammar is reported without a token being taken. -/
theorem mistake {x : Parse β} {d : Diagnostic} (hd : d.isLexical = false)
    (h : Halts n x (c.report d) b) : Halts n (do Parse.report d; x) c b :=
  of_path (.single (.mistake hd)) (Int.le_refl _) rfl h

/-- Taking a token of the kind `k` or leaving another. The kind is not the end of the text, so the
one that is taken pays for itself. -/
theorem accept {f : Bool → Parse β} (hk : k ∉ [.eof, .int]) (hc : c.Checked)
    (ht : c.Meets k → c.advance.Checked → Halts n (f true) c.advance true)
    (hf : Halts n (f false) c true) : Halts n (accept k >>= f) c true := by
  simp only [List.mem_cons, List.not_mem_nil, or_false, not_or] at hk
  by_cases hn : nextKind c.upcoming = k
  · have hm : c.Meets k := .of_nextKind hn hk.1
    have hw : c.advance.weight = 1 := Cursor.weight_of_ne (hm.kind ▸ hk.1)
    -- The token that was taken is not a numeral, so nothing is said about it.
    have h := pass_of_eq hm.kind hk.2 (ht hm hc.advance)
    refine of_path (m := n) .refl (Int.le_refl _) ?_ (advance hc (by omega) h)
    rw [bind_apply, accept_apply, hc.kind_peek, if_pos hn]
    rfl
  · refine of_path (m := n) .refl (Int.le_refl _) ?_ hf
    rw [bind_apply, accept_apply, hc.kind_peek, if_neg hn]
    rfl

/-- The same, but for the mistake that another token is. -/
theorem expect {f : Bool → Parse β} (hk : k ∉ [.eof, .int]) (hc : c.Checked)
    (ht : c.Meets k → c.advance.Checked → Halts n (f true) c.advance true)
    (hf : ∀ d, Halts n (f false) (c.report d) true) : Halts n (expect k >>= f) c true := by
  -- To expect a kind is to accept it or else to report that it did not come.
  have hx : (Parse.expect k >>= f) c = (Parse.accept k >>= fun b => if b then f true else do
      Parse.report (.wrongToken k c.peek.kind c.peek.position); f false : Parse β) c := by
    rw [bind_apply, bind_apply, expect_apply, accept_apply]
    split <;> rfl
  refine of_path (m := n) .refl (Int.le_refl _) hx (accept hk hc ht ?_)
  exact mistake rfl (hf _)

/-- Where another token comes, the reader is done with nothing in its hands. -/
theorem requiring {x : Parse Code} (hk : k ∉ [.eof, .int]) (hc : c.Checked)
    (h : c.Meets k → c.advance.Checked → Halts n x c.advance true) :
    Halts n (requiring k x) c true :=
  expect hk hc h fun _ => pure _

theorem semicolon (a : α) (hc : c.Checked) :
    Halts n (do let _ ← Parse.accept .semicolon; return a) c true :=
  accept (by decide) hc (fun _ _ => pure _) (pure _)

end Halts

/-! ## Statements -/

/-- The reader of expressions has a result wherever fewer than `k` tokens are left before the end of
the text. -/
def HaltsBelow (k : Nat) (inner : ExpressionReader) : Prop :=
  ∀ (p : Precedence) (c : Cursor), c.Checked → c.left < k → Halts 0 (inner p) c false

section

variable {k fuel rounds : Nat} {inner : ExpressionReader}

/-- An expression behind the token in hand. -/
theorem HaltsBelow.advance (hi : HaltsBelow k inner) (hc : c.Checked) (hk : c.ahead < k)
    (p : Precedence) : Halts 0 (inner p) c.advance false :=
  hi p _ hc.advance (hc.left_advance.trans_lt hk)

/-- A let statement: its value starts behind the equals sign that was taken. -/
theorem halts_letStatement (hi : HaltsBelow k inner) (hc : c.Checked) (hk : c.ahead < k) :
    Halts 0 (letStatement inner) c true := by
  refine .requiring (by decide) hc fun _ hc₁ => .current ?_
  refine .requiring (by decide) hc₁ fun ha hc₂ => ?_
  -- The name and the equals sign are taken: the value has no more tokens left than were ahead.
  have h₁ := c.ahead_advance_le
  have h₂ := c.advance.ahead_advance_le
  refine .advance_of_ne hc₂ (by rw [ha.kind]; decide) ?_
  refine .bind hc₂.advance (hi.advance hc₂ (by omega) _) fun e c₃ hc₃ _ => ?_
  exact .semicolon _ hc₃

/-- A return statement: its value starts behind the keyword in hand. -/
theorem halts_returnStatement (hi : HaltsBelow k inner) (hc : c.Checked) (hk : c.ahead < k)
    (hr : c.current.kind = .kwReturn) : Halts 0 (returnStatement inner) c true := by
  have hne : c.current.kind ≠ .eof := by
    rw [hr]
    decide
  refine .peek ?_
  rw [hc.kind_peek]
  split
  · next h =>
    have hm : c.Meets .semicolon := .of_nextKind h (by decide)
    exact .advance_of_ne hc hne (.pass_of_eq hm.kind (by decide) (.pure _))
  · exact .pure _
  · exact .pure _
  · refine .advance_of_ne hc hne ?_
    refine .bind hc.advance (hi.advance hc hk _) fun e c₁ hc₁ _ => ?_
    exact .semicolon _ hc₁

/-- A statement of any form has a result where its expressions have one. -/
theorem halts_statement (hi : HaltsBelow k inner) (hc : c.Checked) (hk : c.left < k) :
    Halts 0 (statement inner) c false := by
  have hl := c.left_eq
  refine .current ?_
  split
  · next h => exact .pass_of_eq h (by decide) (halts_letStatement hi hc (by omega))
  · next h => exact .pass_of_eq h (by decide) (halts_returnStatement hi hc (by omega) h)
  · refine .bind hc (hi _ c hc hk) fun e c₁ hc₁ _ => ?_
    exact .semicolon _ hc₁

/-- A round of the loop over statements takes the token that its statement starts with, so the next
round has fewer tokens left. -/
theorem halts_statements_succ {closing : List Kind} (hi : HaltsBelow k inner) (he : .eof ∈ closing)
    (hn : .int ∉ closing) (hc : c.Checked) (hk : c.left < k)
    (next : ∀ d : Cursor, d.Checked → d.left < c.left →
      Halts d.weight (statements inner closing rounds) d false) :
    Halts c.weight (statements inner closing (rounds + 1)) c false := by
  refine .current ?_
  split
  · next h =>
    have hne : c.current.kind ≠ .int := fun h' => hn (h' ▸ h)
    exact .pass_of_eq rfl hne (.pure _)
  · next h =>
    -- The end of the text would have closed the loop, so the token in hand is before it.
    have hne : c.current.kind ≠ .eof := fun h' => h (h' ▸ he)
    have hw := Cursor.weight_of_ne hne
    have hl := c.left_eq
    rw [hw]
    refine .bind hc (halts_statement hi hc hk) fun s c₁ hc₁ h₁ => ?_
    have hl₁ := hc₁.left_advance
    exact .advance hc₁ (by omega) (.map _ (next _ hc₁.advance (by omega)))

/-- The loop over statements has a result if its rounds are more than the tokens left. It is the one
reader that may take an end of the text, and pays for it with the token in hand. -/
theorem halts_statements {closing : List Kind} (hi : HaltsBelow k inner) (he : .eof ∈ closing)
    (hn : .int ∉ closing) (hc : c.Checked) (hk : c.left < k) (hr : c.left < rounds) :
    Halts c.weight (statements inner closing rounds) c false := by
  induction rounds generalizing c with
  | zero => omega
  | succ rounds ih =>
    exact halts_statements_succ hi he hn hc hk fun d hd hlt => ih hd (by omega) (by omega)

/-- A block: the brace in hand pays for the end of the text that the loop inside may take. -/
theorem halts_block (hi : HaltsBelow k inner) (hf : k ≤ fuel) (hc : c.Checked) (hk : c.ahead < k)
    (hb : c.current.kind = .lbrace) : Halts 0 (block fuel inner) c true := by
  have hw : c.weight = 1 := Cursor.weight_of_ne (by rw [hb]; decide)
  have hl := hc.left_advance
  have h : Halts c.advance.weight (statements inner [.rbrace, .eof] fuel) c.advance false :=
    halts_statements hi (by decide) (by decide) hc.advance (by omega) (by omega)
  exact .advance hc (by omega) (.map _ h)

/-! ## Operands -/

/-- The token of an integer literal is dealt with by its value, or by saying that it has none. -/
theorem halts_integerLiteral (hk : c.current.kind = .int) : Halts 0 integerLiteral c false := by
  refine .current ?_
  split
  · next h => exact .pass (by simp [Token.isOutOfRange, h]) (.pure _)
  · next h =>
    have hr : c.current.isOutOfRange = true := by simp [Token.isOutOfRange, hk, h]
    exact .of_path (m := 0) (.single (.integerRange hr)) (Int.le_refl _) rfl (.pure _)

/-- The operand of a prefix operator starts behind the operator. -/
theorem halts_prefixed (hi : HaltsBelow k inner) (hc : c.Checked) (hk : c.ahead < k)
    (hne : c.current.kind ≠ .eof) : Halts 0 (prefixed inner) c true :=
  .current (.advance_of_ne hc hne (.map _ (hi.advance hc hk _)))

/-- The expression of a group starts behind the parenthesis. -/
theorem halts_grouped (hi : HaltsBelow k inner) (hc : c.Checked) (hk : c.ahead < k)
    (hne : c.current.kind ≠ .eof) : Halts 0 (grouped inner) c true := by
  refine .advance_of_ne hc hne (.bind hc.advance (hi.advance hc hk _) fun e c₁ hc₁ _ => ?_)
  exact .requiring (by decide) hc₁ fun _ _ => .pure _

/-- A conditional: each of its parts starts behind a token that was taken, so each has fewer tokens
left than the one before. -/
theorem halts_conditional (hi : HaltsBelow k inner) (hf : k ≤ fuel) (hc : c.Checked)
    (hk : c.ahead < k) : Halts 0 (conditional fuel inner) c true := by
  have h₁ := c.ahead_advance_le
  refine .requiring (by decide) hc fun ho hc₁ => .advance_of_ne hc₁ (by rw [ho.kind]; decide) ?_
  have h₂ := c.advance.ahead_advance_le
  refine .bind hc₁.advance (hi.advance hc₁ (by omega) _) fun e c₂ hc₂ hl₂ => ?_
  -- Nothing that follows has more tokens ahead than the cursor behind the condition.
  have h₃ := c₂.ahead_advance_le
  have h₄ := c₂.advance.ahead_advance_le
  refine .requiring (by decide) hc₂ fun _ hc₃ => .requiring (by decide) hc₃ fun hb hc₄ => ?_
  refine .bind hc₄ (halts_block hi hf hc₄ (by omega) hb.kind) fun b c₅ hc₅ hl₅ => ?_
  have h₅ := c₅.ahead_advance_le
  have h₆ := c₅.advance.ahead_advance_le
  refine .accept (by decide) hc₅ (fun _ hc₆ => ?_) (.pure _)
  refine .requiring (by decide) hc₆ fun hb hc₇ => .map _ ?_
  exact halts_block hi hf hc₇ (by omega) hb.kind

/-- A round of the loop over parameters takes the comma before a name. -/
theorem halts_moreParameters_succ (hc : c.Checked)
    (next : ∀ d : Cursor, d.Checked → d.ahead < c.ahead → Halts 0 (moreParameters rounds) d true) :
    Halts 0 (moreParameters (rounds + 1)) c true := by
  refine .accept (by decide) hc (fun hm hc₁ => ?_) ?_
  · refine .expect (by decide) hc₁ (fun _ hc₂ => .current (.map _ (next _ hc₂ ?_))) fun _ => .pure _
    -- The comma was before the end of the text, so fewer tokens are ahead of the name behind it.
    have h₁ := hm.ahead_lt (by decide)
    have h₂ := c.advance.ahead_advance_le
    omega
  · exact .expect (by decide) hc (fun _ _ => .pure _) fun _ => .pure _

/-- The loop over parameters has a result if its rounds are more than the tokens ahead. -/
theorem halts_moreParameters (hc : c.Checked) (hr : c.ahead < rounds) :
    Halts 0 (moreParameters rounds) c true := by
  induction rounds generalizing c with
  | zero => omega
  | succ rounds ih => exact halts_moreParameters_succ hc fun d hd hlt => ih hd (by omega)

/-- A list of parameters has a result with fuel for the tokens ahead. -/
theorem halts_parameters (hc : c.Checked) (hf : c.ahead < fuel) :
    Halts 0 (parameters fuel) c true := by
  refine .accept (by decide) hc (fun _ _ => .pure _) ?_
  refine .expect (by decide) hc (fun _ hc₁ => .current (.map _ ?_)) fun _ => .pure _
  have h₁ := c.ahead_advance_le
  exact halts_moreParameters hc₁ (by omega)

/-- A function literal: a list of parameters that could not be read ends it. -/
theorem halts_function (hi : HaltsBelow k inner) (hf : k ≤ fuel) (hc : c.Checked)
    (hk : c.ahead < k) : Halts 0 (function fuel inner) c true := by
  have h₁ := c.ahead_advance_le
  refine .requiring (by decide) hc fun _ hc₁ => ?_
  refine .bind hc₁ (halts_parameters hc₁ (by omega)) fun names c₂ hc₂ hl₂ => ?_
  cases names with
  | none => exact .pure _
  | some ps =>
    have h₂ := c₂.ahead_advance_le
    refine .requiring (by decide) hc₂ fun hb hc₃ => .map _ ?_
    exact halts_block hi hf hc₃ (by omega) hb.kind

/-- An operand of any form, for every kind that the token in hand may have. -/
theorem halts_operand (hi : HaltsBelow k inner) (hf : k ≤ fuel) (hc : c.Checked)
    (hk : c.ahead < k) : Halts 0 (operand fuel inner c.current) c false := by
  unfold operand
  split
  · next h => exact .pass_of_eq h (by decide) (.pure _)
  · next h => exact halts_integerLiteral h
  · next h => exact .pass_of_eq h (by decide) (.pure _)
  · next h => exact .pass_of_eq h (by decide) (.pure _)
  · next h => exact .pass_of_eq h (by decide) (.pure _)
  · next h => exact .pass_of_eq h (by decide) (halts_prefixed hi hc hk (by rw [h]; decide))
  · next h => exact .pass_of_eq h (by decide) (halts_prefixed hi hc hk (by rw [h]; decide))
  · next h => exact .pass_of_eq h (by decide) (halts_grouped hi hc hk (by rw [h]; decide))
  · next h => exact .pass_of_eq h (by decide) (halts_conditional hi hf hc hk)
  · next h => exact .pass_of_eq h (by decide) (halts_function hi hf hc hk)
  · exact .pass_of_eq rfl (by assumption) (.pure _)

/-! ## Operations -/

/-- A round of the loop over arguments takes the comma before an argument. -/
theorem halts_moreArguments_succ (hi : HaltsBelow k inner) (hc : c.Checked) (hk : c.ahead < k)
    (next : ∀ d : Cursor, d.Checked → d.ahead < c.ahead →
      Halts 0 (moreArguments inner rounds) d true) :
    Halts 0 (moreArguments inner (rounds + 1)) c true := by
  refine .accept (by decide) hc (fun hm hc₁ => ?_) ?_
  · have h₁ := hm.ahead_lt (by decide)
    have h₂ := c.advance.ahead_advance_le
    refine .advance_of_ne hc₁ (by rw [hm.kind]; decide) ?_
    refine .bind hc₁.advance (hi.advance hc₁ (by omega) _) fun a c₂ hc₂ hl₂ => ?_
    split
    · exact .pure _
    · exact .map _ (next _ hc₂ (by omega))
  · exact .expect (by decide) hc (fun _ _ => .pure _) fun _ => .pure _

/-- The loop over arguments has a result if its rounds are more than the tokens ahead. -/
theorem halts_moreArguments (hi : HaltsBelow k inner) (hc : c.Checked) (hk : c.ahead < k)
    (hr : c.ahead < rounds) : Halts 0 (moreArguments inner rounds) c true := by
  induction rounds generalizing c with
  | zero => omega
  | succ rounds ih =>
    exact halts_moreArguments_succ hi hc hk fun d hd hlt => ih hd (by omega) (by omega)

/-- A list of arguments: a first argument that is missing ends it. -/
theorem halts_arguments (hi : HaltsBelow k inner) (hf : k ≤ fuel) (hc : c.Checked)
    (hk : c.ahead < k) (hne : c.current.kind ≠ .eof) : Halts 0 (arguments fuel inner) c true := by
  refine .accept (by decide) hc (fun _ _ => .pure _) (.advance_of_ne hc hne ?_)
  have h₁ := c.ahead_advance_le
  refine .bind hc.advance (hi.advance hc hk _) fun a c₁ hc₁ hl₁ => ?_
  split
  · exact .pure _
  · exact .map _ (halts_moreArguments hi hc₁ (by omega) (by omega))

/-- One operation on the operand `left`, be it a call or an infix operator. -/
theorem halts_operation (hi : HaltsBelow k inner) (hf : k ≤ fuel) (hc : c.Checked)
    (hk : c.ahead < k) (hne : c.current.kind ≠ .eof) (left : Code) :
    Halts 0 (operation fuel inner left) c true := by
  refine .current ?_
  split
  · refine .bind hc (halts_arguments hi hf hc hk hne) fun as c₁ _ _ => ?_
    cases as <;> exact .pure _
  · exact .advance_of_ne hc hne (.map _ (hi.advance hc hk _))

/-- A round of the loop over operations takes the operator. -/
theorem halts_operations_succ (hi : HaltsBelow k inner) (hf : k ≤ fuel) (hc : c.Checked)
    (hk : c.ahead < k) (p : Precedence) (left : Code)
    (next : ∀ (d : Cursor) (e : Code), d.Checked → d.ahead < c.ahead →
      Halts 0 (operations fuel inner p rounds e) d true) :
    Halts 0 (operations fuel inner p (rounds + 1) left) c true := by
  refine .peek ?_
  rw [hc.kind_peek]
  split
  · next hp =>
    -- What binds tighter than anything is an operator and not the end of the text.
    have heof : nextKind c.upcoming ≠ .eof := Kind.ne_of_lt_precedence hp
    have hm : c.Meets (nextKind c.upcoming) := .of_nextKind rfl heof
    have hne : c.advance.current.kind ≠ .eof := hm.kind ▸ heof
    have hw := Cursor.weight_of_ne hne
    have h₁ := hm.ahead_lt heof
    refine .advance (m := 0) hc (by omega)
      (.pass_of_eq hm.kind (Kind.ne_of_lt_precedence hp) ?_)
    refine .bind hc.advance (halts_operation hi hf hc.advance (by omega) hne left)
      fun e c₁ hc₁ hl₁ => ?_
    exact next c₁ e hc₁ (by omega)
  · exact .pure _

/-- The loop over operations has a result if its rounds are more than the tokens ahead. -/
theorem halts_operations (hi : HaltsBelow k inner) (hf : k ≤ fuel) (hc : c.Checked)
    (hk : c.ahead < k) (hr : c.ahead < rounds) (p : Precedence) (left : Code) :
    Halts 0 (operations fuel inner p rounds left) c true := by
  induction rounds generalizing c left with
  | zero => omega
  | succ rounds ih =>
    exact halts_operations_succ hi hf hc hk p left fun d e hd hlt => ih hd (by omega) (by omega) e

/-- Wherever the expressions inside have a result with fewer than `k` tokens left, the expression
itself has one with `k` tokens left: the ones inside start behind a token that it has taken. -/
theorem haltsBelow_expressionWith (hi : HaltsBelow k inner) (hf : k < fuel) :
    HaltsBelow (k + 1) (expressionWith fuel inner) := by
  intro p c hc hk
  have hl := c.left_eq
  refine .current ?_
  split
  · next hs =>
    -- The end of the text starts no operand, so the token in hand is one of those left.
    have hne : c.current.kind ≠ .eof := by
      intro he
      rw [he] at hs
      cases hs
    have hw := Cursor.weight_of_ne hne
    refine .bind hc (halts_operand hi (by omega) hc (by omega)) fun left c₁ hc₁ hl₁ => ?_
    exact halts_operations hi (by omega) hc₁ (by omega) (by omega) p left
  · next hs =>
    -- A numeral starts an operand, so the token that starts none is no numeral.
    have hne : c.current.kind ≠ .int := by
      intro he
      rw [he] at hs
      exact hs rfl
    refine .pass_of_eq rfl hne ?_
    split
    · exact .pure _
    · exact .mistake rfl (.pure _)

/-- A budget for each token that is left is enough, since each level has taken one. -/
theorem haltsBelow_expression {budget : Nat} (hb : k ≤ budget) (hf : k ≤ fuel) :
    HaltsBelow k (expression fuel budget) := by
  induction k generalizing budget with
  | zero => exact fun _ _ _ hk => absurd hk (Nat.not_lt_zero _)
  | succ k ih =>
    obtain ⟨n, rfl⟩ : ∃ n, budget = n + 1 := ⟨budget - 1, by omega⟩
    exact haltsBelow_expressionWith (ih (by omega) (by omega)) hf

end

/-! ## Programs -/

/-- One round of the loop over statements, with its cursors written out. -/
theorem statements_succ_apply (inner : ExpressionReader) (closing : List Kind) (rounds : Nat)
    (c : Cursor) :
    statements inner closing (rounds + 1) c = if c.current.kind ∈ closing then some ([], c) else
      (statement inner c).bind fun r => (statements inner closing rounds r.2.advance).bind fun q =>
        some (if r.1.isMissing then q.1 else r.1 :: q.1, q.2) := by
  show (if c.current.kind ∈ closing then _ else _ : Parse _) c = _
  split <;> rfl

/-- The loop over statements stops at a token that closes them. -/
theorem kind_mem_of_statements {inner : ExpressionReader} {closing : List Kind} {rounds : Nat}
    {ss : List Code} {c' : Cursor} (h : statements inner closing rounds c = some (ss, c')) :
    c'.current.kind ∈ closing := by
  induction rounds generalizing c ss with
  | zero => cases h
  | succ rounds ih =>
    rw [statements_succ_apply] at h
    split at h
    · next hk =>
      cases h
      exact hk
    · obtain ⟨⟨s, c₁⟩, -, h⟩ := Option.bind_eq_some_iff.1 h
      obtain ⟨⟨rest, c₂⟩, h₂, h⟩ := Option.bind_eq_some_iff.1 h
      cases h
      exact ih h₂

/-- A program has a result that ends with the end of the text in hand, whatever the tokens are. -/
theorem program_halts {fuel budget : Nat} (hc : c.Checked) (hb : c.left < budget)
    (hf : c.left < fuel) : ∃ tree c', program fuel budget c = some (tree, c') ∧
      Stage.Path ⟨c, false⟩ ⟨c', true⟩ ∧ c'.lead ≤ c.lead + c.weight ∧ c'.current.kind = .eof := by
  obtain ⟨ss, c', hr, hp, hl⟩ := halts_statements (haltsBelow_expression hb hf)
    (List.mem_singleton_self _) (by decide) hc (Nat.lt_succ_self _) hf
  refine ⟨.program ss, c', ?_, hp, hl, List.mem_singleton.1 (kind_mem_of_statements hr)⟩
  rw [program, bind_apply, hr]
  rfl

end MonkeyLang.Parse

namespace MonkeyLang

/-! ## Past the end of the text -/

/-- The cursor `c'` has the tokens of `c` before it and then its last token `e` some more times. -/
structure Cursor.Padded (e : Token) (c c' : Cursor) : Prop where
  current : c'.current = c.current
  diagnostics : c'.diagnostics = c.diagnostics
  last : c.upcoming.getLastD c.current = e
  upcoming : ∃ n, c'.upcoming = c.upcoming ++ List.replicate n e

namespace Cursor.Padded

variable {c c' : Cursor} {e : Token}

/-- Both cursors show the same token ahead: past its last token a cursor goes on showing it. -/
theorem peek (h : Padded e c c') : c'.peek = c.peek := by
  obtain ⟨n, hu⟩ := h.upcoming
  have hl := h.last
  rw [Cursor.peek, Cursor.peek, hu, h.current]
  cases hc : c.upcoming with
  | nil =>
    rw [hc] at hl
    cases n with
    | zero => rfl
    | succ n => exact hl.symm
  | cons t ts => rfl

/-- A diagnostic is added to both. -/
theorem report (h : Padded e c c') (d : Diagnostic) : Padded e (c.report d) (c'.report d) where
  current := h.current
  diagnostics := congrArg (Array.push · d) h.diagnostics
  last := h.last
  upcoming := h.upcoming

/-- Among the added ends there is no illegal character to report. -/
theorem nextKind_ne (he : e.kind = .eof) (n : Nat) : nextKind (List.replicate n e) ≠ .illegal := by
  cases n with
  | zero => simp
  | succ n => simp [List.replicate_succ, he]

/-- The look at the token ahead reports the same on both sides: the one cursor sees an added end of
the text where the other sees nothing new, and neither is illegal. -/
theorem inspectPeek (he : e.kind = .eof) (h : Padded e c c') :
    Padded e c.inspectPeek c'.inspectPeek := by
  obtain ⟨n, hu⟩ := h.upcoming
  cases hc : c.upcoming with
  | nil =>
    rw [hc, List.nil_append] at hu
    rw [inspectPeek_of_ne (by rw [hc]; decide), inspectPeek_of_ne (hu ▸ nextKind_ne he n)]
    exact h
  | cons t ts =>
    rw [hc, List.cons_append] at hu
    rw [Cursor.inspectPeek, Cursor.inspectPeek, hc, hu]
    dsimp only
    split
    · exact h.report _
    · exact h

/-- Both cursors move on together, until the one without added ends stays on its last token. -/
theorem advance (he : e.kind = .eof) (h : Padded e c c') : Padded e c.advance c'.advance := by
  obtain ⟨n, hu⟩ := h.upcoming
  have hl := h.last
  cases hc : c.upcoming with
  | nil =>
    rw [hc] at hl hu
    rw [advance_nil hc]
    -- The cursor without added ends stays on its last token. The other one takes one of its ends,
    -- which is that same token.
    cases n with
    | zero => rwa [advance_nil hu]
    | succ n =>
      have hl : c.current = e := hl
      rw [List.nil_append, List.replicate_succ] at hu
      rw [advance_cons hu, inspectPeek_of_ne (nextKind_ne he n)]
      exact ⟨hl.symm, h.diagnostics, h.last, n, by rw [hc]; rfl⟩
  | cons t ts =>
    rw [hc] at hl hu
    rw [List.getLastD_cons] at hl
    rw [advance_cons hc, advance_cons hu]
    exact .inspectPeek he ⟨rfl, h.diagnostics, hl, n, rfl⟩

/-- No reader can tell the two cursors apart. -/
theorem simulation (he : e.kind = .eof) : Simulation (Padded e) where
  kind h := congrArg Token.kind h.current.symm
  literal h := congrArg Token.literal h.current.symm
  kind_peek h := congrArg Token.kind h.peek.symm
  advance h := h.advance he
  wrongToken k h := by
    rw [h.peek]
    exact h.report _
  noExpression h := by
    rw [h.current]
    exact h.report _
  integerRange h := by
    rw [h.current]
    exact h.report _

/-- The cursors at the start of a text, without and with added ends of it. -/
theorem start (he : e.kind = .eof) (live : List Token) (n : Nat) :
    Padded e (Cursor.start (live ++ [e])) (Cursor.start (live ++ List.replicate (n + 1) e)) := by
  have hstart {t : Token} {ts us : List Token} (hl : ts.getLastD t = e)
      (hu : us = ts ++ List.replicate n e) :
      Padded e (Cursor.start (t :: ts)) (Cursor.start (t :: us)) := by
    have h : Padded e { current := t, upcoming := ts } { current := t, upcoming := us } :=
      ⟨rfl, rfl, hl, n, hu⟩
    refine .inspectPeek he ?_
    split
    · exact h.report _
    · exact h
  cases live with
  | nil => exact hstart rfl rfl
  | cons t ts =>
    refine hstart ?_ ?_
    · simp
    · simp [List.replicate_succ]

end Cursor.Padded

/-- The end of the text is the last of its tokens, and is there once. -/
theorem Ended.kind_ne_of_append {ts us : List Token} (h : Ended (ts ++ us)) (hu : us ≠ []) :
    ∀ t ∈ ts, t.kind ≠ .eof := by
  induction ts with
  | nil => nofun
  | cons t ts ih =>
    have ht : t.kind ≠ .eof := fun he => hu (List.append_eq_nil_iff.1 (h.eq_nil he)).2
    exact List.forall_mem_cons.2 ⟨ht, ih (h.of_cons ht)⟩

/-- The tokens of a text before its end, and what the lexer gives from then on. -/
theorem exists_live (text : String) : ∃ (live : List Token) (e : Token),
    (∀ t ∈ live, t.kind ≠ .eof) ∧ e.kind = .eof ∧ tokenize text = live ++ [e] ∧
      ∀ n, (Source.ofString text).firstTokens (live.length + n) = live ++ List.replicate n e := by
  obtain ⟨pieces, last, h⟩ := Source.exists_partition (Source.ofString text) []
  have ht : tokenize text = _ := h.tokens_eq
  have hended : Ended (tokenize text) := Source.ended_tokens _
  rw [ht] at hended
  refine ⟨_, _, hended.kind_ne_of_append (List.cons_ne_nil _ _), rfl, ht, fun n => ?_⟩
  rw [List.length_map]
  exact h.firstTokens_eq n

/-- Tokens up to an end of the text are those before it and some ends, and only ends follow. -/
theorem eq_of_append_eq {live ts us : List Token} {t e : Token} {n : Nat}
    (hl : ∀ t ∈ live, t.kind ≠ .eof) (h : ts ++ us = live ++ List.replicate n e)
    (ht : t ∈ ts.getLast?) (hk : t.kind = .eof) :
    ∃ m, ts = live ++ List.replicate (m + 1) e ∧ us = List.replicate us.length e ∧
      us.length + (m + 1) = n := by
  have hm : t ∉ live := fun hm => hl t hm hk
  rcases List.append_eq_append_iff.1 h with ⟨vs, hv, -⟩ | ⟨vs, rfl, hr⟩
  · exact absurd (hv ▸ List.mem_append_left vs (List.mem_of_getLast? ht)) hm
  · obtain ⟨hn, hvs, hus⟩ := List.append_eq_replicate_iff.1 hr.symm
    cases hv : vs.length with
    | zero =>
      rw [List.length_eq_zero_iff.1 hv, List.append_nil] at ht
      exact absurd (List.mem_of_getLast? ht) hm
    | succ m =>
      rw [hv] at hvs hn
      exact ⟨m, by rw [← hvs], hus, by omega⟩

section

variable {live : List Token} {e : Token} {n : Nat} (hl : ∀ t ∈ live, t.kind ≠ .eof)
  (he : e.kind = .eof)

include hl he

/-- Only the tokens before the end of the text count as live. -/
theorem liveCount_append_replicate : liveCount (live ++ List.replicate n e) = live.length := by
  rw [liveCount, List.countP_append, List.countP_eq_length.2 (by simpa using hl),
    List.countP_replicate]
  simp [he]

/-- Only the ends of the text count as ends. -/
theorem endCount_append_replicate : endCount (live ++ List.replicate n e) = n := by
  have h : live.countP (·.kind = .eof) = 0 := List.countP_eq_zero.2 (by simpa using hl)
  rw [endCount, List.countP_append, h, List.countP_replicate]
  simp [he]

/-- Reading tokens that go on with ends of the text takes all that are before the end and no more
ends after the first than these are. -/
theorem exists_program_of_live {fuel budget : Nat} (hf : live.length < fuel)
    (hb : live.length < budget) :
    let c₀ := Cursor.start (live ++ List.replicate (n + 1) e)
    ∃ tree c past, Parse.program fuel budget c₀ = some (tree, c) ∧
      Stage.Path ⟨c₀, false⟩ ⟨c, true⟩ ∧ c.current = e ∧
      live ++ List.replicate (n + 1) e = live ++ List.replicate (past + 1) e ++ c.upcoming ∧
      c.upcoming.length + past = n ∧ past ≤ live.length := by
  intro c₀
  have hends : EndsText (live ++ List.replicate (n + 1) e) :=
    ⟨e, by rw [List.replicate_succ', ← List.append_assoc, List.getLast?_append]; rfl, he⟩
  obtain ⟨hc, hs⟩ : c₀.Checked ∧ c₀.stream = _ := Cursor.Checked.start hends
  have hleft : c₀.left = live.length := by
    rw [Cursor.left, hs, liveCount_append_replicate hl he]
  have hlead : c₀.lead + c₀.weight = live.length - n := by
    rw [Cursor.lead_add_weight, hs, liveCount_append_replicate hl he,
      endCount_append_replicate hl he]
    omega
  obtain ⟨tree, c, hr, hp, hlc, hk⟩ := Parse.program_halts hc (hleft ▸ hb) (hleft ▸ hf)
  -- What was taken ends with the token in hand, which is an end of the text.
  obtain ⟨taken, hu, hcur⟩ := hp.taken
  have hstream : c₀.current :: taken ++ c.upcoming = live ++ List.replicate (n + 1) e := by
    rw [← hs, Cursor.stream, hu]
    rfl
  have hlast : c.current ∈ (c₀.current :: taken).getLast? := by
    rw [List.getLast?_cons, hcur, List.getLastD_eq_getLast?]
    rfl
  obtain ⟨past, htaken, hupcoming, hlen⟩ := eq_of_append_eq hl hstream hlast hk
  have hce : c.current = e := by
    rw [htaken, List.replicate_succ', ← List.append_assoc, List.getLast?_append] at hlast
    exact (Option.mem_some.1 hlast).symm
  -- Only ends of the text are left, so the lead is what is missing of them.
  have hnone : c.left = 0 := by
    have hc : c.stream = [] ++ List.replicate (c.upcoming.length + 1) e := by
      rw [Cursor.stream, hce, List.nil_append, List.replicate_succ, ← hupcoming]
    rw [Cursor.left, hc, liveCount_append_replicate (List.forall_mem_nil _) he]
    rfl
  have hall : endCount c.upcoming = c.upcoming.length := by
    have h := @endCount_append_replicate [] e c.upcoming.length (List.forall_mem_nil _) he
    rwa [List.nil_append, ← hupcoming] at h
  have hneg : c.lead = 0 - c.upcoming.length := by
    rw [Cursor.lead, hnone, hall]
    rfl
  refine ⟨tree, c, past, hr, hp, hce, ?_, by omega, by omega⟩
  rw [← hstream, htaken]

end

/-- The tokens of a text alone, with the end of it once, are all taken. -/
theorem exists_program_tokenize (text : String) : ∃ tree c,
    Parse.program ((tokenize text).length + 1) (tokenize text).length
      (Cursor.start (tokenize text)) = some (tree, c) ∧
    Stage.Path ⟨Cursor.start (tokenize text), false⟩ ⟨c, true⟩ ∧ c.upcoming = [] := by
  obtain ⟨live, e, hl, he, ht, -⟩ := exists_live text
  have ht : tokenize text = live ++ List.replicate (0 + 1) e := ht
  have hlen : (tokenize text).length = live.length + 1 := by simp [ht]
  obtain ⟨tree, c, past, hr, hp, -, -, hup, -⟩ := @exists_program_of_live live e 0 hl he
    ((tokenize text).length + 1) (tokenize text).length (by omega) (by omega)
  rw [← ht] at hr hp
  exact ⟨tree, c, hr, hp, List.length_eq_zero_iff.1 (by omega)⟩

/-- A budget of the number of the tokens is enough for the result that this many levels give. -/
theorem parseTokens?_of_program {tokens : List Token} {tree : Code} {c : Cursor} {budget : Nat}
    (hr : Parse.program (tokens.length + 1) tokens.length (Cursor.start tokens) = some (tree, c))
    (hb : tokens.length ≤ budget) :
    parseTokens? budget tokens = some ⟨tree, c.diagnostics.toList⟩ := by
  refine parseTokens?_mono hb ?_
  rw [parseTokens?_eq, hr]
  rfl

/-- Every text has a result, which each budget of at least the number of its tokens gives. -/
theorem exists_parseTokens? (text : String) : ∃ p, ∀ budget, (tokenize text).length ≤ budget →
    parseTokens? budget (tokenize text) = some p := by
  obtain ⟨tree, c, hr, -⟩ := exists_program_tokenize text
  exact ⟨_, fun budget hb => parseTokens?_of_program hr hb⟩

namespace Parse

/-- Every round of a loop, and every expression inside another one, starts with fewer tokens left
before the end of the text than the one before it: it need have a result only there for the whole to
have one. -/
structure TakesTokens (k fuel : Nat) (inner : ExpressionReader) : Prop where
  expression : HaltsBelow (k + 1) (expressionWith fuel inner)
  statements {c : Cursor} {closing : List Kind} {rounds : Nat} : .eof ∈ closing → .int ∉ closing →
    c.Checked → c.left < k →
    (∀ d : Cursor, d.Checked → d.left < c.left →
      Halts d.weight (Parse.statements inner closing rounds) d false) →
    Halts c.weight (Parse.statements inner closing (rounds + 1)) c false
  operations {c : Cursor} {rounds : Nat} (p : Precedence) (left : Code) : c.Checked → c.ahead < k →
    (∀ (d : Cursor) (e : Code), d.Checked → d.ahead < c.ahead →
      Halts 0 (Parse.operations fuel inner p rounds e) d true) →
    Halts 0 (Parse.operations fuel inner p (rounds + 1) left) c true
  arguments {c : Cursor} {rounds : Nat} : c.Checked → c.ahead < k →
    (∀ d : Cursor, d.Checked → d.ahead < c.ahead →
      Halts 0 (moreArguments inner rounds) d true) →
    Halts 0 (moreArguments inner (rounds + 1)) c true
  parameters {c : Cursor} {rounds : Nat} : c.Checked →
    (∀ d : Cursor, d.Checked → d.ahead < c.ahead → Halts 0 (moreParameters rounds) d true) →
    Halts 0 (moreParameters (rounds + 1)) c true

/-- Every inner reader makes rounds that take tokens. -/
theorem HaltsBelow.takesTokens {k fuel : Nat} {inner : ExpressionReader} (hi : HaltsBelow k inner)
    (hf : k < fuel) : TakesTokens k fuel inner where
  expression := haltsBelow_expressionWith hi hf
  statements := halts_statements_succ hi
  operations p left hc hk := halts_operations_succ hi (Nat.le_of_lt hf) hc hk p left
  arguments := halts_moreArguments_succ hi
  parameters := halts_moreParameters_succ

end Parse

/-- Reading by precedence halts on every text. Each round and each expression inside another takes a
token before the end of the text. With a budget and rounds of no more than the number of tokens and
one, and twice as many tokens from the lexer, reading ends with the end of the text in hand, has
taken all tokens of the text in their order and fewer ends after them, and has not come to the last
token that the lexer gave. It gives what reading the tokens of the text alone gives. -/
theorem parse_halts :
    (∀ (k fuel : Nat) (inner : Parse.ExpressionReader), Parse.HaltsBelow k inner → k < fuel →
      Parse.TakesTokens k fuel inner) ∧
    ∀ (text : String) (fuel budget n : Nat), (tokenize text).length < fuel →
      (tokenize text).length ≤ budget → 2 * (tokenize text).length ≤ n →
      ∃ tree c past, Parse.program fuel budget
          (Cursor.start ((Source.ofString text).firstTokens n)) = some (tree, c) ∧
        Stage.Path ⟨Cursor.start ((Source.ofString text).firstTokens n), false⟩ ⟨c, true⟩ ∧
        c.current.kind = .eof ∧
        (Source.ofString text).firstTokens n =
          tokenize text ++ List.replicate past c.current ++ c.upcoming ∧
        past < (tokenize text).length ∧ c.upcoming ≠ [] ∧
        parseTokens? budget (tokenize text) = some ⟨tree, c.diagnostics.toList⟩ := by
  refine ⟨fun k fuel inner hi hf => hi.takesTokens hf, fun text fuel budget n hf hb hn => ?_⟩
  obtain ⟨live, e, hl, he, ht, hfirst⟩ := exists_live text
  have hlen : (tokenize text).length = live.length + 1 := by rw [ht, List.length_append]; rfl
  obtain ⟨n, rfl⟩ : ∃ m, n = live.length + (m + 1) := ⟨n - live.length - 1, by omega⟩
  rw [hfirst]
  obtain ⟨tree, c, past, hr, hp, hce, hgiven, hup, hpast⟩ :=
    @exists_program_of_live live e n hl he fuel budget (by omega) (by omega)
  refine ⟨tree, c, past, hr, hp, hce ▸ he, ?_, by omega, ?_, ?_⟩
  · rw [hgiven, ht, hce, List.append_assoc live [e], List.singleton_append, List.replicate_succ]
  · -- Fewer ends were taken than are given, so some are still to come.
    intro hnil
    rw [hnil] at hup
    have : 0 + past = n := hup
    omega
  · -- A run over the tokens of the text alone stays on the last of them, and is otherwise the same.
    obtain ⟨tree', c', hr', -⟩ := exists_program_tokenize text
    have hpad : Cursor.Padded e (Cursor.start (tokenize text))
        (Cursor.start (live ++ List.replicate (n + 1) e)) := ht ▸ .start he live n
    obtain ⟨d, hd, hpad⟩ := Parse.program_follows (Cursor.Padded.simulation he)
      (Nat.succ_le_of_lt hf) hb hpad tree' c' hr'
    cases hr.symm.trans hd
    refine parseTokens?_mono hb ?_
    rw [parseTokens?_eq, hr', hpad.diagnostics]
    rfl

/-- A text that ends inside two blocks and in a list that never began. -/
theorem parse_halts_openBlocks :
    let text := "fn(x) \x7b if (x) \x7b @ 9,"
    let given := (Source.ofString text).firstTokens 28
    Parse.TakesTokens 2 3 (Parse.expression 3 2) ∧ (tokenize text).length = 14 ∧
    ∃ tree c past, Parse.program 15 14 (Cursor.start given) = some (tree, c) ∧
      c.current.kind = .eof ∧
      given = tokenize text ++ List.replicate past c.current ++ c.upcoming ∧ past < 14 ∧
      c.upcoming ≠ [] := by
  intro text given
  have hlen : (tokenize text).length = 14 := by
    show (tokenize "fn(x) \x7b if (x) \x7b @ 9,").length = 14
    decide +kernel
  have hi : Parse.HaltsBelow 2 (Parse.expression 3 2) :=
    Parse.haltsBelow_expression (by decide) (by decide)
  obtain ⟨tree, c, past, hr, -, hk, hgiven, hpast, hu, -⟩ :=
    parse_halts.2 text 15 14 28 (by omega) (by omega) (by omega)
  exact ⟨parse_halts.1 2 3 _ hi (by decide), hlen, tree, c, past, hr, hk, hgiven, hlen ▸ hpast, hu⟩

end MonkeyLang
