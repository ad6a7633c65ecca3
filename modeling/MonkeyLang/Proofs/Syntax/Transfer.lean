import MonkeyLang.Proofs.Syntax.Cursor

/-!
# Two runs of one reader

A reader decides by the kinds and the literals of the tokens that it sees, and by nothing else. So a
relation of cursors that shows the same of these on both sides, and that moving on and reporting keep
(`Simulation`), is kept by every reader: where the run at one cursor has a result, so has the run at
the other, and it is the same (`program_follows`). The second run may have more fuel and more budget
than the first, since these only decide whether there is a result; with equal cursors this says that
more budget keeps a result (`parseTokens?_mono`).
-/

namespace MonkeyLang

namespace Cursor

/-- A relation of cursors that no reader can tell apart. -/
structure Simulation (R : Cursor → Cursor → Prop) : Prop where
  kind {c c' : Cursor} : R c c' → c.current.kind = c'.current.kind
  literal {c c' : Cursor} : R c c' → c.current.literal = c'.current.literal
  kind_peek {c c' : Cursor} : R c c' → c.peek.kind = c'.peek.kind
  advance {c c' : Cursor} : R c c' → R c.advance c'.advance
  wrongToken {c c' : Cursor} (k : Kind) : R c c' →
    R (c.report (.wrongToken k c.peek.kind c.peek.position))
      (c'.report (.wrongToken k c'.peek.kind c'.peek.position))
  noExpression {c c' : Cursor} : R c c' →
    R (c.report (.noExpression c.current.kind c.current.position))
      (c'.report (.noExpression c'.current.kind c'.current.position))
  integerRange {c c' : Cursor} : R c c' →
    R (c.report (.integerRange c.current.literal c.current.position))
      (c'.report (.integerRange c'.current.literal c'.current.position))

/-- The runs at one cursor. -/
theorem Simulation.eq : Simulation Eq where
  kind h := h ▸ rfl
  literal h := h ▸ rfl
  kind_peek h := h ▸ rfl
  advance h := h ▸ rfl
  wrongToken _ h := h ▸ rfl
  noExpression h := h ▸ rfl
  integerRange h := h ▸ rfl

end Cursor

namespace Parse

open Cursor (Simulation)

variable {α β : Type} {R : Cursor → Cursor → Prop} {c c' : Cursor}

/-- Where the reader `x` at `c` has a result, the reader `y` at `c'` has it too, and the cursors that
they end with are related. -/
def Follows (R : Cursor → Cursor → Prop) (x y : Parse α) (c c' : Cursor) : Prop :=
  ∀ a d, x c = some (a, d) → ∃ d', y c' = some (a, d') ∧ R d d'

namespace Follows

theorem pure (a : α) (h : R c c') : Follows R (Pure.pure a) (Pure.pure a) c c' := by
  intro b d hr
  cases hr
  exact ⟨c', rfl, h⟩

theorem failure (y : Parse α) : Follows R Alternative.failure y c c' := by
  intro a d hr
  cases hr

/-- Readers one after the other follow each other if their parts do. -/
theorem bind {x y : Parse α} {f g : α → Parse β} (hx : Follows R x y c c')
    (hf : ∀ a d d', R d d' → Follows R (f a) (g a) d d') :
    Follows R (x >>= f) (y >>= g) c c' := by
  intro b e hr
  obtain ⟨⟨a, d⟩, h₁, h₂⟩ := Option.bind_eq_some_iff.1 hr
  obtain ⟨d', hy, hd⟩ := hx a d h₁
  obtain ⟨e', hg, he⟩ := hf a d d' hd b e h₂
  refine ⟨e', ?_, he⟩
  rw [bind_apply, hy]
  exact hg

/-- Only what is made of the result comes after the reader. -/
theorem map {x y : Parse α} (f : α → β) (hx : Follows R x y c c') :
    Follows R (do return f (← x)) (do return f (← y)) c c' :=
  bind hx fun _ _ _ h => pure _ h

/-- A choice that both runs decide alike. -/
theorem ite {p q : Prop} [Decidable p] [Decidable q] {x x' y y' : Parse α} (h : p ↔ q)
    (hx : p → Follows R x y c c') (hy : ¬ p → Follows R x' y' c c') :
    Follows R (if p then x else x') (if q then y else y') c c' := by
  split
  · next hp =>
    rw [if_pos (h.1 hp)]
    exact hx hp
  · next hp =>
    rw [if_neg fun hq => hp (h.2 hq)]
    exact hy hp

theorem current {f g : Token → Parse β} (h : Follows R (f c.current) (g c'.current) c c') :
    Follows R (Parse.current >>= f) (Parse.current >>= g) c c' := h

theorem peek {f g : Token → Parse β} (h : Follows R (f c.peek) (g c'.peek) c c') :
    Follows R (Parse.peek >>= f) (Parse.peek >>= g) c c' := h

theorem advance {x y : Parse β} (h : Follows R x y c.advance c'.advance) :
    Follows R (do Parse.advance; x) (do Parse.advance; y) c c' := h

theorem report {x y : Parse β} {d d' : Diagnostic}
    (h : Follows R x y (c.report d) (c'.report d')) :
    Follows R (do Parse.report d; x) (do Parse.report d'; y) c c' := h

/-- Both runs take a token of the kind, or neither does. -/
theorem accept (hR : Simulation R) (k : Kind) (h : R c c') :
    Follows R (accept k) (accept k) c c' := by
  unfold Parse.accept
  refine peek (ite (by rw [hR.kind_peek h]) (fun _ => ?_) fun _ => pure _ h)
  exact advance (pure _ (hR.advance h))

/-- Both runs report the token that came instead, if one did. -/
theorem expect (hR : Simulation R) (k : Kind) (h : R c c') :
    Follows R (expect k) (expect k) c c' := by
  refine bind (accept hR k h) fun b d d' hd => ?_
  cases b with
  | true => exact pure _ hd
  | false => exact peek (report (pure _ (hR.wrongToken k hd)))

/-- What follows the kind is read in both runs or in neither. -/
theorem requiring (hR : Simulation R) {k : Kind} {x y : Parse Code}
    (hx : ∀ d d', R d d' → Follows R x y d d') (h : R c c') :
    Follows R (requiring k x) (requiring k y) c c' := by
  refine bind (expect hR k h) fun b d d' hd => ?_
  cases b with
  | true => exact hx d d' hd
  | false => exact pure _ hd

theorem semicolon (hR : Simulation R) (a : α) (h : R c c') :
    Follows R (do let _ ← Parse.accept .semicolon; return a)
      (do let _ ← Parse.accept .semicolon; return a) c c' :=
  bind (accept hR _ h) fun _ _ _ hd => pure _ hd

end Follows

/-- The reader of expressions `inner'` follows the reader `inner` wherever they start. -/
def FollowsInner (R : Cursor → Cursor → Prop) (inner inner' : ExpressionReader) : Prop :=
  ∀ p c c', R c c' → Follows R (inner p) (inner' p) c c'

section

variable (hR : Simulation R) {fuel fuel' rounds rounds' : Nat} {inner inner' : ExpressionReader}
  (hi : FollowsInner R inner inner')

include hR

/-! ## Lists of names -/

/-- The loop over parameters follows itself, with more rounds. -/
theorem moreParameters_follows (hf : rounds ≤ rounds') (h : R c c') :
    Follows R (moreParameters rounds) (moreParameters rounds') c c' := by
  induction rounds generalizing rounds' c c' with
  | zero => exact .failure _
  | succ rounds ih =>
    -- A loop out of rounds has no result, so there is a round on both sides.
    obtain ⟨m, rfl⟩ : ∃ m, rounds' = m + 1 := ⟨rounds' - 1, by omega⟩
    refine .bind (.accept hR _ h) fun b d d' hd => .ite Iff.rfl (fun _ => ?_) fun _ => ?_
    · refine .bind (.expect hR _ hd) fun b d d' hd => .ite Iff.rfl (fun _ => ?_) fun _ => ?_
      · refine .current ?_
        rw [hR.literal hd]
        exact .map _ (ih (by omega) hd)
      · exact .pure _ hd
    · refine .bind (.expect hR _ hd) fun b d d' hd => .ite Iff.rfl (fun _ => ?_) fun _ => ?_
      · exact .pure _ hd
      · exact .pure _ hd

/-- A list of parameters has the names that the literals give. -/
theorem parameters_follows (hf : fuel ≤ fuel') (h : R c c') :
    Follows R (parameters fuel) (parameters fuel') c c' := by
  refine .bind (.accept hR _ h) fun b d d' hd => .ite Iff.rfl (fun _ => .pure _ hd) fun _ => ?_
  refine .bind (.expect hR _ hd) fun b d d' hd => .ite Iff.rfl (fun _ => ?_) fun _ => .pure _ hd
  refine .current ?_
  rw [hR.literal hd]
  exact .map _ (moreParameters_follows hR hf hd)

/-- A numeral has the value of its literal in both runs, or is out of range in both. -/
theorem integerLiteral_follows (h : R c c') : Follows R integerLiteral integerLiteral c c' := by
  refine .current ?_
  rw [← hR.literal h]
  -- The literal is the same, so both runs are in the same case.
  split
  · exact .pure _ h
  · refine .report (.pure _ ?_)
    have hr := hR.integerRange h
    rwa [← hR.literal h] at hr

include hi

/-! ## Statements -/

/-- Let statements follow each other where their values do. -/
theorem letStatement_follows (h : R c c') :
    Follows R (letStatement inner) (letStatement inner') c c' := by
  refine .requiring hR (fun d d' hd => .current ?_) h
  rw [hR.literal hd]
  refine .requiring hR (fun d d' hd => .advance ?_) hd
  exact .bind (hi _ _ _ (hR.advance hd)) fun _ _ _ he => .semicolon hR _ he

/-- Return statements decide by the kind ahead whether they have a value. -/
theorem returnStatement_follows (h : R c c') :
    Follows R (returnStatement inner) (returnStatement inner') c c' := by
  refine .peek ?_
  rw [hR.kind_peek h]
  split
  · exact .advance (.pure _ (hR.advance h))
  · exact .pure _ h
  · exact .pure _ h
  · refine .advance (.bind (hi _ _ _ (hR.advance h)) fun _ _ _ he => ?_)
    exact .semicolon hR _ he

/-- Statements decide by the kind in hand which form they have. -/
theorem statement_follows (h : R c c') : Follows R (statement inner) (statement inner') c c' := by
  refine .current ?_
  rw [hR.kind h]
  split
  · exact letStatement_follows hR hi h
  · exact returnStatement_follows hR hi h
  · exact .bind (hi _ _ _ h) fun _ _ _ he => .semicolon hR _ he

/-- The loop over statements follows itself, with more rounds. -/
theorem statements_follows (closing : List Kind) (hf : rounds ≤ rounds') (h : R c c') :
    Follows R (statements inner closing rounds) (statements inner' closing rounds') c c' := by
  induction rounds generalizing rounds' c c' with
  | zero => exact .failure _
  | succ rounds ih =>
    obtain ⟨m, rfl⟩ : ∃ m, rounds' = m + 1 := ⟨rounds' - 1, by omega⟩
    refine .current (.ite (by rw [hR.kind h]) (fun _ => .pure _ h) fun _ => ?_)
    refine .bind (statement_follows hR hi h) fun s d d' hd => .advance ?_
    exact .map _ (ih (by omega) (hR.advance hd))

/-- Blocks follow each other where their expressions do. -/
theorem block_follows (hf : fuel ≤ fuel') (h : R c c') :
    Follows R (block fuel inner) (block fuel' inner') c c' :=
  .advance (.map _ (statements_follows hR hi _ hf (hR.advance h)))

/-! ## Operands -/

/-- Prefix operators follow each other where their operands do. -/
theorem prefixed_follows (h : R c c') : Follows R (prefixed inner) (prefixed inner') c c' := by
  refine .current (.advance ?_)
  rw [hR.literal h]
  exact .map _ (hi _ _ _ (hR.advance h))

/-- Groups follow each other where their expressions do. -/
theorem grouped_follows (h : R c c') : Follows R (grouped inner) (grouped inner') c c' := by
  refine .advance (.bind (hi _ _ _ (hR.advance h)) fun e d d' hd => ?_)
  exact .requiring hR (fun _ _ he => .pure _ he) hd

/-- Conditionals decide by the kind ahead whether they have an `else`. -/
theorem conditional_follows (hf : fuel ≤ fuel') (h : R c c') :
    Follows R (conditional fuel inner) (conditional fuel' inner') c c' := by
  refine .requiring hR (fun d d' hd => .advance ?_) h
  refine .bind (hi _ _ _ (hR.advance hd)) fun e d d' hd => ?_
  refine .requiring hR (fun d d' hd => .requiring hR (fun d d' hd => ?_) hd) hd
  refine .bind (block_follows hR hi hf hd) fun b d d' hd => ?_
  refine .bind (.accept hR _ hd) fun b d d' hd => .ite Iff.rfl (fun _ => ?_) fun _ => .pure _ hd
  exact .requiring hR (fun d d' hd => .map _ (block_follows hR hi hf hd)) hd

/-- Function literals have the same parameters, or are given up in both runs. -/
theorem function_follows (hf : fuel ≤ fuel') (h : R c c') :
    Follows R (function fuel inner) (function fuel' inner') c c' := by
  refine .requiring hR (fun d d' hd => ?_) h
  refine .bind (parameters_follows hR hf hd) fun names d d' hd => ?_
  cases names with
  | none => exact .pure _ hd
  | some ps => exact .requiring hR (fun d d' hd => .map _ (block_follows hR hi hf hd)) hd

/-- Operands decide by the kind in hand which form they have. -/
theorem operand_follows (hf : fuel ≤ fuel') (h : R c c') :
    Follows R (operand fuel inner c.current) (operand fuel' inner' c'.current) c c' := by
  unfold operand
  rw [hR.kind h, hR.literal h]
  split
  · exact .pure _ h
  · exact integerLiteral_follows hR h
  · exact .pure _ h
  · exact .pure _ h
  · exact .pure _ h
  · exact prefixed_follows hR hi h
  · exact prefixed_follows hR hi h
  · exact grouped_follows hR hi h
  · exact conditional_follows hR hi hf h
  · exact function_follows hR hi hf h
  · exact .pure _ h

/-! ## Operations -/

/-- The loop over arguments follows itself, with more rounds. -/
theorem moreArguments_follows (hf : rounds ≤ rounds') (h : R c c') :
    Follows R (moreArguments inner rounds) (moreArguments inner' rounds') c c' := by
  induction rounds generalizing rounds' c c' with
  | zero => exact .failure _
  | succ rounds ih =>
    obtain ⟨m, rfl⟩ : ∃ m, rounds' = m + 1 := ⟨rounds' - 1, by omega⟩
    refine .bind (.accept hR _ h) fun b d d' hd => .ite Iff.rfl (fun _ => ?_) fun _ => ?_
    · refine .advance (.bind (hi _ _ _ (hR.advance hd)) fun a d d' hd => ?_)
      exact .ite Iff.rfl (fun _ => .pure _ hd) fun _ => .map _ (ih (by omega) hd)
    · refine .bind (.expect hR _ hd) fun b d d' hd => ?_
      exact .ite Iff.rfl (fun _ => .pure _ hd) fun _ => .pure _ hd

/-- Lists of arguments follow each other, and are given up in both runs if they are in one. -/
theorem arguments_follows (hf : fuel ≤ fuel') (h : R c c') :
    Follows R (arguments fuel inner) (arguments fuel' inner') c c' := by
  refine .bind (.accept hR _ h) fun b d d' hd => .ite Iff.rfl (fun _ => .pure _ hd) fun _ => ?_
  refine .advance (.bind (hi _ _ _ (hR.advance hd)) fun a d d' hd => ?_)
  exact .ite Iff.rfl (fun _ => .pure _ hd) fun _ => .map _ (moreArguments_follows hR hi hf hd)

/-- One operation follows the same one on the same operand. -/
theorem operation_follows (hf : fuel ≤ fuel') (left : Code) (h : R c c') :
    Follows R (operation fuel inner left) (operation fuel' inner' left) c c' := by
  refine .current (.ite (by rw [hR.kind h]) (fun _ => ?_) fun _ => ?_)
  · refine .bind (arguments_follows hR hi hf h) fun as d d' hd => ?_
    cases as <;> exact .pure _ hd
  · rw [hR.kind h, hR.literal h]
    exact .advance (.map _ (hi _ _ _ (hR.advance h)))

/-- The loop over operations follows itself, with more rounds. -/
theorem operations_follows (hf : fuel ≤ fuel') (p : Precedence) (hr : rounds ≤ rounds')
    (left : Code) (h : R c c') :
    Follows R (operations fuel inner p rounds left) (operations fuel' inner' p rounds' left)
      c c' := by
  induction rounds generalizing rounds' left c c' with
  | zero => exact .failure _
  | succ rounds ih =>
    obtain ⟨m, rfl⟩ : ∃ m, rounds' = m + 1 := ⟨rounds' - 1, by omega⟩
    refine .peek (.ite (by rw [hR.kind_peek h]) (fun _ => ?_) fun _ => .pure _ h)
    refine .advance (.bind (operation_follows hR hi hf left (hR.advance h)) fun e d d' hd => ?_)
    exact ih (by omega) e hd

/-- An expression follows where the expressions inside it do. -/
theorem expressionWith_follows (hf : fuel ≤ fuel') :
    FollowsInner R (expressionWith fuel inner) (expressionWith fuel' inner') := by
  intro p c c' h
  refine .current (.ite (by rw [hR.kind h]) (fun _ => ?_) fun _ => ?_)
  · refine .bind (operand_follows hR hi hf h) fun left d d' hd => ?_
    exact operations_follows hR hi hf p hf left hd
  · refine .ite (by rw [hR.kind h]) (fun _ => .pure _ h) fun _ => ?_
    exact .report (.pure _ (hR.noExpression h))

end

/-- Expressions follow each other with more fuel and more budget. -/
theorem expression_follows (hR : Simulation R) {fuel fuel' budget budget' : Nat}
    (hf : fuel ≤ fuel') (hb : budget ≤ budget') :
    FollowsInner R (expression fuel budget) (expression fuel' budget') := by
  induction budget generalizing budget' with
  -- Without budget the first run has no result to be followed.
  | zero => exact fun p c c' _ => .failure _
  | succ budget ih =>
    obtain ⟨m, rfl⟩ : ∃ m, budget' = m + 1 := ⟨budget' - 1, by omega⟩
    exact expressionWith_follows hR (ih (by omega)) hf

/-- Programs follow each other with more fuel and more budget. -/
theorem program_follows (hR : Simulation R) {fuel fuel' budget budget' : Nat} (hf : fuel ≤ fuel')
    (hb : budget ≤ budget') (h : R c c') :
    Follows R (program fuel budget) (program fuel' budget') c c' :=
  .map _ (statements_follows hR (expression_follows hR hf hb) _ hf h)

end Parse

/-- More budget keeps a result that there is. -/
theorem parseTokens?_mono {m n : Nat} {tokens : List Token} {r : Parsed} (h : m ≤ n)
    (hr : parseTokens? m tokens = some r) : parseTokens? n tokens = some r := by
  rw [parseTokens?_eq] at hr ⊢
  obtain ⟨⟨tree, c⟩, hx, rfl⟩ := Option.map_eq_some_iff.1 hr
  -- The fuel for the loops is the same, and the cursors start equal.
  obtain ⟨_, hc, rfl⟩ := Parse.program_follows Cursor.Simulation.eq (Nat.le_refl _) h rfl tree c hx
  rw [hc]
  rfl

/-- Whatever budgets give a result of some tokens, they give the same one: the sum of both gives
what each of them gives. -/
theorem parseTokens?_unique {m n : Nat} {tokens : List Token} {p q : Parsed}
    (hp : parseTokens? m tokens = some p) (hq : parseTokens? n tokens = some q) : p = q := by
  have hp := parseTokens?_mono (Nat.le_add_right m n) hp
  have hq := parseTokens?_mono (Nat.le_add_left n m) hq
  exact Option.some.inj (hp.symm.trans hq)

end MonkeyLang
