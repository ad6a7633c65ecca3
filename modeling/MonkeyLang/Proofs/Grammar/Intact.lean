import MonkeyLang.Proofs.Grammar.FrontEnds
import MonkeyLang.Proofs.Syntax.Intact

/-!
# What the machine of the grammar builds is whole

Every tree that the machine holds is whole, as long as no literal was out of range: one token keeps
it so (`Intact.feed`), and so does a run. Main statement: `IsAccepted.isIntact` says this of the
programs that either way of reading takes without a mistake.
-/

namespace MonkeyLang

namespace Grammar

/-! ## Whole machines -/

/-- The parts that a block was begun with are whole. -/
def BlockRole.Intact : BlockRole → Prop
  | .consequence c => c.isIntact .expression = true
  | .alternative c t => c.isIntact .expression = true ∧ t.isIntact .block = true
  | .body _ => True

/-- The parts of a construct that is begun are whole. -/
def Pending.Intact : Pending → Prop
  | .prefixed o => (prefixKind? o).isSome = true
  | .infixed l o _ => l.isIntact .expression = true ∧ (infixKind? o).isSome = true
  | .arguments f done =>
    f.isIntact .expression = true ∧ ∀ a ∈ done, a.isIntact .expression = true
  | .block role done => role.Intact ∧ ∀ s ∈ done, s.isIntact .statement = true
  | _ => True

/-- What was read last is whole. -/
def Mode.Intact : Mode → Prop
  | .callOpen e | .ended e | .closed e | .conditionClosed e => e.isIntact .expression = true
  | .consequence c t | .elseOpen c t =>
    c.isIntact .expression = true ∧ t.isIntact .block = true
  | _ => True

namespace Machine

/-- All trees that a machine holds are whole. -/
structure Intact (m : Machine) : Prop where
  mode : m.mode.Intact
  stack : ∀ p ∈ m.stack, p.Intact
  done : ∀ s ∈ m.done, s.isIntact .statement = true

/-- A machine that comes out is whole, unless it has a diagnostic. -/
def Yields (r : Except Diagnostic Machine) : Prop :=
  ∀ m', r = .ok m' → m'.diagnostics = #[] → m'.Intact

variable {m : Machine} {t : Token} {e s : Code}

theorem yields_error {d : Diagnostic} : Yields (.error d) := nofun

theorem yields_ok (h : m.Intact) : Yields (.ok m) := by
  rintro m' ⟨⟩ _
  exact h

/-! ## One token -/

/-- The mode does not matter for what the next operand does, since it is left. -/
theorem yields_operand (hs : ∀ p ∈ m.stack, p.Intact)
    (hd : ∀ s ∈ m.done, s.isIntact .statement = true) (ht : t.lexeme.Legible) :
    Yields (m.operand t) := by
  have ended {e : Code} (he : e.isIntact .expression = true) :
      Yields (.ok (m.inMode (.ended e))) := yields_ok ⟨he, hs, hd⟩
  unfold operand
  cases hk : t.kind
  case int =>
    dsimp only
    split
    · next n hn => exact ended (Tree.isIntact_integer (ht.integer hk n hn))
    · -- the literal is missing in the tree, and a diagnostic says so
      rintro m' ⟨⟩ hdiag
      exact absurd hdiag Array.push_ne_empty
  case string => exact ended (Tree.isIntact_string (ht.string hk))
  case ident | kwTrue | kwFalse => exact ended rfl
  case bang | minus =>
    have ho : (prefixKind? t.literal).isSome = true := ht.prefixOperator (by simp [hk, Token.lexeme])
    exact yields_ok ⟨trivial, List.forall_mem_cons.2 ⟨ho, hs⟩, hd⟩
  case lparen => exact yields_ok ⟨trivial, List.forall_mem_cons.2 ⟨trivial, hs⟩, hd⟩
  case kwIf | kwFn => exact yields_ok ⟨trivial, hs, hd⟩
  all_goals exact yields_error

/-- A whole statement is filed where it belongs. -/
theorem Intact.endStatement (hs : ∀ p ∈ m.stack, p.Intact)
    (hd : ∀ s ∈ m.done, s.isIntact .statement = true) (hst : s.isIntact .statement = true) :
    (m.endStatement s).Intact := by
  unfold Machine.endStatement
  split
  · next role done stack hm =>
    rw [hm] at hs
    obtain ⟨hb, hs⟩ := List.forall_mem_cons.1 hs
    refine ⟨trivial, List.forall_mem_cons.2 ⟨⟨hb.1, ?_⟩, hs⟩, hd⟩
    exact List.forall_mem_cons.2 ⟨hst, hb.2⟩
  · exact ⟨trivial, hs, List.forall_mem_cons.2 ⟨hst, hd⟩⟩

/-- The end of a block makes a whole block of whole statements. -/
theorem yields_endBlock (hs : ∀ p ∈ m.stack, p.Intact)
    (hd : ∀ s ∈ m.done, s.isIntact .statement = true) : Yields (m.endBlock t) := by
  unfold endBlock
  split
  · next role done stack hm =>
    rw [hm] at hs
    obtain ⟨hb, hrest⟩ := List.forall_mem_cons.1 hs
    have hblock : (Tree.block done.reverse).isIntact .block = true :=
      Tree.isIntact_block fun s h => hb.2 s (List.mem_reverse.1 h)
    cases role with
    | consequence c => exact yields_ok ⟨⟨hb.1, hblock⟩, hrest, hd⟩
    | alternative c t =>
      exact yields_ok ⟨Tree.isIntact_conditional hb.1.1 hb.1.2 (.inr hblock), hrest, hd⟩
    | body ps => exact yields_ok ⟨Tree.isIntact_function hblock, hrest, hd⟩
  · exact yields_error

/-- The start of a statement keeps the machine whole. -/
theorem yields_statement (hs : ∀ p ∈ m.stack, p.Intact)
    (hd : ∀ s ∈ m.done, s.isIntact .statement = true) (ht : t.lexeme.Legible) :
    Yields (m.statement t) := by
  unfold statement
  split
  · exact yields_ok ⟨trivial, hs, hd⟩
  · exact yields_ok ⟨trivial, hs, hd⟩
  · exact yields_endBlock hs hd
  · split
    · exact yields_ok ⟨trivial, hs, hd⟩
    · exact yields_error
  · exact yields_operand (List.forall_mem_cons.2 ⟨trivial, hs⟩) hd ht

/-- So does what follows a statement. -/
theorem yields_afterStatement (hs : ∀ p ∈ m.stack, p.Intact)
    (hd : ∀ s ∈ m.done, s.isIntact .statement = true) (hst : s.isIntact .statement = true)
    (ht : t.lexeme.Legible) : Yields (m.afterStatement s t) := by
  have h := Intact.endStatement hs hd hst
  unfold afterStatement
  dsimp only
  split
  · exact yields_ok h
  · exact yields_statement h.stack h.done ht

/-- The operations that are put together are whole. -/
theorem intact_reduce {p : Precedence} {stack : List Pending}
    (he : e.isIntact .expression = true) (hs : ∀ p ∈ stack, p.Intact) :
    (reduce p e stack).1.isIntact .expression = true ∧ ∀ q ∈ (reduce p e stack).2, q.Intact := by
  fun_induction reduce p e stack with
  | case1 e operator stack ih =>
    obtain ⟨ho, hs⟩ := List.forall_mem_cons.1 hs
    exact ih (Tree.isIntact_prefixed ho he) hs
  | case2 e left operator q stack hq => exact ⟨he, hs⟩
  | case3 e left operator q stack hq ih =>
    obtain ⟨ho, hs⟩ := List.forall_mem_cons.1 hs
    exact ih (Tree.isIntact_infixed ho.2 ho.1 he) hs
  | case4 => exact ⟨he, hs⟩

/-- The end of an expression keeps the machine whole, whatever construct it ends in. -/
theorem yields_endExpression (hs : ∀ p ∈ m.stack, p.Intact)
    (hd : ∀ s ∈ m.done, s.isIntact .statement = true) (he : e.isIntact .expression = true)
    (ht : t.lexeme.Legible) : Yields (m.endExpression e t) := by
  have hr := intact_reduce (p := .lowest) he hs
  unfold endExpression
  dsimp only
  generalize reduce .lowest e m.stack = r at hr
  obtain ⟨e, stack⟩ := r
  obtain ⟨he, hs⟩ := hr
  dsimp only at he hs ⊢
  have cons {done : List Code} (h : ∀ a ∈ done, a.isIntact .expression = true) :
      ∀ a ∈ e :: done, a.isIntact .expression = true := List.forall_mem_cons.2 ⟨he, h⟩
  split
  -- nothing but a construct that waits for an expression can take one
  case h_7 => exact yields_error
  all_goals obtain ⟨hp, hs⟩ := List.forall_mem_cons.1 hs
  · exact yields_afterStatement hs hd (Tree.isIntact_letStatement he) ht
  · exact yields_afterStatement hs hd (Tree.isIntact_returnStatement (.inr he)) ht
  · exact yields_afterStatement hs hd he ht
  · split
    · exact yields_ok ⟨he, hs, hd⟩
    · exact yields_error
  · split
    · exact yields_ok ⟨he, hs, hd⟩
    · exact yields_error
  · have has := cons hp.2
    split
    · exact yields_ok ⟨trivial, List.forall_mem_cons.2 ⟨⟨hp.1, has⟩, hs⟩, hd⟩
    · exact yields_ok
        ⟨Tree.isIntact_call hp.1 fun a h => has a (List.mem_reverse.1 h), hs, hd⟩
    · exact yields_error

/-- What follows an operand keeps it whole too. -/
theorem yields_afterOperand (hs : ∀ p ∈ m.stack, p.Intact)
    (hd : ∀ s ∈ m.done, s.isIntact .statement = true) (he : e.isIntact .expression = true)
    (ht : t.lexeme.Legible) : Yields (m.afterOperand e t) := by
  unfold afterOperand
  split
  · exact yields_ok ⟨he, hs, hd⟩
  · next hk =>
    split
    · exact yields_endExpression hs hd he ht
    · next hp =>
      obtain ⟨he, hs⟩ := intact_reduce (p := t.kind.precedence) he hs
      have ho : (infixKind? t.literal).isSome = true := ht.infixOperator hk hp
      exact yields_ok ⟨trivial, List.forall_mem_cons.2 ⟨⟨he, ho⟩, hs⟩, hd⟩

/-- One token keeps a machine whole. -/
theorem Intact.feed (h : m.Intact) (ht : t.lexeme.Legible) : Yields (m.feed t) := by
  obtain ⟨hm, hs, hd⟩ := h
  have push {p : Pending} {mode : Mode} (hp : p.Intact) (hmode : mode.Intact := by trivial) :
      (m.push p mode).Intact := ⟨hmode, List.forall_mem_cons.2 ⟨hp, hs⟩, hd⟩
  have take {k : Kind} {next : Machine} (hn : next.Intact) :
      Yields (if t.kind = k then .ok next else .error (unexpected t)) := by
    split
    · exact yields_ok hn
    · exact yields_error
  unfold Machine.feed
  dsimp only
  generalize m.mode = mode at hm
  cases mode with
  | statement => exact yields_statement hs hd ht
  | returned =>
    dsimp only
    split
    · exact yields_operand (List.forall_mem_cons.2 ⟨trivial, hs⟩) hd ht
    · exact yields_afterStatement hs hd (Tree.isIntact_returnStatement (.inl rfl)) ht
  | operand => exact yields_operand hs hd ht
  | callOpen f =>
    dsimp only
    split
    · exact yields_ok ⟨Tree.isIntact_call hm nofun, hs, hd⟩
    · exact yields_operand (List.forall_mem_cons.2 ⟨⟨hm, nofun⟩, hs⟩) hd ht
  | ended e | closed e => exact yields_afterOperand hs hd hm ht
  | consequence c b =>
    dsimp only
    split
    · exact yields_ok ⟨hm, hs, hd⟩
    · exact yields_afterOperand hs hd (Tree.isIntact_conditional hm.1 hm.2 (.inl rfl)) ht
  | letAssign | ifOpen => exact take (push trivial)
  -- a block is begun with nothing in it, and with the parts that the construct has so far
  | conditionClosed | elseOpen => exact take (push ⟨hm, nofun⟩)
  | parametersClosed => exact take (push ⟨trivial, nofun⟩)
  | letName | fnOpen | parameterNext => exact take ⟨trivial, hs, hd⟩
  | parametersOpen | parameter =>
    dsimp only
    split
    · exact yields_ok ⟨trivial, hs, hd⟩
    · exact yields_ok ⟨trivial, hs, hd⟩
    · exact yields_error

end Machine

/-- A run that ends without a diagnostic keeps a machine whole. -/
theorem Runs.intact {m m' : Machine} {s : Source} {ts : List Token} (h : Runs m s ts m')
    (hm : m.Intact) (ht : ∀ t ∈ ts, t.lexeme.Legible) (hd : m'.diagnostics = #[]) : m'.Intact := by
  induction h with
  | stop _ _ hf => exact hm.feed (ht _ List.mem_cons_self) _ hf hd
  | @step m m₁ m' s s' t ts _ _ hf h ih =>
    obtain ⟨ht, hts⟩ := List.forall_mem_cons.1 ht
    -- no diagnostic is taken back, so there is none yet
    have hd₁ : m₁.diagnostics = #[] := Accepts.diagnostics_eq ⟨m', h.feedAll_eq, hd⟩
    exact ih (hm.feed ht m₁ hf hd₁) hts hd

end Grammar

/-- The programs that one of the two ways of reading takes without a mistake, by precedence with any
budget. -/
def IsAccepted (p : Code) : Prop :=
  ∃ text, (∃ budget, parseTokens? budget (tokenize text) = some ⟨p, []⟩) ∨
    parseGrammar? text = some ⟨p, []⟩

/-- A program that is read without a mistake is whole. -/
theorem IsAccepted.isIntact {p : Code} (h : IsAccepted p) : p.isIntact = true := by
  obtain ⟨text, ⟨budget, h⟩ | h⟩ := h
  · obtain ⟨ss, rest, rfl, hr, -⟩ := reads_of_parseTokens? h (Source.ended_tokens _).endsText
    exact Tree.isIntact_program (hr.isIntact (legible_tokens _))
  · obtain ⟨m, ts, hr, rfl, hd⟩ := exists_runs_of_parseGrammar? h
    have ht : ∀ t ∈ ts, t.lexeme.Legible := by
      intro t ht
      have hl : t.plain.lexeme.Legible := by
        refine legible_tokens (Source.ofString text) _ ?_
        rw [hr.tokens_eq.1]
        exact List.mem_map_of_mem ht
      by_cases hk : t.kind = .ident
      · -- a name is no literal and no operator, whatever word it is
        obtain ⟨k, literal, p⟩ := t
        obtain rfl : k = .ident := hk
        exact .of_other (k := .ident) (by decide) rfl
      · rwa [Token.plain_of_ne hk] at hl
    have hm := hr.intact ⟨trivial, nofun, nofun⟩ ht hd
    exact Tree.isIntact_program fun s hs => hm.done s (List.mem_reverse.1 hs)

/-- In such a program every node stands where it belongs. -/
theorem IsAccepted.fitsRole {p : Code} (h : IsAccepted p) :
    p.toProgram.fitsRole .program = true :=
  (Tree.meets_mapLabels _ _ _ p).trans (Tree.fitsRole_of_meets _ p _ h.isIntact)

end MonkeyLang
