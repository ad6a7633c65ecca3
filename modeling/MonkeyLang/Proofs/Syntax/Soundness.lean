import MonkeyLang.Proofs.Syntax.Balance
import MonkeyLang.Proofs.Syntax.Cursor

/-!
# Soundness of reading by precedence

Where reading by precedence reports no mistake, the tokens that it took write the tree that it
gave: `reads_of_parseTokens?`. A small logic for readers carries the proof. `Yields x c Q` says of
the reader `x` at the cursor `c` that it keeps the cursor in order, that it takes no diagnostic
back, and that `Q` holds of its result if there is no diagnostic at its end. So a branch that
reports a mistake is never followed further.
-/

namespace MonkeyLang.Parse

variable {α β : Type} {c : Cursor} {k : Kind}

/-! ## A logic for readers -/

/-- The reader `x` at `c` keeps the cursor in order and, without a diagnostic, yields `Q`. -/
def Yields (x : Parse α) (c : Cursor) (Q : α → Cursor → Prop) : Prop :=
  ∀ a c', x c = some (a, c') →
    c'.Checked ∧ (c'.diagnostics = #[] → c.diagnostics = #[] ∧ Q a c')

namespace Yields

variable {x : Parse α} {f : α → Parse β} {Q : β → Cursor → Prop} {R : α → Cursor → Prop}

theorem pure {b : β} (hc : c.Checked) (h : c.diagnostics = #[] → Q b c) :
    Yields (Pure.pure b) c Q := by
  intro b' c' hr
  cases hr
  exact ⟨hc, fun hd => ⟨hd, h hd⟩⟩

theorem failure : Yields (Alternative.failure : Parse β) c Q := by
  intro b' c' hr
  cases hr

/-- What the first reader yields may be used for what the second one must yield, but not for
keeping the cursor in order. -/
theorem bind (hx : Yields x c R)
    (hf : ∀ a c₁, c₁.Checked → Yields (f a) c₁ fun b c' => R a c₁ → Q b c') :
    Yields (x >>= f) c Q := by
  intro b c' hr
  obtain ⟨⟨a, c₁⟩, h₁, h₂⟩ := Option.bind_eq_some_iff.1 hr
  obtain ⟨hc₁, hq₁⟩ := hx a c₁ h₁
  obtain ⟨hc', hq'⟩ := hf a c₁ hc₁ b c' h₂
  refine ⟨hc', fun hd => ?_⟩
  obtain ⟨hd₁, hq⟩ := hq' hd
  obtain ⟨hd₀, hra⟩ := hq₁ hd₁
  exact ⟨hd₀, hq hra⟩

/-- What a reader yields may be weakened. -/
theorem mono (hx : Yields x c R) {R' : α → Cursor → Prop} (h : ∀ a c', R a c' → R' a c') :
    Yields x c R' := by
  intro a c' hr
  obtain ⟨hc', hq⟩ := hx a c' hr
  -- The cursor is in order either way; only what is said of the result changes.
  exact ⟨hc', fun hd => ⟨(hq hd).1, h a c' (hq hd).2⟩⟩

/-- A step takes no diagnostic back. -/
theorem advance {x : Parse β} (h : Yields x c.advance Q) : Yields (do Parse.advance; x) c Q := by
  intro b c' hr
  obtain ⟨hc', hq⟩ := h b c' hr
  refine ⟨hc', fun hd => ?_⟩
  exact ⟨Cursor.of_diagnostics_advance (hq hd).1, (hq hd).2⟩

/-- A reader that starts by reporting a mistake yields anything. -/
theorem report {x : Parse β} {d : Diagnostic} (h : Yields x (c.report d) fun _ _ => True) :
    Yields (do Parse.report d; x) c Q := by
  intro b c' hr
  obtain ⟨hc', hq⟩ := h b c' hr
  exact ⟨hc', fun hd => absurd (hq hd).1 (Cursor.diagnostics_report_ne c d)⟩

theorem current {f : Token → Parse β} (h : Yields (f c.current) c Q) :
    Yields (Parse.current >>= f) c Q := h

theorem peek {f : Token → Parse β} (h : Yields (f c.peek) c Q) : Yields (Parse.peek >>= f) c Q := h

/-- Both branches of a choice by the kind ahead, each with what it learns of that kind. -/
theorem accept {f : Bool → Parse β} (hk : k ≠ .eof) (hc : c.Checked)
    (ht : c.Meets k → c.advance.Checked → Yields (f true) c.advance Q)
    (hf : nextKind c.upcoming ≠ k → Yields (f false) c Q) : Yields (accept k >>= f) c Q := by
  intro b c' hr
  rw [bind_apply, accept_apply, hc.kind_peek] at hr
  split at hr
  · next h => exact advance (ht (.of_nextKind h hk) hc.advance) b c' hr
  · next h => exact hf h b c' hr

/-- A token that is expected and does not come is a mistake. -/
theorem expect {f : Bool → Parse β} (hk : k ≠ .eof) (hc : c.Checked)
    (ht : c.Meets k → c.advance.Checked → Yields (f true) c.advance Q)
    (hf : ∀ d, Yields (f false) (c.report d) fun _ _ => True) : Yields (expect k >>= f) c Q := by
  intro b c' hr
  rw [bind_apply, expect_apply, hc.kind_peek] at hr
  split at hr
  · next h => exact advance (ht (.of_nextKind h hk) hc.advance) b c' hr
  · exact report (hf _) b c' hr

/-- Only the branch in which the kind came has to be followed. -/
theorem requiring {x : Parse Code} {Q : Code → Cursor → Prop} (hk : k ≠ .eof) (hc : c.Checked)
    (h : c.Meets k → c.advance.Checked → Yields x c.advance Q) : Yields (requiring k x) c Q :=
  expect hk hc h fun d => pure (hc.report d) fun _ => trivial

/-- The semicolon that may end a statement. -/
theorem semicolon {b : β} (hc : c.Checked)
    (h : ∀ c' : Cursor, c'.upcoming = skipSemicolon c.upcoming → Q b c') :
    Yields (do let _ ← Parse.accept .semicolon; return b) c Q := by
  refine accept (by decide) hc (fun hm hc' => ?_) fun hk => ?_
  · refine pure hc' fun _ => h _ ?_
    rw [Cursor.upcoming_advance, hm.upcoming, skipSemicolon_of_eq hm.kind, List.tail_cons]
  · exact pure hc fun _ => h _ (skipSemicolon_of_ne hk).symm

end Yields

/-! ## Statements -/

/-- A reader of expressions whose results are readings that nest in `n` levels. -/
def IsSound (n : Nat) (inner : ExpressionReader) : Prop :=
  ∀ (p : Precedence) (c : Cursor), c.Checked →
    Yields (inner p) c fun e c' =>
      Reads [.rbrace, .eof] n (.expression p e) c.stream c'.upcoming

variable {n fuel : Nat} {inner : ExpressionReader}

/-- A let statement without a mistake has the four parts of one. -/
theorem yields_letStatement (hi : IsSound n inner) (hc : c.Checked)
    (hk : c.current.kind = .kwLet) :
    Yields (letStatement inner) c fun s c' =>
      Reads [.rbrace, .eof] n (.statement s) c.stream c'.upcoming := by
  refine .requiring (by decide) hc fun hx hc₁ => .current ?_
  refine .requiring (by decide) hc₁ fun ha hc₂ => .advance ?_
  have hs : c.advance.advance.upcoming = c.advance.advance.advance.stream :=
    hc₂.upcoming_eq (by rw [ha.kind]; decide)
  -- The semicolon goes with the statement whether it is there or not.
  refine .bind (hi _ _ hc₂.advance) fun e c₃ hc₃ => .semicolon hc₃ fun c' hu he => ?_
  rw [hu, Cursor.stream, hx.upcoming, ha.upcoming, hs]
  exact .letStatement hk hx.kind ha.kind he

/-- A return statement without a mistake is one of its two forms. -/
theorem yields_returnStatement (hi : IsSound n inner) (hc : c.Checked)
    (hk : c.current.kind = .kwReturn) :
    Yields (returnStatement inner) c fun s c' =>
      Reads [.rbrace, .eof] n (.statement s) c.stream c'.upcoming := by
  have bare (hn : nextKind c.upcoming ∈ [Kind.semicolon, .rbrace, .eof]) :
      Reads [.rbrace, .eof] n (.statement (.returnStatement .missing)) c.stream
        (skipSemicolon c.upcoming) := .bareReturn hk hn
  unfold returnStatement
  refine .peek ?_
  rw [hc.kind_peek]
  -- A semicolon is taken; a brace and the end of the text are left where they are.
  split
  · next h =>
    have hm : c.Meets .semicolon := .of_nextKind h (by decide)
    refine .advance (.pure hc.advance fun _ => ?_)
    have hr := bare (by rw [h]; decide)
    rwa [hm.upcoming, skipSemicolon_of_eq hm.kind] at hr
  · next h =>
    refine .pure hc fun _ => ?_
    have hr := bare (by rw [h]; decide)
    rwa [skipSemicolon_of_ne (by rw [h]; decide)] at hr
  · next h =>
    refine .pure hc fun _ => ?_
    have hr := bare (by rw [h]; decide)
    rwa [skipSemicolon_of_ne (by rw [h]; decide)] at hr
  · have hs : c.stream = c.current :: c.advance.stream := hc.stream_eq (by rw [hk]; decide)
    refine .advance (.bind (hi _ _ hc.advance) fun e c₁ hc₁ => .semicolon hc₁ fun c' hu he => ?_)
    rw [hu, hs]
    exact .returnStatement hk he

/-- An expression without a mistake is a statement. -/
theorem yields_expressionStatement (hi : IsSound n inner) (hc : c.Checked) :
    Yields (expressionStatement inner) c fun s c' =>
      Reads [.rbrace, .eof] n (.statement s) c.stream c'.upcoming := by
  refine .bind (hi _ _ hc) fun e c₁ hc₁ => .semicolon hc₁ fun c' hu he => ?_
  rw [hu]
  exact .expressionStatement he

/-- A statement without a mistake is one of its three forms. -/
theorem yields_statement (hi : IsSound n inner) (hc : c.Checked) :
    Yields (statement inner) c fun s c' =>
      Reads [.rbrace, .eof] n (.statement s) c.stream c'.upcoming := by
  unfold statement
  refine .current ?_
  split
  · next h => exact yields_letStatement hi hc h
  · next h => exact yields_returnStatement hi hc h
  · exact yields_expressionStatement hi hc

/-- The cursor is at the first of the tokens `ts`, or stays on the end of the text where there are
none. -/
def At (c : Cursor) (ts : List Token) : Prop :=
  ts = c.stream ∨ (ts = [] ∧ c.upcoming = [] ∧ c.current.kind = .eof)

/-- The kind in hand is that of the first token, or the end of the text for none. -/
theorem At.nextKind_eq {ts : List Token} (h : At c ts) : nextKind ts = c.current.kind := by
  rcases h with rfl | ⟨rfl, -, hk⟩
  · rfl
  · exact hk.symm

/-- What is ahead of the cursor is the tokens but the first. -/
theorem At.tail_eq {ts : List Token} (h : At c ts) : ts.tail = c.upcoming := by
  rcases h with rfl | ⟨rfl, hu, -⟩
  · rfl
  · exact hu.symm

/-- Moving on puts the cursor at the first token that was ahead. -/
theorem at_advance (hc : c.Checked) : At c.advance c.upcoming := by
  cases hu : c.upcoming with
  | nil =>
    -- Nothing is ahead: the cursor stays on its last token, which is the end of the text.
    have hl := hc.ends
    rw [hu] at hl
    exact .inr ⟨rfl, by rw [Cursor.advance_nil hu, hu], by rw [Cursor.advance_nil hu]; exact hl⟩
  | cons t ts =>
    refine .inl ?_
    rw [Cursor.stream, Cursor.current_advance hu, Cursor.upcoming_advance, hu, List.tail_cons]

/-- A sequence of statements ends with a closing token in hand. -/
theorem yields_statements (hi : IsSound n inner) {closing : List Kind} (he : .eof ∈ closing)
    {ts : List Token} (hc : c.Checked) (hat : At c ts) :
    Yields (statements inner closing fuel) c fun ss c' =>
      ∃ ts', Reads [.rbrace, .eof] n (.statements ss) ts ts' ∧ At c' ts' ∧
        c'.current.kind ∈ closing := by
  induction fuel generalizing c ts with
  | zero => exact .failure
  | succ fuel ih =>
    rw [statements]
    refine .current ?_
    split
    · next hk => exact .pure hc fun _ => ⟨ts, .noStatements, hat, hk⟩
    · next hk =>
      -- A cursor that does not stand on a closing token is not at the end of the text.
      have hts : ts = c.stream := by
        rcases hat with h | ⟨-, -, h⟩
        · exact h
        · exact absurd (h ▸ he) hk
      refine .bind (yields_statement hi hc) fun s c₁ hc₁ => .advance ?_
      refine .bind (ih hc₁.advance (at_advance hc₁)) fun ss c₂ hc₂ => .pure hc₂ ?_
      rintro - ⟨ts', hss, hat', hk'⟩ hs
      have hw : s.isMissing = false := hs.isWhole
      rw [hw, hts]
      exact ⟨ts', .statements hs hss, hat', hk'⟩

/-- A block ends with its closing brace or the end of the text in hand. -/
theorem yields_block (hi : IsSound n inner) (hc : c.Checked) (hk : c.current.kind = .lbrace) :
    Yields (block fuel inner) c fun b c' =>
      Reads [.rbrace, .eof] n (.block b) c.stream c'.upcoming := by
  refine .advance (.bind (yields_statements hi (by decide) hc.advance (at_advance hc)) ?_)
  intro ss c' hc'
  refine .pure hc' ?_
  rintro - ⟨ts', hss, hat, hk'⟩
  rw [← hat.tail_eq]
  exact .block hk hss (hat.nextKind_eq ▸ hk')

/-! ## Operands -/

/-- A numeral that is out of range is a mistake. -/
theorem yields_integerLiteral (hc : c.Checked) (hk : c.current.kind = .int) :
    Yields integerLiteral c fun e c' =>
      Reads [.rbrace, .eof] n (.operand e) c.stream c'.upcoming := by
  unfold integerLiteral
  refine .current ?_
  split
  · next h => exact .pure hc fun _ => .integer hk h
  · exact .report (.pure (hc.report _) fun _ => trivial)

/-- A prefix operator without a mistake has an operand. -/
theorem yields_prefixed (hi : IsSound n inner) (hc : c.Checked)
    (hk : c.current.kind = .bang ∨ c.current.kind = .minus) :
    Yields (prefixed inner) c fun e c' =>
      Reads [.rbrace, .eof] n (.operand e) c.stream c'.upcoming := by
  have hs : c.stream = c.current :: c.advance.stream :=
    hc.stream_eq (by rcases hk with hk | hk <;> rw [hk] <;> decide)
  refine .current (.advance (.bind (hi _ _ hc.advance) fun e c' hc' => .pure hc' fun _ he => ?_))
  rw [hs]
  exact .prefixed hk he

/-- A group without a mistake is closed. -/
theorem yields_grouped (hi : IsSound n inner) (hc : c.Checked) (hk : c.current.kind = .lparen) :
    Yields (grouped inner) c fun e c' =>
      Reads [.rbrace, .eof] n (.operand e) c.stream c'.upcoming := by
  have hs : c.stream = c.current :: c.advance.stream := hc.stream_eq (by rw [hk]; decide)
  refine .advance (.bind (hi _ _ hc.advance) fun e c₁ hc₁ => ?_)
  refine .requiring (by decide) hc₁ fun hu hc₂ => .pure hc₂ fun _ he => ?_
  rw [hs]
  rw [hu.upcoming] at he
  exact .group hk he hu.kind

/-- A conditional without a mistake is one of its two forms, as an `else` follows or not. -/
theorem yields_conditional (hi : IsSound n inner) (hc : c.Checked) (hk : c.current.kind = .kwIf) :
    Yields (conditional fuel inner) c fun e c' =>
      Reads [.rbrace, .eof] n (.operand e) c.stream c'.upcoming := by
  refine .requiring (by decide) hc fun ho hc₁ => .advance ?_
  have hs : c.stream = c.current :: c.advance.current :: c.advance.advance.stream := by
    rw [Cursor.stream, ho.upcoming, hc₁.upcoming_eq (by rw [ho.kind]; decide)]
  refine .bind (hi _ _ hc₁.advance) fun e c₂ hc₂ => ?_
  refine .requiring (by decide) hc₂ fun hu hc₃ => .requiring (by decide) hc₃ fun hb hc₄ => ?_
  refine .bind (yields_block hi hc₄ hb.kind) fun b c₅ hc₅ => ?_
  -- With `else` the second block has to be there, without it the first one is the last part.
  refine .accept (by decide) hc₅ (fun hl hc₆ => ?_) ?_
  · refine .requiring (by decide) hc₆ fun hb' hc₇ => ?_
    refine .bind (yields_block hi hc₇ hb'.kind) fun b' c' hc' => ?_
    refine .pure hc' fun _ hr' hr he => ?_
    rw [hu.upcoming, hb.upcoming] at he
    rw [hl.upcoming, hb'.upcoming] at hr
    rw [hs]
    exact .alternative hk ho.kind he hu.kind hr hl.kind hr'
  · intro hl
    refine .pure hc₅ fun _ hr he => ?_
    rw [hu.upcoming, hb.upcoming] at he
    rw [hs]
    exact .conditional hk ho.kind he hu.kind hr hl

/-- The loop over parameters gives a list, since giving up is a mistake. -/
theorem yields_moreParameters (hc : c.Checked) :
    Yields (moreParameters fuel) c fun names c' =>
      ∃ ps, names = some ps ∧ Reads [.rbrace, .eof] n (.moreParameters ps) c.upcoming c'.upcoming := by
  induction fuel generalizing c with
  | zero => exact .failure
  | succ fuel ih =>
    refine .accept (by decide) hc (fun hm hc₁ => ?_) fun _ => ?_
    · refine .expect (by decide) hc₁ (fun hx hc₂ => .current ?_)
        fun d => .pure (hc₁.report d) fun _ => trivial
      refine .bind (ih hc₂) fun names c' hc' => .pure hc' ?_
      rintro - ⟨ps, rfl, hr⟩
      rw [hm.upcoming, hx.upcoming]
      exact ⟨_, rfl, .nextParameter hm.kind hx.kind hr⟩
    · refine .expect (by decide) hc (fun hu hc₁ => .pure hc₁ fun _ => ?_)
        fun d => .pure (hc.report d) fun _ => trivial
      rw [hu.upcoming]
      exact ⟨_, rfl, .lastParameter hu.kind⟩

/-- A list of parameters without a mistake. -/
theorem yields_parameters (hc : c.Checked) (hk : c.current.kind = .lparen) :
    Yields (parameters fuel) c fun names c' =>
      ∃ ps, names = some ps ∧ Reads [.rbrace, .eof] n (.parameters ps) c.stream c'.upcoming := by
  refine .accept (by decide) hc (fun hu hc₁ => .pure hc₁ fun _ => ?_) fun _ => ?_
  · rw [Cursor.stream, hu.upcoming]
    exact ⟨_, rfl, .noParameters hk hu.kind⟩
  · refine .expect (by decide) hc (fun hx hc₁ => .current ?_)
      fun d => .pure (hc.report d) fun _ => trivial
    refine .bind (yields_moreParameters (n := n) hc₁) fun names c' hc' => .pure hc' ?_
    rintro - ⟨ps, rfl, hr⟩
    rw [Cursor.stream, hx.upcoming]
    exact ⟨_, rfl, .parameters hk hx.kind hr⟩

/-- A function literal without a mistake has parameters and a body. -/
theorem yields_function (hi : IsSound n inner) (hc : c.Checked) (hk : c.current.kind = .kwFn) :
    Yields (function fuel inner) c fun e c' =>
      Reads [.rbrace, .eof] n (.operand e) c.stream c'.upcoming := by
  refine .requiring (by decide) hc fun ho hc₁ => ?_
  refine .bind (yields_parameters (n := n) hc₁ ho.kind) fun names c₂ hc₂ => ?_
  cases names with
  -- Parameters that could not be read were reported.
  | none =>
    refine .pure hc₂ ?_
    rintro - ⟨_, h, -⟩
    cases h
  | some ps =>
    refine .requiring (by decide) hc₂ fun hb hc₃ => ?_
    refine .bind (yields_block hi hc₃ hb.kind) fun b c' hc' => ?_
    refine .pure hc' ?_
    rintro - hr ⟨_, h, hps⟩
    cases h
    rw [hb.upcoming] at hps
    rw [Cursor.stream, ho.upcoming]
    exact .function hk hps hr

/-- An operand without a mistake is a reading, for every kind that starts one. -/
theorem yields_operand (hi : IsSound n inner) (hc : c.Checked)
    (hk : c.current.kind.startsOperand = true) :
    Yields (operand fuel inner c.current) c fun e c' =>
      Reads [.rbrace, .eof] n (.operand e) c.stream c'.upcoming := by
  unfold operand
  split
  · next h => exact .pure hc fun _ => .identifier h
  · next h => exact yields_integerLiteral hc h
  · next h => exact .pure hc fun _ => .string h
  · next h => exact .pure hc fun _ => .truth h
  · next h => exact .pure hc fun _ => .falsity h
  · next h => exact yields_prefixed hi hc (.inl h)
  · next h => exact yields_prefixed hi hc (.inr h)
  · next h => exact yields_grouped hi hc h
  · next h => exact yields_conditional hi hc h
  · next h => exact yields_function hi hc h
  -- All kinds that start an operand were met.
  · unfold Kind.startsOperand at hk
    split at hk <;> contradiction

/-! ## Operations -/

/-- The argument that ends here was not missing, since nothing was reported. -/
theorem yields_moreArguments (hi : IsSound n inner) (hc : c.Checked) :
    Yields (moreArguments inner fuel) c fun arguments c' =>
      ∃ as, arguments = some as ∧
        Reads [.rbrace, .eof] n (.moreArguments as) c.upcoming c'.upcoming := by
  induction fuel generalizing c with
  | zero => exact .failure
  | succ fuel ih =>
    refine .accept (by decide) hc (fun hm hc₁ => .advance ?_) fun _ => ?_
    · have hs : c.upcoming = c.advance.current :: c.advance.advance.stream := by
        rw [hm.upcoming, hc₁.upcoming_eq (by rw [hm.kind]; decide)]
      refine .bind (hi _ _ hc₁.advance) fun a c₂ hc₂ => ?_
      split
      · next ha =>
        refine .pure hc₂ fun _ hr => ?_
        -- The tree of a reading is never missing, so this branch has reported a mistake.
        have hw : a.isMissing = false := hr.isWhole
        exact absurd (hw.symm.trans ha) (by decide)
      · refine .bind (ih hc₂) fun arguments c' hc' => .pure hc' ?_
        rintro - ⟨as, rfl, hr⟩ ha
        rw [hs]
        exact ⟨_, rfl, .nextArgument hm.kind ha hr⟩
    · refine .expect (by decide) hc (fun hu hc₁ => .pure hc₁ fun _ => ?_)
        fun d => .pure (hc.report d) fun _ => trivial
      rw [hu.upcoming]
      exact ⟨_, rfl, .lastArgument hu.kind⟩

/-- A list of arguments without a mistake. -/
theorem yields_arguments (hi : IsSound n inner) (hc : c.Checked) (hk : c.current.kind = .lparen) :
    Yields (arguments fuel inner) c fun arguments c' =>
      ∃ as, arguments = some as ∧
        Reads [.rbrace, .eof] n (.arguments as) c.stream c'.upcoming := by
  refine .accept (by decide) hc (fun hu hc₁ => .pure hc₁ fun _ => ?_) fun _ => .advance ?_
  · rw [Cursor.stream, hu.upcoming]
    exact ⟨_, rfl, .noArguments hk hu.kind⟩
  · have hs : c.stream = c.current :: c.advance.stream := hc.stream_eq (by rw [hk]; decide)
    refine .bind (hi _ _ hc.advance) fun a c₁ hc₁ => ?_
    split
    · next ha =>
      refine .pure hc₁ fun _ hr => ?_
      have hw : a.isMissing = false := hr.isWhole
      exact absurd (hw.symm.trans ha) (by decide)
    · refine .bind (yields_moreArguments hi hc₁) fun arguments c' hc' => .pure hc' ?_
      rintro - ⟨as, rfl, hr⟩ ha
      rw [hs]
      exact ⟨_, rfl, .arguments hk ha hr⟩

/-- What one token makes of the operand `left`, and what the operations after it do. -/
theorem yields_operation (hi : IsSound n inner) (hc : c.Checked) {p : Precedence}
    (hp : p < c.current.kind.precedence) (left : Code) :
    Yields (operation fuel inner left) c fun e c' =>
      ∀ {e' : Code} {ts : List Token}, Reads [.rbrace, .eof] n (.operations p e e') c'.upcoming ts →
        Reads [.rbrace, .eof] n (.operations p left e') c.stream ts := by
  have hne : c.current.kind ≠ .eof := Kind.ne_of_lt_precedence hp
  refine .current ?_
  split
  · next hk =>
    rw [hk] at hp
    refine .bind (yields_arguments hi hc hk) fun arguments c' hc' => ?_
    cases arguments with
    -- arguments that are not closed leave a diagnostic, so nothing is to be shown
    | none =>
      refine .pure hc' ?_
      rintro - ⟨_, h, -⟩
      cases h
    | some as =>
      refine .pure hc' ?_
      rintro - ⟨_, h, has⟩ e' ts hr
      cases h
      exact .call hk hp has hr
  -- an infix operator, with its right operand behind it
  · next hk =>
    refine .advance (.bind (hi _ _ hc.advance) fun right c' hc' => .pure hc' fun _ he => ?_)
    intro e' ts hr
    rw [hc.stream_eq hne]
    exact .infixed hk hp he hr

/-- The loop over operations gives a reading of them from the operand `left` on. -/
theorem yields_operations (hi : IsSound n inner) (hc : c.Checked) {p : Precedence}
    {rounds : Nat} (left : Code) :
    Yields (operations fuel inner p rounds left) c fun e c' =>
      Reads [.rbrace, .eof] n (.operations p left e) c.upcoming c'.upcoming := by
  induction rounds generalizing c left with
  | zero => exact .failure
  | succ rounds ih =>
    rw [operations]
    refine .peek ?_
    rw [hc.kind_peek]
    split
    · next hp =>
      -- the operator binds tighter, so it is not the end of the text
      have hm : c.Meets (nextKind c.upcoming) := .of_nextKind rfl (Kind.ne_of_lt_precedence hp)
      refine .advance (.bind (yields_operation hi hc.advance (by rwa [hm.kind]) left) ?_)
      intro e c₁ hc₁
      refine (ih hc₁ e).mono fun e' c' hr hop => ?_
      rw [hm.upcoming]
      exact hop hr
    · next hp => exact .pure hc fun _ => .stop hp

/-- An expression is a reading one level deeper than those inside it. -/
theorem isSound_expressionWith (hi : IsSound n inner) :
    IsSound (n + 1) (expressionWith fuel inner) := by
  intro p c hc
  refine .current ?_
  split
  · next hk =>
    refine .bind (yields_operand hi hc hk) fun left c₁ hc₁ => ?_
    exact (yields_operations hi hc₁ left).mono fun e c' hr hl => .expression hl hr
  · split
    · -- An illegal character was reported when it was read.
      next hk => exact .pure hc fun hd => absurd hk (hc.current hd)
    · exact .report (.pure (hc.report _) fun _ => trivial)

/-- Expressions read with a budget are readings of that many levels. -/
theorem isSound_expression (fuel budget : Nat) : IsSound budget (expression fuel budget) := by
  induction budget with
  | zero => exact fun p c _ => .failure
  | succ budget ih => exact isSound_expressionWith ih

end MonkeyLang.Parse

namespace MonkeyLang

/-- A list of tokens as the lexer gives it: the end of the text is its last token. -/
def EndsText (tokens : List Token) : Prop :=
  ∃ t, tokens.getLast? = some t ∧ t.kind = .eof

/-- Where the end of the text is the last token, the first cursor is in order and has all tokens. -/
theorem Cursor.Checked.start {tokens : List Token} (h : EndsText tokens) :
    (Cursor.start tokens).Checked ∧ (Cursor.start tokens).stream = tokens := by
  cases tokens with
  | nil =>
    obtain ⟨_, h, _⟩ := h
    cases h
  | cons t ts =>
    obtain ⟨u, hu, hk⟩ := h
    have hl : (ts.getLastD t).kind = .eof := by
      rw [List.getLast?_cons, Option.some.injEq] at hu
      rw [List.getLastD_eq_getLast?, hu]
      exact hk
    unfold Cursor.start
    dsimp only
    -- The look at the first two tokens may report them, but moves nothing.
    constructor
    · refine .inspectPeek ?_ ?_
      · split <;> exact hl
      · split
        · exact fun h => absurd h (diagnostics_report_ne _ _)
        · next hk => exact fun _ => hk
    · rw [stream, current_inspectPeek, upcoming_inspectPeek]
      split <;> rfl

/-- The program of a list of tokens without a mistake is a reading of them. -/
theorem reads_of_parseTokens? {budget : Nat} {tokens : List Token} {p : Code}
    (h : parseTokens? budget tokens = some ⟨p, []⟩) (ht : EndsText tokens) :
    ∃ ss rest, p = .program ss ∧
      Reads [.rbrace, .eof] budget (.statements ss) tokens rest ∧ nextKind rest = .eof := by
  rw [parseTokens?_eq] at h
  obtain ⟨⟨tree, c'⟩, hr, hp⟩ := Option.map_eq_some_iff.1 h
  rw [Parsed.mk.injEq, Array.toList_eq_nil_iff] at hp
  obtain ⟨rfl, hd⟩ := hp
  obtain ⟨hc, hs⟩ := Cursor.Checked.start ht
  have hy : Parse.Yields (Parse.program (tokens.length + 1) budget) (Cursor.start tokens)
      fun p c' => ∃ ss rest, p = .program ss ∧
        Reads [.rbrace, .eof] budget (.statements ss) tokens rest ∧ nextKind rest = .eof := by
    refine .bind (Parse.yields_statements (Parse.isSound_expression _ _) (by decide) hc
      (.inl hs.symm)) fun ss c₁ hc₁ => .pure hc₁ ?_
    rintro - ⟨rest, hss, hat, hk⟩
    exact ⟨ss, rest, rfl, hss, hat.nextKind_eq.trans (List.mem_singleton.1 hk)⟩
  exact ((hy _ _ hr).2 hd).2

/-- Tokens that end with the end of the text have it last. -/
theorem Ended.endsText {ts : List Token} (h : Ended ts) : EndsText ts := by
  induction h with
  | @eof t ht => exact ⟨t, rfl, ht⟩
  | @cons t ts _ h ih =>
    obtain ⟨u, hu, hk⟩ := ih
    refine ⟨u, ?_, hk⟩
    rw [List.getLast?_cons, hu]
    rfl

/-- A program without a mistake is a reading up to the end of the text, if its blocks are closed. -/
theorem reads_of_balanced {budget : Nat} {tokens : List Token} {p : Code} (he : Ended tokens)
    (h : parseTokens? budget tokens = some ⟨p, []⟩) (hb : braceSurplus tokens = 0) :
    ∃ ss t, p = .program ss ∧ Reads [.rbrace] budget (.statements ss) tokens [t] ∧
      t.kind = .eof := by
  obtain ⟨ss, rest, rfl, hr, hk⟩ := reads_of_parseTokens? h he.endsText
  -- What is left is the end of the text, or nothing where an open block took that.
  have hrest : ∀ t us, rest = t :: us → us = [] := by
    rintro t us rfl
    exact he.suffix_eq hr.suffix hk
  have hs : braceSurplus rest = 0 := by
    cases rest with
    | nil => rfl
    | cons t us =>
      rw [hrest t us rfl, braceSurplus_other hk, braceSurplus_nil]
  -- An open block would be a brace that is not closed, so every block ends with its own brace.
  have hr' := hr.balanced.2 (hs.trans hb.symm)
  obtain ⟨t, us, rfl⟩ := List.exists_cons_of_ne_nil (he.of_consumes hr'.consumes).ne_nil
  rw [hrest t us rfl] at hr'
  exact ⟨ss, t, rfl, hr', hk⟩

end MonkeyLang
