import MonkeyLang.Proofs.Syntax.Cursor

/-!
# Completeness of reading by precedence

What is a reading of the tokens of a text is what reading by precedence gives, without a mistake,
if its budget has the levels of the reading: `parseTokens?_of_reads`. More budget never changes a
result that there is: `parseTokens?_mono`.
-/

namespace MonkeyLang

/-- Tokens without an illegal character that have the end of the text among them. -/
structure Legal (ts : List Token) : Prop where
  legal : ∀ t ∈ ts, t.kind ≠ .illegal
  ends : ∃ t ∈ ts, t.kind = .eof

namespace Legal

variable {ts ts' : List Token}

/-- What a reader leaves of legal tokens is legal: it never takes the end of the text. -/
theorem of_consumes (h : Legal ts) (hc : Consumes ts ts') : Legal ts' :=
  ⟨fun t ht => h.legal t (hc.subset ht), hc.eof_mem h.ends⟩

theorem exists_cons (h : Legal ts) : ∃ t us, ts = t :: us := by
  obtain ⟨t, ht, -⟩ := h.ends
  exact List.exists_cons_of_ne_nil (List.ne_nil_of_mem ht)

/-- The cursor looks one token ahead, and finds no illegal character there either. -/
theorem nextKind_tail_ne {t : Token} (h : Legal (t :: ts)) : nextKind ts ≠ .illegal := by
  cases ts with
  | nil => decide
  | cons u us => exact h.legal u (List.mem_cons_of_mem t List.mem_cons_self)

theorem of_cons {t : Token} {k : Kind} (h : Legal (t :: ts)) (ht : t.kind = k)
    (hk : k ∉ [.eof, .illegal]) : Legal ts :=
  h.of_consumes (.one ht hk)

/-- Nothing is reported at the start of legal tokens. -/
theorem start_eq {t : Token} (h : Legal (t :: ts)) : Cursor.start (t :: ts) = ⟨t, ts, #[]⟩ := by
  show Cursor.inspectPeek (if t.kind = .illegal then _ else _) = _
  rw [if_neg (h.legal t List.mem_cons_self)]
  exact Cursor.inspectPeek_of_ne h.nextKind_tail_ne

/-- Tokens of which only the end of the text is left are legal. -/
theorem of_consumes_eof {t : Token} (h : Consumes ts [t]) (ht : t.kind = .eof) : Legal ts := by
  refine ⟨h.legal ?_, t, h.subset List.mem_cons_self, ht⟩
  rw [List.forall_mem_singleton, ht]
  decide

end Legal

/-- Legal tokens that are fewer than the rounds of a loop. -/
structure Readable (fuel : Nat) (ts : List Token) : Prop extends Legal ts where
  short : ts.length < fuel

namespace Readable

variable {fuel : Nat} {ts ts' : List Token}

/-- The tokens that a reader leaves are no more, so the same fuel does for them. -/
theorem of_consumes (h : Readable fuel ts) (hc : Consumes ts ts') : Readable fuel ts' :=
  ⟨h.toLegal.of_consumes hc, Nat.lt_of_le_of_lt hc.length_le h.short⟩

theorem of_cons {t : Token} {k : Kind} (h : Readable fuel (t :: ts)) (ht : t.kind = k)
    (hk : k ∉ [.eof, .illegal]) : Readable fuel ts :=
  h.of_consumes (.one ht hk)

end Readable

namespace Parse

variable {α β : Type}

/-! ## Readers that succeed -/

/-- The reader `x` at `c` has the result `a`, goes on with `ts` and reports nothing. -/
def Produces (x : Parse α) (c : Cursor) (a : α) (ts : List Token) : Prop :=
  ∃ t, x c = some (a, ⟨t, ts, c.diagnostics⟩)

namespace Produces

variable {x : Parse α} {f : α → Parse β} {a : α} {b : β} {c : Cursor} {t u : Token} {k : Kind}
  {ts ts₁ ts₂ : List Token} {ds : Array Diagnostic}

theorem pure : Produces (Pure.pure b) ⟨t, ts, ds⟩ b ts :=
  ⟨t, rfl⟩

/-- Two readers one after the other. The second one starts at whichever token the first one stopped
at, so it has to succeed from any. -/
theorem bind (hx : Produces x c a ts₁)
    (hf : ∀ t, Produces (f a) ⟨t, ts₁, c.diagnostics⟩ b ts₂) : Produces (x >>= f) c b ts₂ := by
  obtain ⟨t₁, h₁⟩ := hx
  obtain ⟨t₂, h₂⟩ := hf t₁
  refine ⟨t₂, ?_⟩
  rw [bind_apply, h₁]
  exact h₂

theorem peek_eq : (⟨t, u :: ts, ds⟩ : Cursor).peek = u := rfl

/-- A step over legal tokens reports nothing. -/
theorem advance_eq (hl : Legal (u :: ts)) :
    (⟨t, u :: ts, ds⟩ : Cursor).advance = ⟨u, ts, ds⟩ := by
  rw [Cursor.advance_cons rfl]
  exact Cursor.inspectPeek_of_ne hl.nextKind_tail_ne

theorem current {f : Token → Parse β} (h : Produces (f t) ⟨t, ts, ds⟩ b ts₂) :
    Produces (Parse.current >>= f) ⟨t, ts, ds⟩ b ts₂ := h

theorem peek {f : Token → Parse β} (h : Produces (f u) ⟨t, u :: ts, ds⟩ b ts₂) :
    Produces (Parse.peek >>= f) ⟨t, u :: ts, ds⟩ b ts₂ := h

/-- A step takes the token ahead. -/
theorem advance {y : Parse β} (hl : Legal (u :: ts)) (h : Produces y ⟨u, ts, ds⟩ b ts₂) :
    Produces (do Parse.advance; y) ⟨t, u :: ts, ds⟩ b ts₂ := by
  obtain ⟨t₂, h₂⟩ := h
  refine ⟨t₂, ?_⟩
  show y (⟨t, u :: ts, ds⟩ : Cursor).advance = _
  rw [advance_eq hl]
  exact h₂

/-- A kind that is ahead is taken. -/
theorem accept {f : Bool → Parse β} (hl : Legal (u :: ts)) (hk : u.kind = k)
    (h : Produces (f true) ⟨u, ts, ds⟩ b ts₂) :
    Produces (accept k >>= f) ⟨t, u :: ts, ds⟩ b ts₂ := by
  obtain ⟨t₂, h₂⟩ := h
  refine ⟨t₂, ?_⟩
  rw [bind_apply, accept_apply, peek_eq, if_pos hk, advance_eq hl]
  exact h₂

/-- A kind that is not ahead is passed over. -/
theorem not_accept {f : Bool → Parse β} (hl : Legal ts) (hk : nextKind ts ≠ k)
    (h : Produces (f false) ⟨t, ts, ds⟩ b ts₂) :
    Produces (Parse.accept k >>= f) ⟨t, ts, ds⟩ b ts₂ := by
  obtain ⟨t₂, h₂⟩ := h
  obtain ⟨u, us, rfl⟩ := hl.exists_cons
  refine ⟨t₂, ?_⟩
  rw [nextKind_cons] at hk
  rw [bind_apply, accept_apply, peek_eq, if_neg hk]
  exact h₂

/-- A kind that has to be ahead, and is, is taken without a report. -/
theorem expect {f : Bool → Parse β} (hl : Legal (u :: ts)) (hk : u.kind = k)
    (h : Produces (f true) ⟨u, ts, ds⟩ b ts₂) :
    Produces (expect k >>= f) ⟨t, u :: ts, ds⟩ b ts₂ := by
  obtain ⟨t₂, h₂⟩ := h
  refine ⟨t₂, ?_⟩
  rw [bind_apply, expect_apply, peek_eq, if_pos hk, advance_eq hl]
  exact h₂

/-- What stands behind a kind that has to be there is read in its place. -/
theorem requiring {y : Parse Code} {e : Code} (hl : Legal (u :: ts)) (hk : u.kind = k)
    (h : Produces y ⟨u, ts, ds⟩ e ts₂) : Produces (requiring k y) ⟨t, u :: ts, ds⟩ e ts₂ :=
  expect hl hk h

/-- Every statement ends with a semicolon or without one. -/
theorem semicolon (hl : Legal ts) :
    Produces (do let _ ← Parse.accept .semicolon; return b) ⟨t, ts, ds⟩ b (skipSemicolon ts) := by
  obtain ⟨u, us, rfl⟩ := hl.exists_cons
  by_cases hu : u.kind = .semicolon
  · rw [skipSemicolon_of_eq hu]
    exact accept hl hu pure
  · rw [skipSemicolon_of_ne (by rwa [nextKind_cons])]
    exact not_accept hl hu pure

end Produces

/-! ## Readings are read

Each phrase is read from where it starts. The phrases of a list of tokens that is no longer than
`fuel` never exhaust a loop, since each of its rounds takes a token. -/

/-- The reader of a phrase, with budget `n` for its expressions, produces the tree of the phrase. -/
def Completes (fuel n : Nat) : Phrase → List Token → List Token → Prop
  | .expression p e, ts, ts' =>
    ∀ c : Cursor, c.stream = ts → Produces (expression fuel n p) c e ts'
  | .operand e, ts, ts' =>
    ∀ c : Cursor, c.stream = ts → Produces (operand fuel (expression fuel n) c.current) c e ts'
  | .operations p left e, ts, ts' =>
    ∀ (c : Cursor) (rounds : Nat), c.upcoming = ts → ts.length < rounds →
      Produces (operations fuel (expression fuel n) p rounds left) c e ts'
  | .arguments as, ts, ts' =>
    ∀ c : Cursor, c.stream = ts → Produces (arguments fuel (expression fuel n)) c (some as) ts'
  | .moreArguments as, ts, ts' =>
    ∀ (c : Cursor) (rounds : Nat), c.upcoming = ts → ts.length < rounds →
      Produces (moreArguments (expression fuel n) rounds) c (some as) ts'
  | .parameters ps, ts, ts' =>
    ∀ c : Cursor, c.stream = ts → Produces (parameters fuel) c (some ps) ts'
  | .moreParameters ps, ts, ts' =>
    ∀ (c : Cursor) (rounds : Nat), c.upcoming = ts → ts.length < rounds →
      Produces (moreParameters rounds) c (some ps) ts'
  | .block b, ts, ts' =>
    ∀ c : Cursor, c.stream = ts → Produces (block fuel (expression fuel n)) c b ts'
  | .statement s, ts, ts' =>
    ∀ c : Cursor, c.stream = ts → Produces (statement (expression fuel n)) c s ts'
  | .statements ss, ts, ts' =>
    ∀ (c : Cursor) (rounds : Nat) (closing : List Kind), c.stream = ts → ts.length < rounds →
      closing ⊆ [.rbrace, .eof] → nextKind ts' ∈ closing →
      Produces (statements (expression fuel n) closing rounds) c ss ts'.tail

section

variable {fuel n : Nat} {p : Precedence} {left right e b b' : Code} {as ss : List Code}
  {ps : List String} {t o u x a l : Token} {ts ts₁ ts₂ ts₃ : List Token}

/-- An expression is its first operand and the operations on it, one level deeper. -/
theorem completes_expression (h₁ : Completes fuel n (.operand left) ts ts₁)
    (h₂ : Completes fuel n (.operations p left e) ts₁ ts₂)
    (hk : (nextKind ts).startsOperand = true) (hf : ts₁.length < fuel) :
    Completes fuel (n + 1) (.expression p e) ts ts₂ := by
  rintro ⟨t, us, ds⟩ rfl
  rw [Cursor.stream, nextKind_cons] at hk
  have hr : Produces (do let left ← operand fuel (expression fuel n) t
                         operations fuel (expression fuel n) p fuel left) ⟨t, us, ds⟩ e ts₂ :=
    .bind (h₁ ⟨t, us, ds⟩ rfl) fun _ => h₂ _ _ rfl hf
  show Produces (if t.kind.startsOperand = true then _ else _) _ e ts₂
  rwa [if_pos hk]

/-! ### Operands -/

/-- A numeral in range is read as its number. -/
theorem completes_integer {v : Int} (hk : t.kind = .int)
    (hv : Word.ofLiteral? t.literal = some v) :
    Completes fuel n (.operand (.integer v)) (t :: ts) ts := by
  rintro ⟨t, ts, ds⟩ ⟨⟩
  have hr : Produces integerLiteral ⟨t, ts, ds⟩ (.integer v) ts := by
    unfold integerLiteral
    refine .current ?_
    rw [hv]
    exact .pure
  show Produces (operand fuel (expression fuel n) t) _ _ _
  unfold operand
  rw [hk]
  exact hr

/-- A prefix operator reads its operand with its own precedence. -/
theorem completes_prefixed (hl : Legal ts) (hk : t.kind = .bang ∨ t.kind = .minus)
    (h : Completes fuel n (.expression .unary e) ts ts₁) :
    Completes fuel n (.operand (.prefixed t.literal e)) (t :: ts) ts₁ := by
  rintro ⟨t, ts, ds⟩ ⟨⟩
  obtain ⟨u, us, rfl⟩ := hl.exists_cons
  have hr : Produces (prefixed (expression fuel n)) ⟨t, u :: us, ds⟩ (.prefixed t.literal e) ts₁ :=
    .current (.advance hl (.bind (h ⟨u, us, ds⟩ rfl) fun _ => .pure))
  show Produces (operand fuel (expression fuel n) t) _ _ _
  unfold operand
  rcases hk with hk | hk <;> rw [hk] <;> exact hr

/-- An expression in parentheses is read with the lowest precedence. -/
theorem completes_group (hl : Legal ts) (hl₁ : Legal (u :: ts₁)) (hk : t.kind = .lparen)
    (h : Completes fuel n (.expression .lowest e) ts (u :: ts₁)) (hu : u.kind = .rparen) :
    Completes fuel n (.operand e) (t :: ts) ts₁ := by
  rintro ⟨t, ts, ds⟩ ⟨⟩
  obtain ⟨x, us, rfl⟩ := hl.exists_cons
  show Produces (operand fuel (expression fuel n) t) _ _ _
  unfold operand
  rw [hk]
  exact .advance hl (.bind (h ⟨x, us, ds⟩ rfl) fun _ => .requiring hl₁ hu .pure)

/-- A conditional up to its first block, which both forms of it have in common. -/
theorem produces_conditional {d : Code} {ds : Array Diagnostic} (hl : Legal (o :: ts))
    (hl₁ : Legal (u :: ts₁)) (hk : t.kind = .kwIf) (ho : o.kind = .lparen)
    (h : Completes fuel n (.expression .lowest e) ts (u :: ts₁)) (hu : u.kind = .rparen)
    (hn : nextKind ts₁ = .lbrace)
    (hb : ∀ c : Cursor, c.stream = ts₁ → Produces (do
      let consequence ← block fuel (expression fuel n)
      if ← accept .kwElse then
        requiring .lbrace do
          return .conditional e consequence (← block fuel (expression fuel n))
      else
        return .conditional e consequence .missing) c d ts₂) :
    Produces (operand fuel (expression fuel n) t) ⟨t, o :: ts, ds⟩ d ts₂ := by
  have hl₀ : Legal ts := hl.of_cons ho (by decide)
  have hl₂ : Legal ts₁ := hl₁.of_cons hu (by decide)
  obtain ⟨x, us, rfl⟩ := hl₀.exists_cons
  obtain ⟨y, vs, rfl⟩ := hl₂.exists_cons
  unfold operand
  rw [hk]
  -- The parenthesis, the condition, the closing parenthesis and the brace ahead of the block.
  refine .requiring hl ho (.advance hl₀ (.bind (h ⟨x, us, ds⟩ rfl) fun _ => ?_))
  exact .requiring hl₁ hu (.requiring hl₂ hn (hb ⟨y, vs, ds⟩ rfl))

/-- A conditional without `else` has its second block missing. -/
theorem completes_conditional (hl : Legal (o :: ts)) (hl₁ : Legal (u :: ts₁)) (hl₂ : Legal ts₂)
    (hk : t.kind = .kwIf) (ho : o.kind = .lparen)
    (h : Completes fuel n (.expression .lowest e) ts (u :: ts₁)) (hu : u.kind = .rparen)
    (hn : nextKind ts₁ = .lbrace) (hb : Completes fuel n (.block b) ts₁ ts₂)
    (he : nextKind ts₂ ≠ .kwElse) :
    Completes fuel n (.operand (.conditional e b .missing)) (t :: o :: ts) ts₂ := by
  rintro ⟨t, _, ds⟩ ⟨⟩
  refine produces_conditional hl hl₁ hk ho h hu hn fun c hc => ?_
  exact .bind (hb c hc) fun _ => .not_accept hl₂ he .pure

/-- A conditional with `else` reads both its blocks. -/
theorem completes_alternative (hl : Legal (o :: ts)) (hl₁ : Legal (u :: ts₁))
    (hl₂ : Legal (l :: ts₂)) (hk : t.kind = .kwIf) (ho : o.kind = .lparen)
    (h : Completes fuel n (.expression .lowest e) ts (u :: ts₁)) (hu : u.kind = .rparen)
    (hn : nextKind ts₁ = .lbrace) (hb : Completes fuel n (.block b) ts₁ (l :: ts₂))
    (he : l.kind = .kwElse) (hn' : nextKind ts₂ = .lbrace)
    (hb' : Completes fuel n (.block b') ts₂ ts₃) :
    Completes fuel n (.operand (.conditional e b b')) (t :: o :: ts) ts₃ := by
  rintro ⟨t, _, ds⟩ ⟨⟩
  have hl₃ : Legal ts₂ := hl₂.of_cons he (by decide)
  obtain ⟨x, us, rfl⟩ := hl₃.exists_cons
  refine produces_conditional hl hl₁ hk ho h hu hn fun c hc => ?_
  refine .bind (hb c hc) fun _ => .accept hl₂ he (.requiring hl₃ hn' ?_)
  exact .bind (hb' ⟨x, us, c.diagnostics⟩ rfl) fun _ => .pure

/-- A function literal reads its parameters and its body. -/
theorem completes_function (hl : Legal ts) (hl₁ : Legal ts₁) (hk : t.kind = .kwFn)
    (hn : nextKind ts = .lparen) (h : Completes fuel n (.parameters ps) ts ts₁)
    (hn' : nextKind ts₁ = .lbrace) (hb : Completes fuel n (.block b) ts₁ ts₂) :
    Completes fuel n (.operand (.function ps b)) (t :: ts) ts₂ := by
  rintro ⟨t, ts, ds⟩ ⟨⟩
  obtain ⟨x, us, rfl⟩ := hl.exists_cons
  obtain ⟨y, vs, rfl⟩ := hl₁.exists_cons
  show Produces (operand fuel (expression fuel n) t) _ _ _
  unfold operand
  rw [hk]
  refine .requiring hl hn (.bind (h ⟨x, us, ds⟩ rfl) fun _ => .requiring hl₁ hn' ?_)
  exact .bind (hb ⟨y, vs, ds⟩ rfl) fun _ => .pure

/-! ### Lists in parentheses -/

/-- The empty list of parameters ends where it starts. -/
theorem completes_noParameters (hl : Legal (u :: ts)) (hu : u.kind = .rparen) :
    Completes fuel n (.parameters []) (o :: u :: ts) ts := by
  rintro ⟨o, _, ds⟩ ⟨⟩
  exact .accept hl hu .pure

/-- A list of parameters is its first name and the loop over the others. -/
theorem completes_parameters (hl : Legal (x :: ts)) (hx : x.kind = .ident)
    (hf : ts.length < fuel) (h : Completes fuel n (.moreParameters ps) ts ts₁) :
    Completes fuel n (.parameters (x.literal :: ps)) (o :: x :: ts) ts₁ := by
  rintro ⟨o, _, ds⟩ ⟨⟩
  refine .not_accept hl (by rw [nextKind_cons, hx]; decide) (.expect hl hx (.current ?_))
  exact .bind (h ⟨x, ts, ds⟩ fuel rfl hf) fun _ => .pure

/-- The loop over the parameters ends at the parenthesis. -/
theorem completes_lastParameter (hl : Legal (u :: ts)) (hu : u.kind = .rparen) :
    Completes fuel n (.moreParameters []) (u :: ts) ts := by
  rintro ⟨o, _, ds⟩ (_ | rounds) rfl hr
  · exact absurd hr (Nat.not_lt_zero _)
  · exact .not_accept hl (by rw [nextKind_cons, hu]; decide) (.expect hl hu .pure)

/-- A round of the loop takes a comma and a name. -/
theorem completes_nextParameter (hl : Legal (u :: x :: ts)) (hu : u.kind = .comma)
    (hx : x.kind = .ident) (h : Completes fuel n (.moreParameters ps) ts ts₁) :
    Completes fuel n (.moreParameters (x.literal :: ps)) (u :: x :: ts) ts₁ := by
  rintro ⟨o, _, ds⟩ (_ | rounds) rfl hr
  · exact absurd hr (Nat.not_lt_zero _)
  · have hl₁ : Legal (x :: ts) := hl.of_cons hu (by decide)
    -- The round takes two tokens, so the remaining ones fit into the remaining rounds.
    have hr' : ts.length < rounds := by
      rw [List.length_cons, List.length_cons] at hr
      omega
    refine .accept hl hu (.expect hl₁ hx (.current ?_))
    exact .bind (h ⟨x, ts, ds⟩ rounds rfl hr') fun _ => .pure

/-- The empty list of arguments ends where it starts. -/
theorem completes_noArguments (hl : Legal (u :: ts)) (hu : u.kind = .rparen) :
    Completes fuel n (.arguments []) (o :: u :: ts) ts := by
  rintro ⟨o, _, ds⟩ ⟨⟩
  exact .accept hl hu .pure

/-- A list of arguments is its first expression and the loop over the others. -/
theorem completes_arguments (hl : Legal ts) (hf : ts₁.length < fuel)
    (hk : (nextKind ts).startsOperand = true) (hw : e.isMissing = false)
    (h : Completes fuel n (.expression .lowest e) ts ts₁)
    (hs : Completes fuel n (.moreArguments as) ts₁ ts₂) :
    Completes fuel n (.arguments (e :: as)) (o :: ts) ts₂ := by
  rintro ⟨o, ts, ds⟩ ⟨⟩
  obtain ⟨x, us, rfl⟩ := hl.exists_cons
  -- The list is not empty, since a token that starts an operand is not a parenthesis that closes.
  refine .not_accept hl (fun he => ?_) (.advance hl (.bind (h ⟨x, us, ds⟩ rfl) fun t => ?_))
  · rw [he] at hk
    exact absurd hk (by decide)
  · rw [hw]
    exact .bind (hs _ fuel rfl hf) fun _ => .pure

/-- The loop over the arguments ends at the parenthesis. -/
theorem completes_lastArgument (hl : Legal (u :: ts)) (hu : u.kind = .rparen) :
    Completes fuel n (.moreArguments []) (u :: ts) ts := by
  rintro ⟨o, _, ds⟩ (_ | rounds) rfl hr
  · exact absurd hr (Nat.not_lt_zero _)
  · exact .not_accept hl (by rw [nextKind_cons, hu]; decide) (.expect hl hu .pure)

/-- A round of the loop takes a comma and an expression. -/
theorem completes_nextArgument (hl : Legal (u :: ts)) (hu : u.kind = .comma)
    (hlen : ts₁.length ≤ ts.length) (hw : e.isMissing = false)
    (h : Completes fuel n (.expression .lowest e) ts ts₁)
    (hs : Completes fuel n (.moreArguments as) ts₁ ts₂) :
    Completes fuel n (.moreArguments (e :: as)) (u :: ts) ts₂ := by
  rintro ⟨o, _, ds⟩ (_ | rounds) rfl hr
  · exact absurd hr (Nat.not_lt_zero _)
  · have hl₁ : Legal ts := hl.of_cons hu (by decide)
    have hr' : ts₁.length < rounds := by
      rw [List.length_cons] at hr
      omega
    obtain ⟨x, us, rfl⟩ := hl₁.exists_cons
    refine .accept hl hu (.advance hl₁ (.bind (h ⟨x, us, ds⟩ rfl) fun t => ?_))
    rw [hw]
    exact .bind (hs _ rounds rfl hr') fun _ => .pure

/-! ### Operations -/

/-- The loop over the operations ends before a token that does not bind tighter. -/
theorem completes_stop (hl : Legal ts) (hp : ¬ p < (nextKind ts).precedence) :
    Completes fuel n (.operations p e e) ts ts := by
  rintro ⟨t, _, ds⟩ (_ | rounds) rfl hr
  · exact absurd hr (Nat.not_lt_zero _)
  · obtain ⟨u, us, rfl⟩ := hl.exists_cons
    show Produces (if p < u.kind.precedence then _ else _) _ _ _
    rw [nextKind_cons] at hp
    rw [if_neg hp]
    exact .pure

/-- One round of the loop: an operation that the next token makes, and then the rest. -/
theorem completes_round (hl : Legal (t :: ts)) (hp : p < t.kind.precedence)
    (hlen : ts₁.length ≤ ts.length) {next : Code}
    (h : ∀ ds, Produces (operation fuel (expression fuel n) left) ⟨t, ts, ds⟩ next ts₁)
    (hs : Completes fuel n (.operations p next e) ts₁ ts₂) :
    Completes fuel n (.operations p left e) (t :: ts) ts₂ := by
  rintro ⟨x, _, ds⟩ (_ | rounds) rfl hr
  · exact absurd hr (Nat.not_lt_zero _)
  · have hr' : ts₁.length < rounds := by
      rw [List.length_cons] at hr
      omega
    show Produces (if p < t.kind.precedence then _ else _) _ _ _
    rw [if_pos hp]
    exact .advance hl (.bind (h ds) fun _ => hs _ rounds rfl hr')

/-- A parenthesis behind an operand makes a round that reads the arguments of a call. -/
theorem completes_call (hl : Legal (t :: ts)) (hk : t.kind = .lparen) (hp : p < .call)
    (hlen : ts₁.length ≤ ts.length) (h : Completes fuel n (.arguments as) (t :: ts) ts₁)
    (hs : Completes fuel n (.operations p (.call left as) e) ts₁ ts₂) :
    Completes fuel n (.operations p left e) (t :: ts) ts₂ := by
  refine completes_round hl (by rw [hk]; exact hp) hlen (fun ds => ?_) hs
  show Produces (if t.kind = .lparen then _ else _) _ _ _
  rw [if_pos hk]
  exact .bind (h ⟨t, ts, ds⟩ rfl) fun _ => .pure

/-- An infix operator makes a round that reads its right operand with its own precedence. -/
theorem completes_infixed (hl : Legal (t :: ts)) (hk : t.kind ≠ .lparen)
    (hp : p < t.kind.precedence) (hlen : ts₁.length ≤ ts.length) (hl₁ : Legal ts)
    (h : Completes fuel n (.expression t.kind.precedence right) ts ts₁)
    (hs : Completes fuel n (.operations p (.infixed left t.literal right) e) ts₁ ts₂) :
    Completes fuel n (.operations p left e) (t :: ts) ts₂ := by
  refine completes_round hl hp hlen (fun ds => ?_) hs
  obtain ⟨x, us, rfl⟩ := hl₁.exists_cons
  show Produces (if t.kind = .lparen then _ else _) _ _ _
  rw [if_neg hk]
  exact .advance hl₁ (.bind (h ⟨x, us, ds⟩ rfl) fun _ => .pure)

/-! ### Statements -/

/-- A let statement reads its name and its value. -/
theorem completes_letStatement (hl : Legal (x :: a :: ts)) (hl₁ : Legal ts₁)
    (ht : t.kind = .kwLet) (hx : x.kind = .ident) (ha : a.kind = .assign)
    (h : Completes fuel n (.expression .lowest e) ts ts₁) :
    Completes fuel n (.statement (.letStatement x.literal e)) (t :: x :: a :: ts)
      (skipSemicolon ts₁) := by
  rintro ⟨t, _, ds⟩ ⟨⟩
  have hl₂ : Legal (a :: ts) := hl.of_cons hx (by decide)
  have hl₃ : Legal ts := hl₂.of_cons ha (by decide)
  obtain ⟨y, us, rfl⟩ := hl₃.exists_cons
  unfold statement
  refine .current ?_
  rw [ht]
  refine .requiring hl hx (.current (.requiring hl₂ ha (.advance hl₃ ?_)))
  exact .bind (h ⟨y, us, ds⟩ rfl) fun _ => .semicolon hl₁

/-- A return statement may end with its keyword. -/
theorem completes_bareReturn (hl : Legal ts) (ht : t.kind = .kwReturn)
    (hn : nextKind ts ∈ [Kind.semicolon, .rbrace, .eof]) :
    Completes fuel n (.statement (.returnStatement .missing)) (t :: ts) (skipSemicolon ts) := by
  rintro ⟨t, ts, ds⟩ ⟨⟩
  obtain ⟨u, us, rfl⟩ := hl.exists_cons
  unfold statement returnStatement
  refine .current ?_
  rw [ht]
  refine .peek ?_
  simp only [List.mem_cons, List.not_mem_nil, or_false, nextKind_cons] at hn
  rcases hn with hn | hn | hn
  -- The semicolon is taken. A brace or the end of the text is left to the construct around.
  · rw [hn, skipSemicolon_of_eq hn]
    exact .advance hl .pure
  · rw [hn, skipSemicolon_of_ne (by rw [nextKind_cons, hn]; decide)]
    exact .pure
  · rw [hn, skipSemicolon_of_ne (by rw [nextKind_cons, hn]; decide)]
    exact .pure

/-- A return statement reads the value that starts behind its keyword. -/
theorem completes_returnStatement (hl : Legal ts) (hl₁ : Legal ts₁) (ht : t.kind = .kwReturn)
    (hk : (nextKind ts).startsOperand = true)
    (h : Completes fuel n (.expression .lowest e) ts ts₁) :
    Completes fuel n (.statement (.returnStatement e)) (t :: ts) (skipSemicolon ts₁) := by
  rintro ⟨t, ts, ds⟩ ⟨⟩
  obtain ⟨u, us, rfl⟩ := hl.exists_cons
  have hr : Produces (do
      advance
      let value ← expression fuel n .lowest
      let _ ← accept .semicolon
      return Tree.returnStatement value) ⟨t, u :: us, ds⟩ (.returnStatement e) (skipSemicolon ts₁) :=
    .advance hl (.bind (h ⟨u, us, ds⟩ rfl) fun _ => .semicolon hl₁)
  unfold statement returnStatement
  refine .current ?_
  rw [ht]
  refine .peek ?_
  rw [nextKind_cons] at hk
  -- The first three cases are the tokens that end a bare return, none of which starts an operand.
  split
  · next hu => rw [hu] at hk; exact absurd hk (by decide)
  · next hu => rw [hu] at hk; exact absurd hk (by decide)
  · next hu => rw [hu] at hk; exact absurd hk (by decide)
  · exact hr

/-- An expression that is no other statement is one by itself. -/
theorem completes_expressionStatement (hl₁ : Legal ts₁) (hk : (nextKind ts).startsOperand = true)
    (h : Completes fuel n (.expression .lowest e) ts ts₁) :
    Completes fuel n (.statement (.expressionStatement e)) ts (skipSemicolon ts₁) := by
  rintro ⟨t, us, ds⟩ rfl
  rw [Cursor.stream, nextKind_cons] at hk
  unfold statement
  refine .current ?_
  split
  · next ht => rw [ht] at hk; exact absurd hk (by decide)
  · next ht => rw [ht] at hk; exact absurd hk (by decide)
  · exact .bind (h ⟨t, us, ds⟩ rfl) fun _ => .semicolon hl₁

/-- The loop over the statements ends at the kind it waits for. -/
theorem completes_noStatements : Completes fuel n (.statements []) ts ts := by
  rintro ⟨t, us, ds⟩ (_ | rounds) closing rfl hr _ hk
  · exact absurd hr (Nat.not_lt_zero _)
  · rw [Cursor.stream, nextKind_cons] at hk
    show Produces (if t.kind ∈ closing then _ else _) _ _ _
    rw [if_pos hk]
    exact .pure

/-- A round of the loop over the statements reads one and steps over its last token. -/
theorem completes_statements {s : Code} (hl₁ : Legal ts₁) (hlen : ts₁.length < ts.length)
    (hw : s.isMissing = false) (hk : (Phrase.statement s).StartsWith (nextKind ts))
    (h : Completes fuel n (.statement s) ts ts₁) (hs : Completes fuel n (.statements ss) ts₁ ts₂) :
    Completes fuel n (.statements (s :: ss)) ts ts₂ := by
  rintro ⟨t, us, ds⟩ (_ | rounds) closing rfl hr hcl hk'
  · exact absurd hr (Nat.not_lt_zero _)
  · obtain ⟨x, vs, rfl⟩ := hl₁.exists_cons
    -- No statement starts with a token that ends a list of statements.
    have ht : t.kind ∉ closing := by
      intro hc
      rw [Cursor.stream, nextKind_cons] at hk
      have hm := hcl hc
      revert hk hm
      cases t.kind <;> simp [Phrase.StartsWith, Kind.startsOperand]
    have hr' : (x :: vs).length < rounds := by omega
    show Produces (if t.kind ∈ closing then _ else _) _ _ _
    rw [if_neg ht]
    refine .bind (h ⟨t, us, ds⟩ rfl) fun _ => .advance hl₁ ?_
    refine .bind (hs ⟨x, vs, ds⟩ rounds closing rfl hr' hcl hk') fun _ => ?_
    rw [hw]
    exact .pure

/-- A block reads its statements up to the brace that closes it. -/
theorem completes_block (hl : Legal ts) (hf : ts.length < fuel)
    (h : Completes fuel n (.statements ss) ts ts₁) (hn : nextKind ts₁ ∈ [Kind.rbrace]) :
    Completes fuel n (.block (.block ss)) (o :: ts) ts₁.tail := by
  rintro ⟨o, ts, ds⟩ ⟨⟩
  obtain ⟨x, us, rfl⟩ := hl.exists_cons
  refine .advance hl (.bind (h ⟨x, us, ds⟩ fuel _ rfl hf (List.Subset.refl _) ?_) fun _ => .pure)
  rw [List.mem_singleton] at hn
  rw [hn]
  decide

end

/-- Every reading whose blocks are closed is read, if the loops have fuel for its tokens. The
induction is on the reading; each of its rules is one of the lemmas above. -/
theorem completes_of_reads {fuel n : Nat} {g : Phrase} {ts ts' : List Token}
    (h : Reads [.rbrace] n g ts ts') (hr : Readable fuel ts) : Completes fuel n g ts ts' := by
  induction h with
  -- The budget goes down by one here and nowhere else.
  | expression h₁ _ ih₁ ih₂ =>
    have hr₁ := hr.of_consumes h₁.consumes
    exact completes_expression (ih₁ hr) (ih₂ hr₁) h₁.startsWith hr₁.short
  | identifier hk | string hk | truth hk | falsity hk =>
    rintro ⟨t, ts, ds⟩ ⟨⟩
    show Produces (operand fuel (expression fuel _) t) _ _ _
    unfold operand
    rw [hk]
    exact .pure
  | integer hk hv => exact completes_integer hk hv
  | prefixed hk _ ih =>
    have hr₁ := hk.elim (hr.of_cons · (by decide)) (hr.of_cons · (by decide))
    exact completes_prefixed hr₁.toLegal hk (ih hr₁)
  | group ht h hu ih =>
    have hr₁ := hr.of_cons ht (by decide)
    exact completes_group hr₁.toLegal (hr₁.of_consumes h.consumes).toLegal ht (ih hr₁) hu
  | conditional ht ho h₁ hu h₂ he ih₁ ih₂ =>
    have hr₁ := hr.of_cons ht (by decide)
    have hr₂ := hr₁.of_cons ho (by decide)
    have hr₃ := hr₂.of_consumes h₁.consumes
    have hr₄ := hr₃.of_cons hu (by decide)
    exact completes_conditional hr₁.toLegal hr₃.toLegal (hr₄.of_consumes h₂.consumes).toLegal
      ht ho (ih₁ hr₂) hu h₂.startsWith (ih₂ hr₄) he
  | alternative ht ho h₁ hu h₂ hl h₃ ih₁ ih₂ ih₃ =>
    have hr₁ := hr.of_cons ht (by decide)
    have hr₂ := hr₁.of_cons ho (by decide)
    have hr₃ := hr₂.of_consumes h₁.consumes
    have hr₄ := hr₃.of_cons hu (by decide)
    have hr₅ := hr₄.of_consumes h₂.consumes
    exact completes_alternative hr₁.toLegal hr₃.toLegal hr₅.toLegal ht ho (ih₁ hr₂) hu
      h₂.startsWith (ih₂ hr₄) hl h₃.startsWith (ih₃ (hr₅.of_cons hl (by decide)))
  | function ht h₁ h₂ ih₁ ih₂ =>
    have hr₁ := hr.of_cons ht (by decide)
    have hr₂ := hr₁.of_consumes h₁.consumes
    exact completes_function hr₁.toLegal hr₂.toLegal ht h₁.startsWith (ih₁ hr₁) h₂.startsWith
      (ih₂ hr₂)
  | noParameters ho hu => exact completes_noParameters (hr.of_cons ho (by decide)).toLegal hu
  | parameters ho hx _ ih =>
    have hr₁ := hr.of_cons ho (by decide)
    have hr₂ := hr₁.of_cons hx (by decide)
    exact completes_parameters hr₁.toLegal hx hr₂.short (ih hr₂)
  | lastParameter hu => exact completes_lastParameter hr.toLegal hu
  | nextParameter hc hx _ ih =>
    have hr₁ := hr.of_cons hc (by decide)
    exact completes_nextParameter hr.toLegal hc hx (ih (hr₁.of_cons hx (by decide)))
  | noArguments ho hu => exact completes_noArguments (hr.of_cons ho (by decide)).toLegal hu
  | arguments ho h₁ _ ih₁ ih₂ =>
    have hr₁ := hr.of_cons ho (by decide)
    have hr₂ := hr₁.of_consumes h₁.consumes
    exact completes_arguments hr₁.toLegal hr₂.short h₁.startsWith h₁.isWhole (ih₁ hr₁) (ih₂ hr₂)
  | lastArgument hu => exact completes_lastArgument hr.toLegal hu
  | nextArgument hc h₁ _ ih₁ ih₂ =>
    have hr₁ := hr.of_cons hc (by decide)
    exact completes_nextArgument hr.toLegal hc h₁.consumes.length_le h₁.isWhole (ih₁ hr₁)
      (ih₂ (hr₁.of_consumes h₁.consumes))
  | stop hp => exact completes_stop hr.toLegal hp
  -- The parenthesis of the call is still ahead, so the arguments take it.
  | call ht hp h₁ _ ih₁ ih₂ =>
    exact completes_call hr.toLegal ht hp (Nat.le_of_lt_succ (Takes.length_lt h₁.spans)) (ih₁ hr)
      (ih₂ (hr.of_consumes h₁.consumes))
  | infixed ht hp h₁ _ ih₁ ih₂ =>
    have hr₁ := hr.of_cons rfl (Kind.not_mem_of_lt_precedence hp)
    exact completes_infixed hr.toLegal ht hp h₁.consumes.length_le hr₁.toLegal (ih₁ hr₁)
      (ih₂ (hr₁.of_consumes h₁.consumes))
  | block ho _ hc ih =>
    have hr₁ := hr.of_cons ho (by decide)
    exact completes_block hr₁.toLegal hr₁.short (ih hr₁) hc
  | letStatement ht hx ha h ih =>
    have hr₁ := hr.of_cons ht (by decide)
    have hr₂ := (hr₁.of_cons hx (by decide)).of_cons ha (by decide)
    exact completes_letStatement hr₁.toLegal (hr₂.of_consumes h.consumes).toLegal ht hx ha (ih hr₂)
  | bareReturn ht hn => exact completes_bareReturn (hr.of_cons ht (by decide)).toLegal ht hn
  | returnStatement ht h ih =>
    have hr₁ := hr.of_cons ht (by decide)
    exact completes_returnStatement hr₁.toLegal (hr₁.of_consumes h.consumes).toLegal ht
      h.startsWith (ih hr₁)
  | expressionStatement h ih =>
    exact completes_expressionStatement (hr.of_consumes h.consumes).toLegal h.startsWith (ih hr)
  | noStatements => exact completes_noStatements
  | statements h₁ _ ih₁ ih₂ =>
    have hr₁ := hr.of_consumes h₁.consumes
    exact completes_statements hr₁.toLegal (Takes.length_lt h₁.spans) h₁.isWhole h₁.startsWith
      (ih₁ hr) (ih₂ hr₁)

end Parse

/-- A reading of all tokens of a text is the program that reading by precedence gives. -/
theorem parseTokens?_of_reads {n : Nat} {ss : List Code} {tokens rest : List Token}
    (h : Reads [.rbrace] n (.statements ss) tokens rest) (hl : Legal tokens)
    (he : nextKind rest = .eof) : parseTokens? n tokens = some ⟨.program ss, []⟩ := by
  have hr : Readable (tokens.length + 1) tokens := ⟨hl, Nat.lt_succ_self _⟩
  obtain ⟨t, ts, rfl⟩ := hl.exists_cons
  obtain ⟨u, hu⟩ := Parse.completes_of_reads h hr ⟨t, ts, #[]⟩ _ [.eof] rfl (Nat.lt_succ_self _)
    (by decide) (by rw [he]; decide)
  rw [parseTokens?_eq, hl.start_eq]
  show Option.map _ ((Parse.statements _ _ _ _).bind _) = _
  rw [hu]
  rfl

end MonkeyLang
