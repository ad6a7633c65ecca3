import MonkeyLang.Proofs.Grammar.Step

/-!
# What the machine of the grammar takes is a reading

Tokens that the machine takes up to the end of the text, without a literal out of range, have a
reading, if no `return` among them is followed by a `let` or by another `return`:
`reads_of_accepts`. After a `return` the machine lets any statement begin, so `return let x = 1` is
two statements for it; this is the only place where it takes tokens that have no reading.

The induction is on the number of tokens. Inside a text of at most `n + 1` tokens an expression has
at most `n`, so a reading of its parts is there; the simulation then tells in which state the
machine takes the tokens after each part.
-/

namespace MonkeyLang.Grammar

open MonkeyLang.Grammar.Machine

/-- The machine takes all of `ts` and reports nothing. -/
def Accepts (m : Machine) (ts : List Token) : Prop :=
  ∃ m', m.feedAll ts = .ok m' ∧ m'.diagnostics = #[]

/-- Tokens up to the end of a text in which no `return` is followed by a `let` or a `return`. -/
structure Stream (ts : List Token) : Prop where
  ended : Ended ts
  apart : ReturnsApart ts

namespace Stream

variable {t : Token} {k : Kind} {ts ts₁ : List Token}

theorem exists_cons (h : Stream ts) : ∃ t us, ts = t :: us :=
  List.exists_cons_of_ne_nil h.ended.ne_nil

theorem length_pos (h : Stream ts) : 0 < ts.length :=
  List.length_pos_iff.2 h.ended.ne_nil

/-- The tokens behind a phrase are such a stream again. -/
theorem of_consumes (h : Stream ts) (hc : Consumes ts ts₁) : Stream ts₁ := by
  refine ⟨h.ended.of_consumes hc, ?_⟩
  have ha := h.apart
  clear h
  induction hc with
  | refl _ => exact ha
  | step _ _ ih => exact ih ha.2

theorem of_cons (h : Stream (t :: ts)) (ht : t.kind = k) (hk : k ∉ [.eof, .illegal]) :
    Stream ts :=
  h.of_consumes (.one ht hk)

end Stream

namespace Accepts

variable {m m' : Machine} {s : List Pending} {p : Precedence} {e left : Code} {n : Nat} {t : Token}
  {ts ts₁ : List Token}

/-- The next token is taken, and then the others are. -/
theorem exists_feed (h : Accepts m (t :: ts)) : ∃ m', m.feed t = .ok m' ∧ Accepts m' ts := by
  obtain ⟨m', h, hd⟩ := h
  obtain ⟨m₁, hf, h⟩ := Machine.exists_feed h
  exact ⟨m₁, hf, m', h, hd⟩

/-- Where the machine behind the next token is known, that one takes the others. -/
theorem of_feed (h : Accepts m (t :: ts)) (hf : m.feed t = .ok m') : Accepts m' ts := by
  obtain ⟨m₁, hf₁, h⟩ := h.exists_feed
  rw [hf] at hf₁
  cases hf₁
  exact h

/-- What takes all tokens does not stop at the next one. -/
theorem not_error {d : Diagnostic} (h : Accepts m (t :: ts)) (hf : m.feed t = .error d) : False := by
  obtain ⟨m₁, hf₁, _⟩ := h.exists_feed
  rw [hf] at hf₁
  cases hf₁

/-- Where only one kind of token is taken, the token has it. -/
theorem expected {k : Kind} {d : Diagnostic} (h : Accepts m (t :: ts))
    (hf : m.feed t = if t.kind = k then .ok m' else .error d) : t.kind = k ∧ Accepts m' ts := by
  split at hf
  · next hk => exact ⟨hk, h.of_feed hf⟩
  · exact (h.not_error hf).elim

theorem congr (h : Accepts m ts) (he : m.feedAll ts = m'.feedAll ts₁) : Accepts m' ts₁ := by
  rwa [Accepts, he] at h

/-- Another machine that does the same with the next token takes them all too. -/
theorem congr_feed (h : Accepts m (t :: ts)) (he : m.feed t = m'.feed t) : Accepts m' (t :: ts) :=
  h.congr (feedAll_cons_congr he)

/-- A machine that has reported something takes nothing in this sense. -/
theorem diagnostics_eq (h : Accepts m ts) : m.diagnostics = #[] := by
  obtain ⟨m', h, hd⟩ := h
  induction ts generalizing m with
  | nil =>
    cases h
    exact hd
  | cons t ts ih =>
    obtain ⟨m₁, hf, h⟩ := Machine.exists_feed h
    exact (steps_feed m t m₁ hf).diagnostics (ih h)

/-- The machine takes what follows an expression, with the expression in its place. -/
theorem of_expression (h : Accepts (m.set s .operand) ts)
    (hr : Reads [.rbrace] n (.expression p e) ts ts₁) (hs : Holds p s) (hne : ts₁ ≠ []) :
    Accepts (m.set s (.ended e)) ts₁ :=
  h.congr (simulates_of_reads hr hne m s hs)

end Accepts

/-- An expression that the machine takes among at most `n` tokens has a reading. -/
def Advances (n : Nat) : Prop :=
  ∀ {m : Machine} {s : List Pending} {p : Precedence} {ts : List Token}, ts.length ≤ n → p < .call →
    Holds p s → Stream ts → Accepts (m.set s .operand) ts →
    ∃ l e ts', Reads [.rbrace] l (.expression p e) ts ts'

section

variable {n : Nat} {m : Machine} {s : List Pending} {p : Precedence} {left : Code} {t : Token}
  {ts : List Token}

/-- The reading of an expression, and how the machine goes on behind it. -/
theorem Advances.expression (hn : Advances n) (hl : ts.length ≤ n) (hp : p < .call)
    (hs : Holds p s) (hst : Stream ts) (h : Accepts (m.set s .operand) ts) :
    ∃ l e u us, Reads [.rbrace] l (.expression p e) ts (u :: us) ∧
      us.length + 1 < ts.length ∧ Stream (u :: us) ∧ ¬ p < u.kind.precedence ∧
      Accepts (m.set s (.ended e)) (u :: us) := by
  obtain ⟨l, e, ts', hr⟩ := hn hl hp hs hst h
  have hst' := hst.of_consumes hr.consumes
  obtain ⟨u, us, rfl⟩ := hst'.exists_cons
  have hlen : (u :: us).length < ts.length := Takes.length_lt hr.spans
  exact ⟨l, e, u, us, hr, hlen, hst', hr.stopsAt,
    h.of_expression hr hs (List.cons_ne_nil _ _)⟩

/-! ## Lists in parentheses -/

/-- The parameters after a name have a reading up to the parenthesis. -/
theorem exists_moreParameters (k : Nat) {done : List String} (hk : ts.length ≤ k) (hst : Stream ts)
    (h : Accepts (m.set s (.parameter done)) ts) :
    ∃ ps ts', Reads [.rbrace] 0 (.moreParameters ps) ts ts' := by
  induction k generalizing done ts with
  | zero => exact absurd hst.length_pos (Nat.not_lt.2 hk)
  | succ k ih =>
    obtain ⟨u, us, rfl⟩ := hst.exists_cons
    -- The machine goes on at a comma, ends the list at a parenthesis and takes nothing else.
    have hf : (m.set s (.parameter done)).feed u = _ := feed_parameter
    split at hf
    · next hu =>
      have hst := hst.of_cons hu (by decide)
      have h := h.of_feed hf
      obtain ⟨x, xs, rfl⟩ := hst.exists_cons
      have hf : (m.set s (.parameterNext done)).feed x =
        if x.kind = .ident then .ok (m.set s (.parameter (x.literal :: done)))
        else .error (unexpected x) := rfl
      obtain ⟨hx, h⟩ := h.expected hf
      have hlen : xs.length ≤ k := by
        rw [List.length_cons, List.length_cons] at hk
        omega
      obtain ⟨ps, ts', hr⟩ := ih hlen (hst.of_cons hx (by decide)) h
      exact ⟨_, ts', .nextParameter hu hx hr⟩
    · next hu => exact ⟨[], us, .lastParameter hu⟩
    · exact (h.not_error hf).elim

/-- A list of parameters that the machine takes has a reading. -/
theorem exists_parameters (hst : Stream ts) (h : Accepts (m.set s .fnOpen) ts) :
    ∃ ps ts', Reads [.rbrace] 0 (.parameters ps) ts ts' := by
  obtain ⟨o, us, rfl⟩ := hst.exists_cons
  by_cases ho : o.kind = .lparen
  · have h := h.of_feed (feed_fnOpen ho)
    have hst := hst.of_cons ho (by decide)
    obtain ⟨x, xs, rfl⟩ := hst.exists_cons
    -- Behind the parenthesis comes a name or the end of the list.
    have hf : (m.set s .parametersOpen).feed x = _ := feed_parametersOpen
    split at hf
    · next hx =>
      obtain ⟨ps, ts', hr⟩ :=
        exists_moreParameters xs.length (Nat.le_refl _) (hst.of_cons hx (by decide)) (h.of_feed hf)
      exact ⟨_, ts', .parameters ho hx hr⟩
    · next hx => exact ⟨[], xs, .noParameters ho hx⟩
    · exact (h.not_error hf).elim
  · have hf : (m.set s .fnOpen).feed o = .error (unexpected o) := if_neg ho
    exact (h.not_error hf).elim

/-- Two readings one after the other have levels in common. -/
theorem exists_level {g g' : Phrase} {ts ts₁ ts₂ : List Token} {k l : Nat}
    (h : Reads [.rbrace] k g ts ts₁) (h' : Reads [.rbrace] l g' ts₁ ts₂) :
    ∃ j, Reads [.rbrace] j g ts ts₁ ∧ Reads [.rbrace] j g' ts₁ ts₂ :=
  ⟨max k l, h.mono (Nat.le_max_left k l), h'.mono (Nat.le_max_right k l)⟩

/-- The arguments after one have a reading up to the parenthesis. -/
theorem Advances.moreArguments (hn : Advances n) (k : Nat) {f a : Code} {done : List Code}
    (hk : ts.length ≤ k) (hl : ts.length ≤ n) (hst : Stream ts)
    (hp : ¬ .lowest < (nextKind ts).precedence)
    (h : Accepts (m.set (.arguments f done :: s) (.ended a)) ts) :
    ∃ j as ts', Reads [.rbrace] j (.moreArguments as) ts ts' := by
  induction k generalizing done a ts with
  | zero => exact absurd hst.length_pos (Nat.not_lt.2 hk)
  | succ k ih =>
    obtain ⟨u, us, rfl⟩ := hst.exists_cons
    have hf : (m.set (.arguments f done :: s) (.ended a)).feed u = _ := feed_argument hp
    rw [List.length_cons] at hk hl
    split at hf
    -- a comma: one argument, and the others by induction
    · next hu =>
      obtain ⟨l, e, v, vs, hr, hlen, hst', hp', h'⟩ :=
        hn.expression (p := .lowest) (by omega) (by decide) (fun _ _ _ _ => rfl)
          (hst.of_cons hu (by decide)) (h.of_feed hf)
      obtain ⟨l', as, ts', hr'⟩ := ih (by rw [List.length_cons]; omega)
        (by rw [List.length_cons]; omega) hst' hp' h'
      obtain ⟨j, hr, hr'⟩ := exists_level hr hr'
      exact ⟨j, _, ts', .nextArgument hu hr hr'⟩
    -- the parenthesis that closes the list
    · next hu => exact ⟨0, [], us, .lastArgument hu⟩
    -- any other token is refused
    · exact (h.not_error hf).elim

/-- A list of arguments that the machine takes has a reading. -/
theorem Advances.arguments (hn : Advances n) {f : Code} {o : Token} (ho : o.kind = .lparen)
    (hl : ts.length ≤ n) (hst : Stream ts) (h : Accepts (m.set s (.callOpen f)) ts) :
    ∃ j as ts', Reads [.rbrace] j (.arguments as) (o :: ts) ts' := by
  obtain ⟨u, us, rfl⟩ := hst.exists_cons
  by_cases hu : u.kind = .rparen
  · exact ⟨0, [], us, .noArguments ho hu⟩
  -- A token that does not close the list starts the first argument.
  · have hf : (m.set s (.callOpen f)).feed u = (m.set (.arguments f [] :: s) .operand).feed u := by
      show (if u.kind = .rparen then _ else _) = _
      rw [if_neg hu]
      exact operand_set m (.arguments f [] :: s) (.callOpen f) .operand u
    obtain ⟨l, e, v, vs, hr, hlen, hst', hp', h'⟩ :=
      hn.expression (p := .lowest) hl (by decide) (fun _ _ _ _ => rfl) hst (h.congr_feed hf)
    obtain ⟨l', as, ts', hr'⟩ :=
      hn.moreArguments (v :: vs).length (Nat.le_refl _) (by rw [List.length_cons]; omega) hst' hp' h'
    obtain ⟨j, hr, hr'⟩ := exists_level hr hr'
    exact ⟨j, _, ts', .arguments ho hr hr'⟩

/-! ## Statements -/

/-- What the machine takes after a `let` is a let statement. -/
theorem Advances.letStatement (hn : Advances n) (hl : ts.length ≤ n) (hst : Stream ts)
    (ht : t.kind = .kwLet) (h : Accepts (m.set s .letName) ts) :
    ∃ j st ts', Reads [.rbrace] j (.statement st) (t :: ts) ts' := by
  obtain ⟨x, us, rfl⟩ := hst.exists_cons
  have hf : (m.set s .letName).feed x =
    if x.kind = .ident then .ok (m.set s (.letAssign x.literal)) else .error (unexpected x) := rfl
  obtain ⟨hx, h⟩ := h.expected hf
  have hst := hst.of_cons hx (by decide)
  obtain ⟨a, us, rfl⟩ := hst.exists_cons
  have hf : (m.set s (.letAssign x.literal)).feed a =
    if a.kind = .assign then .ok (m.set (.letValue x.literal :: s) .operand)
    else .error (unexpected a) := rfl
  obtain ⟨ha, h⟩ := h.expected hf
  rw [List.length_cons, List.length_cons] at hl
  obtain ⟨j, e, v, vs, hr, -, -, -, -⟩ :=
    hn.expression (p := .lowest) (by omega) (by decide) (fun _ _ _ _ => rfl)
      (hst.of_cons ha (by decide)) h
  exact ⟨j, _, _, .letStatement ht hx ha hr⟩

/-- After a `return` comes an expression, or what ends the statement. A `let` or a `return` would be
taken too, but does not follow. -/
theorem Advances.returnStatement (hn : Advances n) (hl : ts.length ≤ n) (hst : Stream (t :: ts))
    (ht : t.kind = .kwReturn) (h : Accepts (m.set s .returned) ts) :
    ∃ j st ts', Reads [.rbrace] j (.statement st) (t :: ts) ts' := by
  have hst' := hst.of_cons ht (by decide)
  obtain ⟨u, us, rfl⟩ := hst'.exists_cons
  by_cases hu : u.kind.startsOperand = true
  · have hf : (m.set s .returned).feed u = (m.set (.returnValue :: s) .operand).feed u := by
      show (if u.kind.startsOperand = true then _ else _) = _
      rw [if_pos hu]
      exact operand_set m (.returnValue :: s) .returned .operand u
    obtain ⟨j, e, v, vs, hr, -, -, -, -⟩ :=
      hn.expression (p := .lowest) hl (by decide) (fun _ _ _ _ => rfl) hst' (h.congr_feed hf)
    exact ⟨j, _, _, .returnStatement ht hr⟩
  · obtain ⟨hlet, hret⟩ := hst.apart.1 ht
    obtain ⟨m', hf, -⟩ := h.exists_feed
    have hk : nextKind (u :: us) ∈ [.semicolon, .rbrace, .eof] := by
      rw [nextKind_cons] at hlet hret ⊢
      by_cases he : u.kind = .eof
      · rw [he]
        decide
      · -- what is taken here and begins no statement ends this one
        have ha : Mode.returned.accepts u.kind = true := (steps_feed _ u m' hf).allowed he
        revert hu hlet hret ha
        cases u.kind <;> decide
    exact ⟨0, _, _, .bareReturn ht hk⟩

/-- What the machine takes where a statement can start is one of the three statements. -/
theorem Advances.statement (hn : Advances n) (hl : (t :: ts).length ≤ n) (hst : Stream (t :: ts))
    (hk : t.kind ∉ [.rbrace, .eof]) (h : Accepts (m.set s .statement) (t :: ts)) :
    ∃ j st ts', Reads [.rbrace] j (.statement st) (t :: ts) ts' := by
  have hl' : ts.length ≤ n := by
    rw [List.length_cons] at hl
    omega
  by_cases hlet : t.kind = .kwLet
  · have hf : (m.set s .statement).feed t = .ok (m.set s .letName) := by
      show (m.set s .statement).statement t = _
      rw [Machine.statement, hlet]
      rfl
    exact hn.letStatement hl' (hst.of_cons hlet (by decide)) hlet (h.of_feed hf)
  · by_cases hret : t.kind = .kwReturn
    · exact hn.returnStatement hl' hst hret (h.of_feed (feed_return hret))
    -- all other tokens begin an expression
    · have hf : (m.set s .statement).feed t = (m.set (.statementValue :: s) .operand).feed t := by
        show (m.set s .statement).statement t = _
        rw [Machine.statement]
        split
        · contradiction
        · contradiction
        · next hb => rw [hb] at hk; exact absurd (by decide) hk
        · next he => rw [he] at hk; exact absurd (by decide) hk
        · exact operand_set m (.statementValue :: s) .statement .operand t
      obtain ⟨j, e, v, vs, hr, -, -, -, -⟩ :=
        hn.expression (p := .lowest) hl (by decide) (fun _ _ _ _ => rfl) hst (h.congr_feed hf)
      exact ⟨j, _, _, .expressionStatement hr⟩

/-- Statements go on up to a closing brace or the end of the text. -/
theorem Advances.statements (hn : Advances n) (k : Nat) (hk : ts.length ≤ k) (hl : ts.length ≤ n)
    (hst : Stream ts) (h : Accepts (m.set s .statement) ts) :
    ∃ j ss ts', Reads [.rbrace] j (.statements ss) ts ts' ∧ nextKind ts' ∈ [.rbrace, .eof] := by
  induction k generalizing m s ts with
  | zero => exact absurd hst.length_pos (Nat.not_lt.2 hk)
  | succ k ih =>
    obtain ⟨t, us, rfl⟩ := hst.exists_cons
    by_cases ht : t.kind ∈ [.rbrace, .eof]
    · exact ⟨0, [], t :: us, .noStatements, ht⟩
    · obtain ⟨j, st, ts₁, hr⟩ := hn.statement hl hst ht h
      have hlen : ts₁.length < (t :: us).length := Takes.length_lt hr.spans
      have hst₁ := hst.of_consumes hr.consumes
      -- Behind the statement the machine is again where a statement can start.
      have h₁ := h.congr (simulates_of_reads hr hst₁.ended.ne_nil m s)
      obtain ⟨m', s', he⟩ := set_endStatement m s st
      rw [he] at h₁
      obtain ⟨l, ss, ts₂, hr', hk'⟩ := ih (by omega) (by omega) hst₁ h₁
      obtain ⟨i, hr, hr'⟩ := exists_level hr hr'
      exact ⟨i, st :: ss, ts₂, .statements hr hr', hk'⟩

/-- What the machine takes where a block must start is a block. -/
theorem Advances.block (hn : Advances n) (role : BlockRole) (hl : ts.length ≤ n) (hst : Stream ts)
    (h : Accepts (m.set s role.opening) ts) :
    ∃ j b ts', Reads [.rbrace] j (.block b) ts ts' := by
  obtain ⟨o, us, rfl⟩ := hst.exists_cons
  by_cases ho : o.kind = .lbrace
  · rw [List.length_cons] at hl
    have h := h.of_feed (feed_opening ho)
    have hst := hst.of_cons ho (by decide)
    obtain ⟨j, ss, ts', hr, hk⟩ := hn.statements us.length (Nat.le_refl _) (by omega) hst h
    have hst' := hst.of_consumes hr.consumes
    obtain ⟨u, vs, rfl⟩ := hst'.exists_cons
    -- The end of the text would leave the block open.
    have hu : u.kind = .rbrace := by
      refine (List.mem_cons.1 hk).resolve_right fun he => ?_
      have he : u.kind = .eof := List.mem_singleton.1 he
      have h' := h.congr (simulates_of_reads hr hst'.ended.ne_nil m _)
      rw [foldl_endStatement_block] at h'
      refine h'.not_error (d := .unexpectedEnd) ?_
      show Machine.statement _ u = _
      rw [Machine.statement, he]
      rfl
    exact ⟨j, _, _, .block ho hr (List.mem_singleton.2 hu)⟩
  · refine (h.not_error (d := unexpected o) ?_).elim
    cases role <;> exact if_neg ho

/-! ## Expressions -/

/-- What the machine takes after an `if` is a conditional of one of the two forms. -/
theorem Advances.conditional (hn : Advances n) (hl : ts.length ≤ n) (hst : Stream ts)
    (ht : t.kind = .kwIf) (h : Accepts (m.set s .ifOpen) ts) :
    ∃ j e ts', Reads [.rbrace] j (.operand e) (t :: ts) ts' := by
  -- the condition, in its parentheses
  obtain ⟨o, us, rfl⟩ := hst.exists_cons
  have hf : (m.set s .ifOpen).feed o =
    if o.kind = .lparen then .ok (m.set (.condition :: s) .operand) else .error (unexpected o) := rfl
  obtain ⟨ho, h⟩ := h.expected hf
  rw [List.length_cons] at hl
  obtain ⟨j, c, u, us, hr, hlen, hst, hp, h⟩ :=
    hn.expression (p := .lowest) (by omega) (by decide) (fun _ _ _ _ => rfl)
      (hst.of_cons ho (by decide)) h
  have hf : (m.set (.condition :: s) (.ended c)).feed u =
    if u.kind = .rparen then .ok (m.set s (.conditionClosed c)) else .error (unexpected u) :=
    feed_ended hp
  obtain ⟨hu, h⟩ := h.expected hf
  -- the block, and the state of the machine behind it
  have hst := hst.of_cons hu (by decide)
  obtain ⟨k, b, ts₁, hb⟩ := hn.block (.consequence c) (by omega) hst h
  have hlen₁ := Takes.length_lt hb.spans
  have hst₁ := hst.of_consumes hb.consumes
  have h₁ := h.congr (simulates_of_reads hb hst₁.ended.ne_nil m s (.consequence c))
  obtain ⟨l, vs, rfl⟩ := hst₁.exists_cons
  by_cases he : l.kind = .kwElse
  · have hf : (m.set s (.consequence c b)).feed l = .ok (m.set s (.elseOpen c b)) := if_pos he
    rw [List.length_cons] at hlen₁
    obtain ⟨k', b', ts₂, hb'⟩ :=
      hn.block (.alternative c b) (by omega) (hst₁.of_cons he (by decide)) (h₁.of_feed hf)
    have hj : j ≤ max j (max k k') := by omega
    have hk : k ≤ max j (max k k') := by omega
    have hk' : k' ≤ max j (max k k') := by omega
    exact ⟨_, _, ts₂, .alternative ht ho (hr.mono hj) hu (hb.mono hk) he (hb'.mono hk')⟩
  · have hj : j ≤ max j k := by omega
    have hk : k ≤ max j k := by omega
    exact ⟨_, _, _, .conditional ht ho (hr.mono hj) hu (hb.mono hk) he⟩

/-- What the machine takes after an `fn` is a function literal. -/
theorem Advances.function (hn : Advances n) (hl : ts.length ≤ n) (hst : Stream ts)
    (ht : t.kind = .kwFn) (h : Accepts (m.set s .fnOpen) ts) :
    ∃ j e ts', Reads [.rbrace] j (.operand e) (t :: ts) ts' := by
  obtain ⟨ps, ts₁, hr⟩ := exists_parameters hst h
  have hlen := Takes.length_lt hr.spans
  have hst₁ := hst.of_consumes hr.consumes
  have h₁ := h.congr (simulates_of_reads hr hst₁.ended.ne_nil m s)
  obtain ⟨k, b, ts₂, hb⟩ := hn.block (.body ps) (by omega) hst₁ h₁
  exact ⟨k, _, ts₂, .function ht (hr.mono (Nat.zero_le k)) hb⟩

/-- What the machine takes where an operand must start is an operand. -/
theorem Advances.operand (hn : Advances n) (hl : ts.length ≤ n) (hst : Stream (t :: ts))
    (h : Accepts (m.set s .operand) (t :: ts)) :
    ∃ j e ts', Reads [.rbrace] j (.operand e) (t :: ts) ts' := by
  have hf : (m.set s .operand).feed t = (m.set s .operand).operand t := rfl
  rw [Machine.operand] at hf
  split at hf
  · next hk => exact ⟨0, _, ts, .identifier hk⟩
  · next hk =>
    split at hf
    · next v hv => exact ⟨0, _, ts, .integer hk hv⟩
    -- a literal out of range is reported, and nothing is to be reported
    · exact absurd (h.of_feed hf).diagnostics_eq Array.push_ne_empty
  · next hk => exact ⟨0, _, ts, .string hk⟩
  · next hk => exact ⟨0, _, ts, .truth hk⟩
  · next hk => exact ⟨0, _, ts, .falsity hk⟩
  · next hk =>
    obtain ⟨j, e, v, vs, hr, -, -, -, -⟩ := hn.expression (p := .unary) hl (by decide)
      (Holds.unary _) (hst.of_cons hk (by decide)) (h.of_feed hf)
    exact ⟨j, _, _, .prefixed (.inl hk) hr⟩
  · next hk =>
    obtain ⟨j, e, v, vs, hr, -, -, -, -⟩ := hn.expression (p := .unary) hl (by decide)
      (Holds.unary _) (hst.of_cons hk (by decide)) (h.of_feed hf)
    exact ⟨j, _, _, .prefixed (.inr hk) hr⟩
  · next hk =>
    obtain ⟨j, e, u, us, hr, -, -, hp, h⟩ :=
      hn.expression (s := .group :: s) (p := .lowest) hl (by decide) (fun _ _ _ _ => rfl)
        (hst.of_cons hk (by decide)) (h.of_feed hf)
    have hf : (m.set (.group :: s) (.ended e)).feed u =
      if u.kind = .rparen then .ok (m.set s (.ended e)) else .error (unexpected u) := feed_ended hp
    exact ⟨j, e, us, .group hk hr (h.expected hf).1⟩
  · next hk => exact hn.conditional hl (hst.of_cons hk (by decide)) hk (h.of_feed hf)
  · next hk => exact hn.function hl (hst.of_cons hk (by decide)) hk (h.of_feed hf)
  · exact (h.not_error hf).elim

/-- An operand goes on as long as the next token binds it tighter. -/
theorem Advances.operations (hn : Advances n) (k : Nat) (hk : ts.length ≤ k) (hl : ts.length ≤ n)
    (hp : p < .call) (hs : Holds p s) (hst : Stream ts) (h : Accepts (m.set s (.ended left)) ts) :
    ∃ j e ts', Reads [.rbrace] j (.operations p left e) ts ts' := by
  induction k generalizing left ts with
  | zero => exact absurd hst.length_pos (Nat.not_lt.2 hk)
  | succ k ih =>
    obtain ⟨t, us, rfl⟩ := hst.exists_cons
    rw [List.length_cons] at hk hl
    by_cases ht : p < t.kind.precedence
    · by_cases hc : t.kind = .lparen
      · obtain ⟨i, as, ts₁, hr⟩ :=
          hn.arguments hc (by omega) (hst.of_cons hc (by decide)) (h.of_feed (feed_callOpen hc))
        have hlen := Takes.length_lt hr.spans
        have hst₁ := hst.of_consumes hr.consumes
        -- A call is an operand again: the machine stands behind it as behind a name.
        have h₁ := h.congr (simulates_of_reads hr hst₁.ended.ne_nil m s left)
        rw [List.length_cons] at hlen
        obtain ⟨l, e, ts₂, hr'⟩ := ih (by omega) (by omega) hst₁ h₁
        obtain ⟨j, hr, hr'⟩ := exists_level hr hr'
        exact ⟨j, e, ts₂, .call hc hp hr hr'⟩
      · obtain ⟨i, e, v, vs, hr, hlen, hst₁, hq, h₁⟩ := hn.expression (by omega) (lt_call hc)
          (Holds.infixed left t.literal _ s)
          (hst.of_consumes (.one rfl (Kind.not_mem_of_lt_precedence ht)))
          (h.of_feed (feed_operator hc ht hs))
        -- The operator is put together once its right operand has ended.
        have h₂ := h₁.congr (feedAll_infixed (lt_call hc) hq (List.cons_ne_nil _ _))
        obtain ⟨l, e, ts₂, hr'⟩ := ih (by rw [List.length_cons]; omega)
          (by rw [List.length_cons]; omega) hst₁ h₂
        obtain ⟨j, hr, hr'⟩ := exists_level hr hr'
        exact ⟨j, e, ts₂, .infixed hc ht hr hr'⟩
    · exact ⟨0, left, _, .stop ht⟩

/-- Expressions with one token more are read by those with fewer. -/
theorem Advances.succ (hn : Advances n) : Advances (n + 1) := by
  intro m s p ts hl hp hs hst h
  obtain ⟨t, us, rfl⟩ := hst.exists_cons
  rw [List.length_cons] at hl
  obtain ⟨j, left, ts₁, hr⟩ := hn.operand (by omega) hst h
  -- The operand takes a token, so the expressions among the rest have fewer.
  have hlen := Takes.length_lt hr.spans
  have hst₁ := hst.of_consumes hr.consumes
  have h₁ := h.congr (simulates_of_reads hr hst₁.ended.ne_nil m s)
  rw [List.length_cons] at hlen
  obtain ⟨l, e, ts₂, hr'⟩ :=
    hn.operations ts₁.length (Nat.le_refl _) (by omega) hp hs hst₁ h₁
  obtain ⟨i, hr, hr'⟩ := exists_level hr hr'
  exact ⟨i + 1, e, ts₂, .expression hr hr'⟩

/-- Expressions among any number of tokens have a reading. -/
theorem advances (n : Nat) : Advances n := by
  induction n with
  | zero =>
    intro m s p ts hl _ _ hst _
    exact absurd hst.length_pos (Nat.not_lt.2 hl)
  | succ n ih => exact ih.succ

end

/-- What the machine takes up to the end of a text is a reading of it. -/
theorem reads_of_accepts {tokens : List Token} (hst : Stream tokens) (h : Accepts {} tokens) :
    ∃ n ss t, Reads [.rbrace] n (.statements ss) tokens [t] ∧ t.kind = .eof := by
  obtain ⟨j, ss, ts', hr, hk⟩ := Advances.statements (m := {}) (s := []) (advances tokens.length)
    tokens.length (Nat.le_refl _) (Nat.le_refl _) hst h
  have hst' := hst.of_consumes hr.consumes
  obtain ⟨t, us, rfl⟩ := hst'.exists_cons
  -- Outside of a block there is no brace to close.
  have ht : t.kind = .eof := by
    rcases List.mem_cons.1 hk with hb | he
    · have hb : t.kind = .rbrace := hb
      have h' := h.congr (simulates_of_reads hr hst'.ended.ne_nil {} [])
      rw [foldl_endStatement_program] at h'
      refine (h'.not_error (d := unexpected t) ?_).elim
      show Machine.statement _ t = _
      rw [Machine.statement, hb]
      rfl
    · exact List.mem_singleton.1 he
  rw [hst'.ended.eq_nil ht] at hr
  exact ⟨j, ss, t, hr, ht⟩

end MonkeyLang.Grammar
