import MonkeyLang.Proofs.Syntax.Transfer
import MonkeyLang.Proofs.Syntax.Completeness
import MonkeyLang.Proofs.Syntax.Printed

/-!
# Reading the minimal text of a program

Reading by precedence gives every proper program back from its text with as few parentheses as
possible: `parse_minimalText`.

The induction is on the tree. An expression cannot be treated alone, since what follows it may
belong to it: the loop that reads `a - b` goes on behind `a`, and a call behind `f` belongs to the
innermost expression. So the statement for an expression `e` (`ReadsBack`) leaves open how the
loop goes on after `e`: whatever the loop at precedence `p` makes of `e` and the tokens after it is
what reading at `p` makes of the lexemes of `e` and these tokens.
-/

namespace MonkeyLang

open Lexeme

/-! ## Tokens that spell lexemes -/

/-- The tokens `ts` start with the lexemes `xs` and go on with `ts'`. -/
def Spells (ts : List Token) (xs : List Lexeme) (ts' : List Token) : Prop :=
  ∃ us, ts = us ++ ts' ∧ us.map Token.lexeme = xs

namespace Spells

variable {ts ts' : List Token} {x : Lexeme} {xs ys : List Lexeme}

theorem eq_of_nil (h : Spells ts [] ts') : ts = ts' := by
  obtain ⟨us, rfl, hu⟩ := h
  rw [List.map_eq_nil_iff.1 hu]
  rfl

theorem exists_cons (h : Spells ts (x :: xs) ts') :
    ∃ t us, ts = t :: us ∧ t.kind = x.kind ∧ t.literal = x.literal ∧ Spells us xs ts' := by
  obtain ⟨us, rfl, hu⟩ := h
  obtain ⟨t, us, rfl, rfl, rfl⟩ := List.map_eq_cons_iff.1 hu
  exact ⟨t, us ++ ts', rfl, rfl, rfl, us, rfl, rfl⟩

/-- Tokens that spell two parts are cut where the first part ends. -/
theorem exists_append (h : Spells ts (xs ++ ys) ts') :
    ∃ tm, Spells ts xs tm ∧ Spells tm ys ts' := by
  obtain ⟨us, rfl, hu⟩ := h
  obtain ⟨us, vs, rfl, rfl, rfl⟩ := List.map_eq_append_iff.1 hu
  exact ⟨vs ++ ts', ⟨us, List.append_assoc .., rfl⟩, vs, rfl, rfl⟩

theorem exists_singleton (h : Spells ts [x] ts') :
    ∃ t, ts = t :: ts' ∧ t.kind = x.kind ∧ t.literal = x.literal := by
  obtain ⟨t, us, rfl, hk, hl, hu⟩ := h.exists_cons
  exact ⟨t, by rw [hu.eq_of_nil], hk, hl⟩

end Spells

/-! ## Precedences -/

namespace Precedence

variable {p q : Precedence}

theorem eq_of_rank (h : p.rank = q.rank) : p = q := by
  cases p <;> cases q <;> first | rfl | (exact absurd h (by decide))

/-- Precedences are in a line. -/
theorem lt_or_eq_of_not_lt (h : ¬ q < p) : p < q ∨ q = p := by
  rw [lt_iff] at h
  by_cases he : q.rank = p.rank
  · exact .inr (eq_of_rank he)
  · exact .inl (lt_iff.2 (by omega))

end Precedence

/-- Infix operators bind tighter than nothing and less tightly than prefix operators. -/
theorem lt_infixPrecedence {o : String} {k : Kind} (h : infixKind? o = some k) :
    .lowest < infixPrecedence o ∧ infixPrecedence o < .unary := by
  unfold infixKind? at h
  split at h
  case h_9 => cases h
  all_goals decide

/-- An infix operator is no parenthesis, which would start a call. -/
theorem infixOperator_kind_ne {o : String} {k : Kind} (h : infixKind? o = some k) :
    (infixOperator o).kind ≠ .lparen := by
  intro hk
  have hup := (lt_infixPrecedence h).2
  rw [infixPrecedence, hk] at hup
  exact absurd hup (by decide)

/-- A prefix operator is one of two kinds of token. -/
theorem prefixOperator_kind {o : String} {k : Kind} (h : prefixKind? o = some k) :
    (prefixOperator o).kind = .bang ∨ (prefixOperator o).kind = .minus := by
  unfold prefixKind? at h
  split at h
  · exact .inl rfl
  · exact .inr rfl
  · cases h

namespace Tree

mutual

/-- How deep expressions nest inside the outermost expressions of a tree as its lexemes write it.
The left operand of an operator is no deeper than the whole, unless it is in parentheses. -/
def depth : Code → Nat
  | .missing | .identifier _ | .integer _ | .string _ | .boolean _ => 0
  | .program ss | .block ss => depthEach ss
  | .letStatement _ e | .returnStatement e | .expressionStatement e => e.depth
  | .prefixed _ e => e.depth + (decide (e.tightness < .unary)).toNat + 1
  | .infixed l o r =>
    max (l.depth + (decide (l.tightness < infixPrecedence o)).toNat)
      (r.depth + (decide (¬ infixPrecedence o < r.tightness)).toNat + 1)
  | .conditional c b e => max c.depth (max b.depth e.depth) + 1
  | .function _ b => b.depth + 1
  | .call f as => max (f.depth + (decide (f.tightness < .call)).toNat) (depthEach as + 1)
termination_by structural t => t

def depthEach : List Code → Nat
  | [] => 0
  | t :: ts => max t.depth (depthEach ts)
termination_by structural ts => ts

end

/-- Each of some trees is no deeper than the deepest. -/
theorem depth_le_depthEach {t : Code} {ts : List Code} (h : t ∈ ts) : t.depth ≤ depthEach ts := by
  induction ts with
  | nil => cases h
  | cons s ts ih =>
    rw [depthEach]
    rcases List.mem_cons.1 h with rfl | h
    · exact Nat.le_max_left ..
    · exact Nat.le_trans (ih h) (Nat.le_max_right ..)

end Tree

/-! ## Expressions -/

/-- The lexemes of `e` are read as `e`, and reading goes on from there as the loop does. The tokens
after them do not bind tighter than `e` holds together, and no `else` is among them. -/
structure ReadsBack (e : Code) : Prop where
  lowest_lt : .lowest < e.tightness
  reads : ∀ {n : Nat} {p : Precedence} {e' : Code} {ts ts₁ ts₂ : List Token},
    e.depth ≤ n → p < .call → p < e.tightness ∨ e.tightness = .unary → Spells ts e.lexemes ts₁ →
    ¬ e.tightness < (nextKind ts₁).precedence → nextKind ts₁ ≠ .kwElse →
    Reads [.rbrace] n (.operations p e e') ts₁ ts₂ →
    Reads [.rbrace] (n + 1) (.expression p e') ts ts₂

namespace ReadsBack

variable {n : Nat} {p : Precedence} {e e' : Code} {k : Kind} {ts ts₁ ts₂ : List Token}

/-- An expression that is one operand. -/
theorem of_operand (hl : .lowest < e.tightness)
    (h : ∀ {n : Nat} {ts ts₁ : List Token}, e.depth ≤ n → Spells ts e.lexemes ts₁ →
      ¬ e.tightness < (nextKind ts₁).precedence → nextKind ts₁ ≠ .kwElse →
      Reads [.rbrace] n (.operand e) ts ts₁) : ReadsBack e :=
  ⟨hl, fun hd _ _ hs hn he ho => .expression (h hd hs hn he) ho⟩

/-- An expression up to a token that no expression goes on with. -/
theorem whole (h : ReadsBack e) (hd : e.depth < n) (hs : Spells ts e.lexemes ts₁)
    (hk : nextKind ts₁ = k) (hp : k.precedence = .lowest) (he : k ≠ .kwElse) :
    Reads [.rbrace] n (.expression .lowest e) ts ts₁ := by
  obtain ⟨n, rfl⟩ : ∃ m, n = m + 1 := ⟨n - 1, by omega⟩
  have hstop : ¬ .lowest < (nextKind ts₁).precedence := by
    rw [hk, hp]
    decide
  -- No token binds less tightly than the lowest precedence, so an expression stops before it
  -- however loosely it holds together.
  have hloose : ¬ e.tightness < (nextKind ts₁).precedence := by
    have hl := h.lowest_lt
    rw [hk, hp]
    rw [Precedence.lt_iff] at hl ⊢
    omega
  exact h.reads (by omega) (by decide) (.inl h.lowest_lt) hs hloose (hk ▸ he) (.stop hstop)

/-- An expression that stands in parentheses where these are needed. -/
theorem enclosed {needed : Bool} (h : ReadsBack e) (hd : e.depth + needed.toNat ≤ n)
    (hp : p < .call)
    (hn : needed = false →
      (p < e.tightness ∨ e.tightness = .unary) ∧ ¬ e.tightness < (nextKind ts₁).precedence)
    (hs : Spells ts (enclose needed e.lexemes) ts₁) (he : nextKind ts₁ ≠ .kwElse)
    (ho : Reads [.rbrace] n (.operations p e e') ts₁ ts₂) :
    Reads [.rbrace] (n + 1) (.expression p e') ts ts₂ := by
  cases needed with
  | false =>
    obtain ⟨hp', hn⟩ := hn rfl
    exact h.reads hd hp hp' hs hn he ho
  -- Parentheses make an operand of the expression, which then takes a level of its own.
  | true =>
    obtain ⟨o, us, rfl, hok, -, hs⟩ := Spells.exists_cons hs
    obtain ⟨tm, hs, hc⟩ := hs.exists_append
    obtain ⟨c, rfl, hck, -⟩ := hc.exists_singleton
    have hd : e.depth + 1 ≤ n := hd
    exact .expression (.group hok (h.whole hd hs hck rfl (by decide)) hck) ho

/-! ### Operations -/

/-- The operand of a prefix operator is in parentheses unless it holds together as tightly. -/
theorem prefixed {o : String} (hk : prefixKind? o = some k) (h : ReadsBack e) :
    ReadsBack (.prefixed o e) := by
  refine of_operand (show Precedence.lowest < .unary by decide) fun {n ts ts₁} hd hs hn he => ?_
  obtain ⟨t, us, rfl, htk, htl, hs⟩ := Spells.exists_cons hs
  have hd : e.depth + (decide (e.tightness < .unary)).toNat + 1 ≤ n := hd
  obtain ⟨n, rfl⟩ : ∃ m, n = m + 1 := ⟨n - 1, by omega⟩
  have hn : ¬ .unary < (nextKind ts₁).precedence := hn
  -- What stops the whole stops the operand, since a prefix operator is as tight as its operand is
  -- read.
  have hr : Reads [.rbrace] (n + 1) (.expression .unary e) us ts₁ := by
    refine h.enclosed (by omega) (by decide) (fun hf => ?_) hs he (.stop hn)
    have hf : ¬ e.tightness < .unary := of_decide_eq_false hf
    refine ⟨Precedence.lt_or_eq_of_not_lt hf, ?_⟩
    rw [Precedence.lt_iff] at hf hn ⊢
    omega
  have hk' : t.kind = .bang ∨ t.kind = .minus := htk ▸ prefixOperator_kind hk
  have ho : t.literal = o := htl
  exact ho ▸ .prefixed hk' hr

/-- The operands of an infix operator: the left one is read by the loop that goes on with the
operator, the right one by a loop of its own that stops at what follows. -/
theorem infixed {o : String} {l r : Code} (hk : infixKind? o = some k) (hl : ReadsBack l)
    (hr : ReadsBack r) : ReadsBack (.infixed l o r) := by
  obtain ⟨hlow, hup⟩ := lt_infixPrecedence hk
  refine ⟨hlow, fun {n p e' ts ts₁ ts₂} hd hp hp' hs hn he ho => ?_⟩
  obtain ⟨tm, hsl, hs⟩ := Spells.exists_append hs
  obtain ⟨t, us, rfl, htk, htl, hsr⟩ := hs.exists_cons
  have hd : max (l.depth + (decide (l.tightness < infixPrecedence o)).toNat)
      (r.depth + (decide (¬ infixPrecedence o < r.tightness)).toNat + 1) ≤ n := hd
  have hn : ¬ infixPrecedence o < (nextKind ts₁).precedence := hn
  have htp : t.kind.precedence = infixPrecedence o := congrArg Kind.precedence htk
  have htk' : t.kind ≠ .lparen := htk ▸ infixOperator_kind_ne hk
  have hpo : p < infixPrecedence o := by
    refine hp'.resolve_right fun hu => ?_
    have hu : infixPrecedence o = .unary := hu
    rw [hu] at hup
    exact absurd hup (by decide)
  -- The right operand stops where the whole does.
  have hright : Reads [.rbrace] n (.expression t.kind.precedence r) us ts₁ := by
    obtain ⟨n, rfl⟩ : ∃ m, n = m + 1 := ⟨n - 1, by omega⟩
    rw [htp]
    refine hr.enclosed (by omega) ?_ (fun hf => ?_) hsr he (.stop hn)
    · rw [Precedence.lt_iff] at hup ⊢
      exact Nat.lt_trans hup (by decide)
    · have hf : infixPrecedence o < r.tightness := Decidable.not_not.1 (of_decide_eq_false hf)
      refine ⟨.inl hf, ?_⟩
      rw [Precedence.lt_iff] at hf hn ⊢
      omega
  have hto : t.literal = o := htl
  have hloop : Reads [.rbrace] n (.operations p l e') (t :: us) ts₂ := by
    refine .infixed htk' (htp ▸ hpo) hright ?_
    rwa [hto]
  -- The left operand stops at the operator, which starts no `else`.
  refine hl.enclosed (by omega) hp (fun hf => ?_) hsl ?_ hloop
  · have hf : ¬ l.tightness < infixPrecedence o := of_decide_eq_false hf
    rw [nextKind_cons, htp]
    refine ⟨.inl ?_, hf⟩
    rw [Precedence.lt_iff] at hf hpo ⊢
    omega
  · intro hc
    rw [nextKind_cons] at hc
    rw [hc] at htp
    rw [← htp] at hlow
    exact absurd hlow (by decide)

/-! ### Lists in parentheses -/

/-- An argument is followed by a comma or a parenthesis, which no expression goes on with. -/
theorem nextKind_of_following {elements : List (List Lexeme)}
    (hs : Spells ts (following elements) ts₁) :
    ∃ k, nextKind ts = k ∧ k.precedence = .lowest ∧ k ≠ .kwElse := by
  cases elements with
  | nil =>
    obtain ⟨c, rfl, hc, -⟩ := Spells.exists_singleton hs
    exact ⟨.rparen, hc, rfl, by decide⟩
  | cons xs elements =>
    obtain ⟨c, us, rfl, hc, -, -⟩ := Spells.exists_cons hs
    exact ⟨.comma, hc, rfl, by decide⟩

/-- The arguments after the first, whichever lexemes an argument is written with. -/
theorem moreArguments {lexemes : Code → List Lexeme} {as : List Code}
    (ih : ∀ a ∈ as, ∀ {ts ts₁ : List Token} {k : Kind}, Spells ts (lexemes a) ts₁ →
      nextKind ts₁ = k → k.precedence = .lowest → k ≠ .kwElse →
      Reads [.rbrace] n (.expression .lowest a) ts ts₁)
    (hs : Spells ts (following (as.map lexemes)) ts₁) :
    Reads [.rbrace] n (.moreArguments as) ts ts₁ := by
  induction as generalizing ts with
  | nil =>
    obtain ⟨c, rfl, hc, -⟩ := Spells.exists_singleton hs
    exact .lastArgument hc
  | cons a as ih' =>
    obtain ⟨iha, ihas⟩ := List.forall_mem_cons.1 ih
    obtain ⟨c, us, rfl, hc, -, hs⟩ := Spells.exists_cons hs
    obtain ⟨tm, hsa, hs⟩ := hs.exists_append
    obtain ⟨k, hk, hp, he⟩ := nextKind_of_following hs
    exact .nextArgument hc (iha hsa hk hp he) (ih' ihas hs)

/-- A list of arguments, whichever lexemes an argument is written with. -/
theorem arguments {lexemes : Code → List Lexeme} {as : List Code}
    (ih : ∀ a ∈ as, ∀ {ts ts₁ : List Token} {k : Kind}, Spells ts (lexemes a) ts₁ →
      nextKind ts₁ = k → k.precedence = .lowest → k ≠ .kwElse →
      Reads [.rbrace] n (.expression .lowest a) ts ts₁)
    (hs : Spells ts (listed (as.map lexemes)) ts₁) :
    Reads [.rbrace] n (.arguments as) ts ts₁ := by
  cases as with
  | nil =>
    obtain ⟨o, us, rfl, ho, -, hs⟩ := Spells.exists_cons hs
    obtain ⟨c, rfl, hc, -⟩ := hs.exists_singleton
    exact .noArguments ho hc
  | cons a as =>
    obtain ⟨iha, ihas⟩ := List.forall_mem_cons.1 ih
    obtain ⟨o, us, rfl, ho, -, hs⟩ := Spells.exists_cons hs
    obtain ⟨tm, hsa, hs⟩ := hs.exists_append
    obtain ⟨k, hk, hp, he⟩ := nextKind_of_following hs
    exact .arguments ho (iha hsa hk hp he) (moreArguments ihas hs)

/-- What is called is in parentheses unless it holds together as tightly as a call. -/
theorem call {f : Code} {as : List Code} (hf : ReadsBack f) (ih : ∀ a ∈ as, ReadsBack a) :
    ReadsBack (.call f as) := by
  refine ⟨show Precedence.lowest < .call by decide, fun {n p e' ts ts₁ ts₂} hd hp _ hs _ _ ho => ?_⟩
  obtain ⟨tm, hsf, hs⟩ := Spells.exists_append hs
  have hd : max (f.depth + (decide (f.tightness < .call)).toNat) (Tree.depthEach as + 1) ≤ n := hd
  rw [Tree.lexemesEach_eq_map] at hs
  have has : Reads [.rbrace] n (.arguments as) tm ts₁ := by
    refine arguments (fun a ha _ _ _ hsa => (ih a ha).whole ?_ hsa) hs
    have := Tree.depth_le_depthEach ha
    omega
  -- The arguments start with the parenthesis that makes what stands before them the callee.
  have hn : nextKind tm = .lparen := has.startsWith
  refine hf.enclosed (by omega) hp (fun hc => ?_) hsf ?_ (has.calls hp ho)
  · have hc : ¬ f.tightness < .call := of_decide_eq_false hc
    rw [hn]
    refine ⟨.inl ?_, hc⟩
    rw [Precedence.lt_iff] at hc hp ⊢
    omega
  · rw [hn]
    decide

/-- The parameters after the first. -/
theorem moreParameters {ps : List String}
    (hs : Spells ts (following (ps.map fun x => [⟨.ident, x⟩])) ts₁) :
    Reads [.rbrace] n (.moreParameters ps) ts ts₁ := by
  induction ps generalizing ts with
  | nil =>
    obtain ⟨c, rfl, hc, -⟩ := Spells.exists_singleton hs
    exact .lastParameter hc
  | cons x ps ih =>
    obtain ⟨c, us, rfl, hc, -, hs⟩ := Spells.exists_cons hs
    obtain ⟨t, us, rfl, ht, hl, hp⟩ := Spells.exists_cons hs
    obtain rfl : t.literal = x := hl
    exact .nextParameter hc ht (ih hp)

/-- A list of parameters. -/
theorem parameters {ps : List String}
    (hs : Spells ts (listed (ps.map fun x => [⟨.ident, x⟩])) ts₁) :
    Reads [.rbrace] n (.parameters ps) ts ts₁ := by
  cases ps with
  | nil =>
    obtain ⟨o, us, rfl, ho, -, hs⟩ := Spells.exists_cons hs
    obtain ⟨c, rfl, hc, -⟩ := hs.exists_singleton
    exact .noParameters ho hc
  | cons x ps =>
    obtain ⟨o, us, rfl, ho, -, hs⟩ := Spells.exists_cons hs
    obtain ⟨t, us, rfl, ht, hl, hp⟩ := Spells.exists_cons hs
    obtain rfl : t.literal = x := hl
    exact .parameters ho ht (moreParameters hp)

end ReadsBack

/-! ## Statements, and all trees -/

/-- A tree is read back in its place. -/
def Role.ReadsBack : Role → Code → Prop
  | .expression, e => MonkeyLang.ReadsBack e
  | .block, b => ∀ {n : Nat} {ts ts' : List Token}, b.depth < n → Spells ts b.lexemes ts' →
      Reads [.rbrace] n (.block b) ts ts'
  | .statement, s => ∀ {n : Nat} {ts ts' : List Token}, s.depth < n → Spells ts s.lexemes ts' →
      Reads [.rbrace] n (.statement s) ts ts'
  | .program, p => ∃ ss, p = .program ss ∧ ∀ {n : Nat} {ts ts' : List Token}, p.depth < n →
      Spells ts p.lexemes ts' → Reads [.rbrace] n (.statements ss) ts ts'

/-- A sequence of statements, each of which is read back. -/
theorem readsBack_statements {ss : List Code} (ih : ∀ s ∈ ss, Role.ReadsBack .statement s)
    {n : Nat} {ts ts' : List Token} (hd : Tree.depthEach ss < n)
    (hs : Spells ts (Tree.lexemesEach ss).flatten ts') :
    Reads [.rbrace] n (.statements ss) ts ts' := by
  induction ss generalizing ts with
  | nil =>
    rw [Spells.eq_of_nil hs]
    exact .noStatements
  | cons s ss ih' =>
    have hd : max s.depth (Tree.depthEach ss) < n := hd
    rw [Tree.lexemesEach, List.flatten_cons] at hs
    obtain ⟨tm, h₁, h₂⟩ := Spells.exists_append hs
    refine .statements (ih s List.mem_cons_self (by omega) h₁) ?_
    exact ih' (fun t ht => ih t (List.mem_cons_of_mem s ht)) (by omega) h₂

/-- The condition of a conditional, in its parentheses. -/
theorem reads_condition {c : Code} (h : ReadsBack c) {n : Nat} {ts ts' : List Token}
    (hd : c.depth < n) (hs : Spells ts (enclose true c.lexemes) ts') :
    ∃ o us u, ts = o :: us ∧ o.kind = .lparen ∧ u.kind = .rparen ∧
      Reads [.rbrace] n (.expression .lowest c) us (u :: ts') := by
  obtain ⟨o, us, rfl, ho, -, hs⟩ := Spells.exists_cons hs
  obtain ⟨tm, hs, hu⟩ := hs.exists_append
  obtain ⟨u, rfl, hu, -⟩ := hu.exists_singleton
  exact ⟨o, us, u, rfl, ho, hu, h.whole hd hs hu rfl (by decide)⟩

/-- An integer is written as the numeral that is read as it. -/
theorem reads_integer {v : Int} (h₀ : 0 ≤ v) (h : v ≤ Word.max) {n : Nat} {ts ts' : List Token}
    (hs : Spells ts (Tree.integer v).lexemes ts') :
    Reads [.rbrace] n (.operand (.integer v)) ts ts' := by
  obtain ⟨t, rfl, ht, hl⟩ := hs.exists_singleton
  have hl : t.literal = toString v := hl
  refine .integer ht ?_
  rw [hl, Word.ofLiteral?_toString h₀ h]

/-- A truth value is written as its keyword. -/
theorem reads_boolean {b : Bool} {n : Nat} {ts ts' : List Token}
    (hs : Spells ts (Tree.boolean b).lexemes ts') :
    Reads [.rbrace] n (.operand (.boolean b)) ts ts' := by
  cases b with
  | true =>
    obtain ⟨t, rfl, ht, -⟩ := hs.exists_singleton
    exact .truth ht
  | false =>
    obtain ⟨t, rfl, ht, -⟩ := hs.exists_singleton
    exact .falsity ht

/-- A binding is read, if the lexemes of its value are read up to a semicolon. -/
theorem reads_letStatement {x : String} {xs : List Lexeme} {n : Nat} {e : Code}
    {ts ts' : List Token}
    (hs : Spells ts (⟨.kwLet, "let"⟩ :: ⟨.ident, x⟩ :: ⟨.assign, "="⟩ :: (xs ++ [semicolon])) ts')
    (h : ∀ {us tm : List Token}, Spells us xs tm → nextKind tm = .semicolon →
      Reads [.rbrace] n (.expression .lowest e) us tm) :
    Reads [.rbrace] n (.statement (.letStatement x e)) ts ts' := by
  obtain ⟨t, us, rfl, ht, -, hs⟩ := Spells.exists_cons hs
  obtain ⟨y, us, rfl, hy, hl, hs⟩ := hs.exists_cons
  obtain ⟨a, us, rfl, ha, -, hs⟩ := hs.exists_cons
  obtain ⟨tm, hs, hc⟩ := hs.exists_append
  obtain ⟨c, rfl, hc, -⟩ := hc.exists_singleton
  have hl : y.literal = x := hl
  have hr := Reads.letStatement ht hy ha (h hs hc)
  rwa [hl, skipSemicolon_of_eq hc] at hr

/-- A bare return is read up to its semicolon. -/
theorem reads_bareReturn {n : Nat} {ts ts' : List Token}
    (hs : Spells ts [⟨.kwReturn, "return"⟩, semicolon] ts') :
    Reads [.rbrace] n (.statement (.returnStatement .missing)) ts ts' := by
  obtain ⟨t, us, rfl, ht, -, hs⟩ := Spells.exists_cons hs
  obtain ⟨c, rfl, hc, -⟩ := hs.exists_singleton
  have hn : nextKind (c :: ts') ∈ [.semicolon, .rbrace, .eof] := by
    rw [nextKind_cons, hc]
    decide
  have hr : Reads [.rbrace] n (.statement (.returnStatement .missing)) (t :: c :: ts') _ :=
    .bareReturn ht hn
  rwa [skipSemicolon_of_eq hc] at hr

/-- A return is read, if the lexemes of its value are read up to a semicolon. -/
theorem reads_returnStatement {xs : List Lexeme} {n : Nat} {e : Code} {ts ts' : List Token}
    (hs : Spells ts (⟨.kwReturn, "return"⟩ :: (xs ++ [semicolon])) ts')
    (h : ∀ {us tm : List Token}, Spells us xs tm → nextKind tm = .semicolon →
      Reads [.rbrace] n (.expression .lowest e) us tm) :
    Reads [.rbrace] n (.statement (.returnStatement e)) ts ts' := by
  obtain ⟨t, us, rfl, ht, -, hs⟩ := Spells.exists_cons hs
  obtain ⟨tm, hs, hc⟩ := hs.exists_append
  obtain ⟨c, rfl, hc, -⟩ := hc.exists_singleton
  have hr := Reads.returnStatement ht (h hs hc)
  rwa [skipSemicolon_of_eq hc] at hr

/-- Every proper tree is read back in its place. The induction is on how the tree is proper, which
has one case for each form of a tree in each place. -/
theorem Proper.readsBack {r : Role} {t : Code} (h : Proper r t) : r.ReadsBack t := by
  have hcall : Precedence.lowest < .call := by decide
  induction h with
  | program _ ih => exact ⟨_, rfl, fun hd hs => readsBack_statements ih hd hs⟩
  | letStatement _ _ ih =>
    intro n ts ts' hd hs
    exact reads_letStatement hs fun hs hc => ReadsBack.whole ih hd hs hc rfl (by decide)
  | bareReturn =>
    intro n ts ts' _ hs
    exact reads_bareReturn hs
  | returnStatement _ ih =>
    intro n ts ts' hd hs
    exact reads_returnStatement hs fun hs hc => ReadsBack.whole ih hd hs hc rfl (by decide)
  | expressionStatement _ ih =>
    intro n ts ts' hd hs
    obtain ⟨tm, hs, hc⟩ := Spells.exists_append hs
    obtain ⟨c, rfl, hc, -⟩ := hc.exists_singleton
    have hr := Reads.expressionStatement (ReadsBack.whole ih hd hs hc rfl (by decide))
    rwa [skipSemicolon_of_eq hc] at hr
  | block _ ih =>
    intro n ts ts' hd hs
    obtain ⟨o, us, rfl, ho, -, hs⟩ := Spells.exists_cons hs
    obtain ⟨tm, hs, hc⟩ := hs.exists_append
    obtain ⟨c, rfl, hc, -⟩ := hc.exists_singleton
    exact .block ho (readsBack_statements ih hd hs) (List.mem_singleton.2 hc)
  | identifier _ =>
    refine ReadsBack.of_operand hcall fun _ hs _ _ => ?_
    obtain ⟨t, rfl, ht, rfl⟩ := hs.exists_singleton
    exact .identifier ht
  | integer h₀ h => exact ReadsBack.of_operand hcall fun _ hs _ _ => reads_integer h₀ h hs
  | string _ =>
    refine ReadsBack.of_operand hcall fun _ hs _ _ => ?_
    obtain ⟨t, rfl, ht, rfl⟩ := hs.exists_singleton
    exact .string ht
  | boolean b => exact ReadsBack.of_operand hcall fun _ hs _ _ => reads_boolean hs
  | prefixed ho _ ih => exact ReadsBack.prefixed ho ih
  | infixed ho _ _ ihl ihr => exact ReadsBack.infixed ho ihl ihr
  | @conditional c b _ _ ihc ihb =>
    refine ReadsBack.of_operand hcall fun {n ts ts₁} hd hs _ he => ?_
    have hd : max c.depth (max b.depth 0) + 1 ≤ n := hd
    obtain ⟨tm, hs, hb⟩ := Spells.exists_append hs
    obtain ⟨t, us, rfl, ht, -, hs⟩ := hs.exists_cons
    obtain ⟨o, us, u, rfl, ho, hu, hc⟩ := reads_condition ihc (by omega : c.depth < n) hs
    have hb : Spells tm (b.lexemes ++ []) ts₁ := hb
    rw [List.append_nil] at hb
    -- no `else` follows, so the conditional ends with its block
    exact .conditional ht ho hc hu (ihb (by omega) hb) he
  | @alternative c b b' _ _ hb' ihc ihb ihb' =>
    have hm : b'.isMissing = false := by
      cases hb'
      rfl
    refine ReadsBack.of_operand hcall fun {n ts ts₁} hd hs _ he => ?_
    have hd : max c.depth (max b.depth b'.depth) + 1 ≤ n := hd
    rw [Tree.lexemes, hm] at hs
    obtain ⟨tm, hs, hb⟩ := Spells.exists_append hs
    obtain ⟨t, us, rfl, ht, -, hs⟩ := hs.exists_cons
    obtain ⟨o, us, u, rfl, ho, hu, hc⟩ := reads_condition ihc (by omega : c.depth < n) hs
    obtain ⟨tm, hb, hl⟩ := hb.exists_append
    obtain ⟨l, us, rfl, hlk, -, hl⟩ := Spells.exists_cons hl
    exact .alternative ht ho hc hu (ihb (by omega) hb) hlk (ihb' (by omega) hl)
  | @function ps b _ _ ih =>
    refine ReadsBack.of_operand hcall fun {n ts ts₁} hd hs _ _ => ?_
    have hd : b.depth + 1 ≤ n := hd
    obtain ⟨tm, hs, hb⟩ := Spells.exists_append hs
    obtain ⟨t, us, rfl, ht, -, hs⟩ := hs.exists_cons
    exact .function ht (ReadsBack.parameters hs) (ih hd hb)
  | call _ _ ihf iha => exact ReadsBack.call ihf iha

/-- The tokens of the text of a proper program are a reading of that program. -/
theorem parseTokens?_tokenize_minimalText {p : Code} (h : Proper .program p) {budget : Nat}
    (hb : p.depth < budget) :
    parseTokens? budget (tokenize p.minimalText) = some ⟨p, []⟩ := by
  obtain ⟨us, vs, hu, hs, he⟩ := List.map_eq_append_iff.1 (map_lexeme_tokenize_minimalText h)
  obtain ⟨t, rfl, ht⟩ := List.map_eq_singleton_iff.1 he
  have hk : t.kind = .eof := congrArg Lexeme.kind ht
  -- The tokens of the text spell the lexemes of the program and then the end of the text.
  obtain ⟨ss, rfl, hr⟩ := h.readsBack
  have hr := hr hb ⟨us, hu, hs⟩
  exact parseTokens?_of_reads hr (.of_consumes_eof hr.consumes hk) hk

/-- A program is read back from its text with as few parentheses as possible, whatever the budget
for the nesting of expressions is above its depth; and with less there is no other result. -/
theorem parse_minimalText {p : Code} (h : Proper .program p) :
    (∀ budget, p.depth < budget →
      parseTokens? budget (tokenize p.minimalText) = some ⟨p, []⟩) ∧
    (∀ budget parsed, parseTokens? budget (tokenize p.minimalText) = some parsed →
      parsed = ⟨p, []⟩) ∧
    (p.depth < nestingLimit → parse? p.minimalText = some ⟨p, []⟩) := by
  refine ⟨fun budget => parseTokens?_tokenize_minimalText h, fun budget parsed hr => ?_,
    parseTokens?_tokenize_minimalText h⟩
  -- a result with some budget is the one with a greater budget
  have hm := parseTokens?_mono (Nat.le_add_right budget (p.depth + 1)) hr
  rw [parseTokens?_tokenize_minimalText h (by omega)] at hm
  exact (Option.some.inj hm).symm

/-- A program with all kinds of grouping: to the left, to the right, under a prefix operator and of
what is called. -/
def groupedProgram : Code := .program [
  .letStatement "f" (.function ["x", "y"] (.block [.returnStatement (.infixed
    (.infixed (.infixed (.identifier "x") "+" (.identifier "y")) "*" (.prefixed "-" (.integer 2)))
    "-" (.infixed (.identifier "x") "-" (.identifier "y")))])),
  .returnStatement .missing,
  .expressionStatement (.call (.call (.prefixed "!" (.infixed (.identifier "a") "==" (.string "b")))
    [.integer 9223372036854775807, .boolean true])
    [.conditional (.boolean false) (.block []) (.block [.returnStatement .missing])])]

/-- The program is proper, which takes one rule for each of its nodes. -/
theorem groupedProgram_proper : Proper .program groupedProgram := by
  have hx : IsName "x" := ⟨by decide, List.all_eq_true.1 rfl, rfl⟩
  have hy : IsName "y" := ⟨by decide, List.all_eq_true.1 rfl, rfl⟩
  refine .program (List.forall_mem_cons.2 ⟨.letStatement ⟨by decide, List.all_eq_true.1 rfl, rfl⟩ ?_,
    List.forall_mem_cons.2 ⟨.bareReturn, List.forall_mem_singleton.2 (.expressionStatement ?_)⟩⟩)
  · refine .function (List.forall_mem_cons.2 ⟨hx, List.forall_mem_singleton.2 hy⟩)
      (.block (List.forall_mem_singleton.2 (.returnStatement ?_)))
    have hsum : Proper .expression (.infixed (.identifier "x") "+" (.identifier "y")) :=
      .infixed rfl (.identifier hx) (.identifier hy)
    exact .infixed rfl (.infixed rfl hsum (.prefixed rfl (.integer (by decide) (by decide))))
      (.infixed rfl (.identifier hx) (.identifier hy))
  · have hcallee : Proper .expression
        (.prefixed "!" (.infixed (.identifier "a") "==" (.string "b"))) :=
      .prefixed rfl (.infixed rfl (.identifier ⟨by decide, List.all_eq_true.1 rfl, rfl⟩) (.string (by decide)))
    refine .call (.call hcallee ?_) (List.forall_mem_singleton.2 (.alternative (.boolean false)
      (.block nofun) (.block (List.forall_mem_singleton.2 .bareReturn))))
    exact List.forall_mem_cons.2
      ⟨.integer (by decide) (by decide), List.forall_mem_singleton.2 (.boolean true)⟩

/-- Its text has parentheses only where the grouping needs them, and it is read back. -/
theorem groupedProgram_parse :
    Proper .program groupedProgram ∧ groupedProgram.minimalText =
      "let f = fn ( x , y ) \x7b return ( x + y ) * - 2 - ( x - y ) ; \x7d ; return ; " ++
        "( ! ( a == \"b\" ) ) ( 9223372036854775807 , true ) " ++
        "( if ( false ) \x7b \x7d else \x7b return ; \x7d ) ;" ∧
    parse? groupedProgram.minimalText = some ⟨groupedProgram, []⟩ :=
  ⟨groupedProgram_proper, by decide +kernel,
    (parse_minimalText groupedProgram_proper).2.2 (by decide)⟩

end MonkeyLang
