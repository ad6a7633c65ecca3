import MonkeyLang.Parser.Program

/-!
# Readings: which tokens write which tree

`Reads closing n g ts ts'` says that the tokens `ts` start with the phrase `g` and go on with
`ts'`, where the expressions inside `g` nest in at most `n` levels. It is the grammar of the
language with the choices that both ways of reading a program share: an expression goes on as long
as the next token can continue it, an `else` belongs to the nearest conditional, and a semicolon
belongs to the statement before it. No rule of it speaks of a cursor, of a stack or of mistakes, so
it stands between the reader by precedence (`Soundness`, `Completeness`) and the machine of the
grammar (`Simulation`, `Progress`).

The list `closing` has the kinds of token that can close a block: `rbrace`, and `eof` too where a
block may be left open at the end of the text.
-/

namespace MonkeyLang

/-- The kind of the first token to come. Past the last token there is only the end of the text. -/
def nextKind : List Token → Kind
  | [] => .eof
  | t :: _ => t.kind

@[simp]
theorem nextKind_nil : nextKind [] = .eof := rfl

@[simp]
theorem nextKind_cons (t : Token) (ts : List Token) : nextKind (t :: ts) = t.kind := rfl

/-- The tokens after the semicolon that may end a statement. -/
def skipSemicolon : List Token → List Token
  | [] => []
  | t :: ts => if t.kind = .semicolon then ts else t :: ts

theorem skipSemicolon_of_eq {t : Token} (h : t.kind = .semicolon) (ts : List Token) :
    skipSemicolon (t :: ts) = ts := by
  rw [skipSemicolon, if_pos h]

theorem skipSemicolon_of_ne {ts : List Token} (h : nextKind ts ≠ .semicolon) :
    skipSemicolon ts = ts := by
  cases ts with
  | nil => rfl
  | cons t ts => exact if_neg h

theorem Precedence.lt_iff {p q : Precedence} : p < q ↔ p.rank < q.rank := Iff.rfl

/-- A part of a program together with the tree that it writes. An `operations` phrase is what
follows an operand `left` and makes the expression `e` of it; the phrases `moreArguments` and
`moreParameters` go from behind an element of a list to its closing parenthesis. -/
inductive Phrase where
  | expression (precedence : Precedence) (e : Code)
  | operand (e : Code)
  | operations (precedence : Precedence) (left e : Code)
  | arguments (as : List Code)
  | moreArguments (as : List Code)
  | parameters (names : List String)
  | moreParameters (names : List String)
  | block (b : Code)
  | statement (s : Code)
  | statements (ss : List Code)

/-- The tokens `ts` start with the phrase `g` and go on with `ts'`. Each expression takes one of
the `n` levels for the expressions inside it. -/
inductive Reads (closing : List Kind) : Nat → Phrase → List Token → List Token → Prop where
  | expression {n : Nat} {p : Precedence} {left e : Code} {ts ts₁ ts₂ : List Token} :
      Reads closing n (.operand left) ts ts₁ → Reads closing n (.operations p left e) ts₁ ts₂ →
      Reads closing (n + 1) (.expression p e) ts ts₂
  -- Operands
  | identifier {n : Nat} {t : Token} {ts : List Token} : t.kind = .ident →
      Reads closing n (.operand (.identifier t.literal)) (t :: ts) ts
  | integer {n : Nat} {v : Int} {t : Token} {ts : List Token} : t.kind = .int →
      Word.ofLiteral? t.literal = some v → Reads closing n (.operand (.integer v)) (t :: ts) ts
  | string {n : Nat} {t : Token} {ts : List Token} : t.kind = .string →
      Reads closing n (.operand (.string t.literal)) (t :: ts) ts
  | truth {n : Nat} {t : Token} {ts : List Token} : t.kind = .kwTrue →
      Reads closing n (.operand (.boolean true)) (t :: ts) ts
  | falsity {n : Nat} {t : Token} {ts : List Token} : t.kind = .kwFalse →
      Reads closing n (.operand (.boolean false)) (t :: ts) ts
  | prefixed {n : Nat} {e : Code} {t : Token} {ts ts₁ : List Token} :
      t.kind = .bang ∨ t.kind = .minus → Reads closing n (.expression .unary e) ts ts₁ →
      Reads closing n (.operand (.prefixed t.literal e)) (t :: ts) ts₁
  | group {n : Nat} {e : Code} {t u : Token} {ts ts₁ : List Token} :
      t.kind = .lparen → Reads closing n (.expression .lowest e) ts (u :: ts₁) →
      u.kind = .rparen → Reads closing n (.operand e) (t :: ts) ts₁
  | conditional {n : Nat} {c b : Code} {t o u : Token} {ts ts₁ ts₂ : List Token} :
      t.kind = .kwIf → o.kind = .lparen → Reads closing n (.expression .lowest c) ts (u :: ts₁) →
      u.kind = .rparen → Reads closing n (.block b) ts₁ ts₂ → nextKind ts₂ ≠ .kwElse →
      Reads closing n (.operand (.conditional c b .missing)) (t :: o :: ts) ts₂
  | alternative {n : Nat} {c b b' : Code} {t o u l : Token} {ts ts₁ ts₂ ts₃ : List Token} :
      t.kind = .kwIf → o.kind = .lparen → Reads closing n (.expression .lowest c) ts (u :: ts₁) →
      u.kind = .rparen → Reads closing n (.block b) ts₁ (l :: ts₂) → l.kind = .kwElse →
      Reads closing n (.block b') ts₂ ts₃ →
      Reads closing n (.operand (.conditional c b b')) (t :: o :: ts) ts₃
  | function {n : Nat} {ps : List String} {b : Code} {t : Token} {ts ts₁ ts₂ : List Token} :
      t.kind = .kwFn → Reads closing n (.parameters ps) ts ts₁ →
      Reads closing n (.block b) ts₁ ts₂ →
      Reads closing n (.operand (.function ps b)) (t :: ts) ts₂
  -- Parameters
  | noParameters {n : Nat} {o u : Token} {ts : List Token} : o.kind = .lparen →
      u.kind = .rparen → Reads closing n (.parameters []) (o :: u :: ts) ts
  | parameters {n : Nat} {ps : List String} {o x : Token} {ts ts₁ : List Token} :
      o.kind = .lparen → x.kind = .ident → Reads closing n (.moreParameters ps) ts ts₁ →
      Reads closing n (.parameters (x.literal :: ps)) (o :: x :: ts) ts₁
  | lastParameter {n : Nat} {u : Token} {ts : List Token} : u.kind = .rparen →
      Reads closing n (.moreParameters []) (u :: ts) ts
  | nextParameter {n : Nat} {ps : List String} {c x : Token} {ts ts₁ : List Token} :
      c.kind = .comma → x.kind = .ident → Reads closing n (.moreParameters ps) ts ts₁ →
      Reads closing n (.moreParameters (x.literal :: ps)) (c :: x :: ts) ts₁
  -- Arguments
  | noArguments {n : Nat} {o u : Token} {ts : List Token} : o.kind = .lparen →
      u.kind = .rparen → Reads closing n (.arguments []) (o :: u :: ts) ts
  | arguments {n : Nat} {a : Code} {as : List Code} {o : Token} {ts ts₁ ts₂ : List Token} :
      o.kind = .lparen → Reads closing n (.expression .lowest a) ts ts₁ →
      Reads closing n (.moreArguments as) ts₁ ts₂ →
      Reads closing n (.arguments (a :: as)) (o :: ts) ts₂
  | lastArgument {n : Nat} {u : Token} {ts : List Token} : u.kind = .rparen →
      Reads closing n (.moreArguments []) (u :: ts) ts
  | nextArgument {n : Nat} {a : Code} {as : List Code} {c : Token} {ts ts₁ ts₂ : List Token} :
      c.kind = .comma → Reads closing n (.expression .lowest a) ts ts₁ →
      Reads closing n (.moreArguments as) ts₁ ts₂ →
      Reads closing n (.moreArguments (a :: as)) (c :: ts) ts₂
  -- Operations
  | stop {n : Nat} {p : Precedence} {e : Code} {ts : List Token} :
      ¬ p < (nextKind ts).precedence → Reads closing n (.operations p e e) ts ts
  | call {n : Nat} {p : Precedence} {left e : Code} {as : List Code} {t : Token}
      {ts ts₁ ts₂ : List Token} :
      t.kind = .lparen → p < .call → Reads closing n (.arguments as) (t :: ts) ts₁ →
      Reads closing n (.operations p (.call left as) e) ts₁ ts₂ →
      Reads closing n (.operations p left e) (t :: ts) ts₂
  | infixed {n : Nat} {p : Precedence} {left right e : Code} {t : Token}
      {ts ts₁ ts₂ : List Token} :
      t.kind ≠ .lparen → p < t.kind.precedence →
      Reads closing n (.expression t.kind.precedence right) ts ts₁ →
      Reads closing n (.operations p (.infixed left t.literal right) e) ts₁ ts₂ →
      Reads closing n (.operations p left e) (t :: ts) ts₂
  -- Statements
  | block {n : Nat} {ss : List Code} {o : Token} {ts ts₁ : List Token} : o.kind = .lbrace →
      Reads closing n (.statements ss) ts ts₁ → nextKind ts₁ ∈ closing →
      Reads closing n (.block (.block ss)) (o :: ts) ts₁.tail
  | letStatement {n : Nat} {e : Code} {t x a : Token} {ts ts₁ : List Token} :
      t.kind = .kwLet → x.kind = .ident → a.kind = .assign →
      Reads closing n (.expression .lowest e) ts ts₁ →
      Reads closing n (.statement (.letStatement x.literal e)) (t :: x :: a :: ts)
        (skipSemicolon ts₁)
  | bareReturn {n : Nat} {t : Token} {ts : List Token} : t.kind = .kwReturn →
      nextKind ts ∈ [.semicolon, .rbrace, .eof] →
      Reads closing n (.statement (.returnStatement .missing)) (t :: ts) (skipSemicolon ts)
  | returnStatement {n : Nat} {e : Code} {t : Token} {ts ts₁ : List Token} :
      t.kind = .kwReturn → Reads closing n (.expression .lowest e) ts ts₁ →
      Reads closing n (.statement (.returnStatement e)) (t :: ts) (skipSemicolon ts₁)
  | expressionStatement {n : Nat} {e : Code} {ts ts₁ : List Token} :
      Reads closing n (.expression .lowest e) ts ts₁ →
      Reads closing n (.statement (.expressionStatement e)) ts (skipSemicolon ts₁)
  | noStatements {n : Nat} {ts : List Token} : Reads closing n (.statements []) ts ts
  | statements {n : Nat} {s : Code} {ss : List Code} {ts ts₁ ts₂ : List Token} :
      Reads closing n (.statement s) ts ts₁ → Reads closing n (.statements ss) ts₁ ts₂ →
      Reads closing n (.statements (s :: ss)) ts ts₂

/-- The tree of a phrase is there. What follows an operand makes a tree of a tree. -/
def Phrase.IsWhole : Phrase → Prop
  | .expression _ e | .operand e | .statement e => e.isMissing = false
  | .operations _ left e => left.isMissing = false → e.isMissing = false
  | _ => True

/-- What a phrase can start with: an expression starts with a token that starts an operand, and a
block and the lists in parentheses start with the token that opens them. -/
def Phrase.StartsWith : Phrase → Kind → Prop
  | .expression .., k | .operand _, k => k.startsOperand = true
  | .arguments _, k | .parameters _, k => k = .lparen
  | .block _, k => k = .lbrace
  | .statement _, k => k = .kwLet ∨ k = .kwReturn ∨ k.startsOperand = true
  | _, _ => True

/-- What can stop a phrase: an expression goes on as long as the next token binds tighter than its
precedence. -/
def Phrase.StopsAt : Phrase → Kind → Prop
  | .expression p _, k | .operations p .., k => ¬ p < k.precedence
  | _, _ => True

/-- Nothing binds less tightly than a token that cannot continue an expression. -/
theorem Precedence.not_lt_lowest (p : Precedence) : ¬ p < .lowest := by
  cases p <;> decide

/-- Whatever binds tighter than something binds at all. -/
theorem Precedence.ne_lowest_of_lt {p q : Precedence} (h : p < q) : q ≠ .lowest :=
  fun hq => not_lt_lowest p (hq ▸ h)

/-- A token that an operand goes on with is of no kind that binds nothing. -/
theorem Kind.ne_of_lt_precedence {p : Precedence} {k j : Kind} (h : p < k.precedence)
    (hj : j.precedence = .lowest := by rfl) : k ≠ j :=
  fun hk => Precedence.ne_lowest_of_lt h (hk ▸ hj)

/-- The same for a list of kinds that bind nothing, such as the ends of a list or a statement. -/
theorem Kind.not_mem_of_lt_precedence {p : Precedence} {k : Kind} {ks : List Kind}
    (h : p < k.precedence) (hks : ∀ j ∈ ks, j.precedence = .lowest := by decide) : k ∉ ks :=
  fun hk => Precedence.ne_lowest_of_lt h (hks k hk)

/-- The tokens `ts` go on with `ts'` before their end is reached and without an illegal
character. -/
inductive Consumes : List Token → List Token → Prop where
  | refl (ts : List Token) : Consumes ts ts
  | step {t : Token} {ts ts' : List Token} : t.kind ∉ [.eof, .illegal] → Consumes ts ts' →
      Consumes (t :: ts) ts'

namespace Consumes

variable {t : Token} {k : Kind} {ts ts₁ ts₂ : List Token}

theorem trans (h₁ : Consumes ts ts₁) (h₂ : Consumes ts₁ ts₂) : Consumes ts ts₂ := by
  induction h₁ with
  | refl _ => exact h₂
  | step ht _ ih => exact .step ht (ih h₂)

theorem cons (ht : t.kind = k) (h : Consumes ts ts₁) (hk : k ∉ [.eof, .illegal] := by decide) :
    Consumes (t :: ts) ts₁ :=
  .step (ht ▸ hk) h

theorem one (ht : t.kind = k) (hk : k ∉ [.eof, .illegal] := by decide) : Consumes (t :: ts) ts :=
  .cons ht (.refl ts) hk

/-- The closing token of a block, which is not the end of the text. -/
theorem tail (ht : nextKind ts = k) (hk : k ∉ [.eof, .illegal]) : Consumes ts ts.tail := by
  cases ts with
  | nil => exact .refl _
  | cons t ts => exact .one ht hk

/-- The semicolon of a statement is consumed with it. -/
theorem semicolon (ts : List Token) : Consumes ts (skipSemicolon ts) := by
  cases ts with
  | nil => exact .refl _
  | cons t ts =>
    rw [skipSemicolon]
    split
    · next h => exact .one h
    · exact .refl _

theorem length_le (h : Consumes ts ts₁) : ts₁.length ≤ ts.length := by
  induction h with
  | refl _ => exact Nat.le_refl _
  | step _ _ ih => exact Nat.le_succ_of_le ih

theorem subset (h : Consumes ts ts₁) : ts₁ ⊆ ts := by
  induction h with
  | refl _ => exact List.Subset.refl _
  | step _ _ ih => exact List.subset_cons_of_subset _ ih

/-- The end of the text is left. -/
theorem eof_mem (h : Consumes ts ts₁) (he : ∃ t ∈ ts, t.kind = .eof) : ∃ t ∈ ts₁, t.kind = .eof := by
  induction h with
  | refl _ => exact he
  | step ht _ ih =>
    obtain ⟨u, hu, hk⟩ := he
    -- A token that is consumed is not the end, so that is among the others.
    rcases List.mem_cons.1 hu with rfl | hu
    · exact absurd (hk ▸ List.mem_cons_self) ht
    · exact ih ⟨u, hu, hk⟩

/-- An illegal character is left. -/
theorem legal (h : Consumes ts ts₁) (hl : ∀ t ∈ ts₁, t.kind ≠ .illegal) :
    ∀ t ∈ ts, t.kind ≠ .illegal := by
  induction h with
  | refl _ => exact hl
  | step ht _ ih =>
    rw [List.forall_mem_cons]
    refine ⟨fun hk => ?_, ih hl⟩
    rw [hk] at ht
    exact ht (by decide)

end Consumes

/-- The tokens `ts` end with the end of the text, which comes only once. -/
inductive Ended : List Token → Prop where
  | eof {t : Token} : t.kind = .eof → Ended [t]
  | cons {t : Token} {ts : List Token} : t.kind ≠ .eof → Ended ts → Ended (t :: ts)

namespace Ended

variable {t : Token} {ts ts₁ : List Token}

theorem ne_nil (h : Ended ts) : ts ≠ [] := by
  cases h <;> exact List.cons_ne_nil _ _

theorem of_cons (h : Ended (t :: ts)) (ht : t.kind ≠ .eof) : Ended ts := by
  cases h with
  | eof hk => exact absurd hk ht
  | cons _ h => exact h

theorem eq_nil (h : Ended (t :: ts)) (ht : t.kind = .eof) : ts = [] := by
  cases h with
  | eof _ => rfl
  | cons hk _ => exact absurd ht hk

/-- The end of the text is the last of its tokens. -/
theorem suffix_eq (h : Ended ts) (hs : t :: ts₁ <:+ ts) (ht : t.kind = .eof) : ts₁ = [] := by
  induction h with
  | eof _ =>
    rcases List.suffix_cons_iff.1 hs with he | hs
    · exact (List.cons.inj he).2
    · exact absurd (List.suffix_nil.1 hs) (List.cons_ne_nil _ _)
  | cons hk _ ih =>
    -- The end is either the first of these tokens, which it is not, or further on.
    rcases List.suffix_cons_iff.1 hs with he | hs
    · rw [(List.cons.inj he).1] at ht
      exact absurd ht hk
    · exact ih hs

/-- What is left still ends with the end of the text, since that is never consumed. -/
theorem of_consumes (h : Ended ts) (hc : Consumes ts ts₁) : Ended ts₁ := by
  induction hc with
  | refl _ => exact h
  | step ht _ ih =>
    refine ih (h.of_cons fun hk => ht ?_)
    rw [hk]
    exact List.mem_cons_self

end Ended

/-- The tokens `ts` go on with `ts'` after one token at least. -/
inductive Takes : List Token → List Token → Prop where
  | step {t : Token} {ts ts' : List Token} : t.kind ∉ [.eof, .illegal] → Consumes ts ts' →
      Takes (t :: ts) ts'

namespace Takes

variable {t : Token} {k : Kind} {ts ts₁ ts₂ : List Token}

theorem consumes (h : Takes ts ts₁) : Consumes ts ts₁ := by
  obtain ⟨ht, h⟩ := h
  exact .step ht h

/-- The token that is taken first is enough for the whole. -/
theorem trans (h₁ : Takes ts ts₁) (h₂ : Consumes ts₁ ts₂) : Takes ts ts₂ := by
  obtain ⟨ht, h₁⟩ := h₁
  exact .step ht (h₁.trans h₂)

theorem cons (ht : t.kind = k) (h : Consumes ts ts₁) (hk : k ∉ [.eof, .illegal] := by decide) :
    Takes (t :: ts) ts₁ :=
  .step (ht ▸ hk) h

theorem one (ht : t.kind = k) (hk : k ∉ [.eof, .illegal] := by decide) : Takes (t :: ts) ts :=
  .cons ht (.refl ts) hk

theorem length_lt (h : Takes ts ts₁) : ts₁.length < ts.length := by
  obtain ⟨_, h⟩ := h
  exact Nat.lt_succ_of_le h.length_le

end Takes

/-- What a phrase does to the tokens before it. Only the operations after an operand and a sequence
of statements may have no token. -/
def Phrase.Spans : Phrase → List Token → List Token → Prop
  | .operations .., ts, ts' | .statements _, ts, ts' => Consumes ts ts'
  | _, ts, ts' => Takes ts ts'

/-- Every phrase consumes the tokens that it spans. -/
theorem Phrase.Spans.consumes {g : Phrase} {ts ts' : List Token} (h : g.Spans ts ts') :
    Consumes ts ts' := by
  cases g with
  | operations _ _ _ => exact h
  | statements _ => exact h
  | _ => exact Takes.consumes h

namespace Reads

variable {closing : List Kind} {n : Nat} {g : Phrase} {ts ts' : List Token}

/-- A reading that nests in `n` levels nests in more of them. -/
theorem mono {m : Nat} (h : Reads closing n g ts ts') (hm : n ≤ m) : Reads closing m g ts ts' := by
  induction h generalizing m with
  | expression _ _ ih₁ ih₂ =>
    -- The one rule that counts a level: the larger number has one too.
    obtain ⟨m, rfl⟩ : ∃ k, m = k + 1 := ⟨m - 1, by omega⟩
    exact .expression (ih₁ (by omega)) (ih₂ (by omega))
  | identifier hk => exact .identifier hk
  | integer hk hv => exact .integer hk hv
  | string hk => exact .string hk
  | truth hk => exact .truth hk
  | falsity hk => exact .falsity hk
  | prefixed hk _ ih => exact .prefixed hk (ih hm)
  | group ho _ hu ih => exact .group ho (ih hm) hu
  | conditional ht ho _ hu _ he ih₁ ih₂ => exact .conditional ht ho (ih₁ hm) hu (ih₂ hm) he
  | alternative ht ho _ hu _ hl _ ih₁ ih₂ ih₃ =>
    exact .alternative ht ho (ih₁ hm) hu (ih₂ hm) hl (ih₃ hm)
  | function ht _ _ ih₁ ih₂ => exact .function ht (ih₁ hm) (ih₂ hm)
  | noParameters ho hu => exact .noParameters ho hu
  | parameters ho hx _ ih => exact .parameters ho hx (ih hm)
  | lastParameter hu => exact .lastParameter hu
  | nextParameter hc hx _ ih => exact .nextParameter hc hx (ih hm)
  | noArguments ho hu => exact .noArguments ho hu
  | arguments ho _ _ ih₁ ih₂ => exact .arguments ho (ih₁ hm) (ih₂ hm)
  | lastArgument hu => exact .lastArgument hu
  | nextArgument hc _ _ ih₁ ih₂ => exact .nextArgument hc (ih₁ hm) (ih₂ hm)
  | stop hp => exact .stop hp
  | call ht hp _ _ ih₁ ih₂ => exact .call ht hp (ih₁ hm) (ih₂ hm)
  | infixed ht hp _ _ ih₁ ih₂ => exact .infixed ht hp (ih₁ hm) (ih₂ hm)
  | block ho _ hc ih => exact .block ho (ih hm) hc
  | letStatement ht hx ha _ ih => exact .letStatement ht hx ha (ih hm)
  | bareReturn ht hn => exact .bareReturn ht hn
  | returnStatement ht _ ih => exact .returnStatement ht (ih hm)
  | expressionStatement _ ih => exact .expressionStatement (ih hm)
  | noStatements => exact .noStatements
  | statements _ _ ih₁ ih₂ => exact .statements (ih₁ hm) (ih₂ hm)

/-! ## What a phrase is, what it starts with and what stops it -/

/-- The tree of a reading is never missing: operations start from an operand. -/
theorem isWhole (h : Reads closing n g ts ts') : g.IsWhole := by
  induction h with
  -- The operand is whole, and operations keep it so.
  | expression _ _ ih₁ ih₂ => exact ih₂ ih₁
  | group _ _ _ ih => exact ih
  | stop _ => exact fun h => h
  | call _ _ _ _ _ ih => exact fun _ => ih rfl
  | infixed _ _ _ _ _ ih => exact fun _ => ih rfl
  | _ => trivial

/-- The first token of a phrase tells which phrase can start there. -/
theorem startsWith (h : Reads closing n g ts ts') : g.StartsWith (nextKind ts) := by
  induction h with
  | expression _ _ ih _ => exact ih
  | identifier hk | string hk | truth hk | falsity hk | integer hk _ | group hk _ _ _
  | conditional hk _ _ _ _ _ _ _ | alternative hk _ _ _ _ _ _ _ _ _ | function hk _ _ _ _ =>
    show Kind.startsOperand _ = true
    rw [nextKind_cons, hk]
    rfl
  | prefixed hk _ _ =>
    show Kind.startsOperand _ = true
    rcases hk with hk | hk <;> rw [nextKind_cons, hk] <;> rfl
  | noParameters ho _ | parameters ho _ _ _ | noArguments ho _ | arguments ho _ _ _ _
  | block ho _ _ _ => exact ho
  | letStatement ht _ _ _ _ => exact .inl ht
  | bareReturn ht _ | returnStatement ht _ _ => exact .inr (.inl ht)
  | expressionStatement _ ih => exact .inr (.inr ih)
  | _ => trivial

/-- A list of arguments makes a call of the operand that it follows. -/
theorem calls {p : Precedence} {f e : Code} {as : List Code} {ts₁ ts₂ : List Token}
    (h : Reads closing n (.arguments as) ts ts₁) (hp : p < .call)
    (ho : Reads closing n (.operations p (.call f as) e) ts₁ ts₂) :
    Reads closing n (.operations p f e) ts ts₂ := by
  have hn : nextKind ts = .lparen := h.startsWith
  cases ts with
  | nil => exact absurd hn (by decide)
  | cons t ts => exact .call hn hp h ho

/-- An expression ends only where the next token does not bind tighter. -/
theorem stopsAt (h : Reads closing n g ts ts') : g.StopsAt (nextKind ts') := by
  induction h with
  | expression _ _ _ ih => exact ih
  | stop hp => exact hp
  | call _ _ _ _ _ ih => exact ih
  | infixed _ _ _ _ _ ih => exact ih
  | _ => trivial

/-! ## The tokens of a phrase

A phrase leaves the last tokens of those that it starts. -/

theorem suffix (h : Reads closing n g ts ts') : ts' <:+ ts := by
  -- The tokens that a rule names come before the phrases in it, and may end one of them.
  have cons : ∀ {t : Token} {us vs : List Token}, us <:+ vs → us <:+ t :: vs :=
    fun h => h.trans (List.suffix_cons _ _)
  have tail : ∀ {t : Token} {us vs : List Token}, t :: us <:+ vs → us <:+ vs :=
    fun h => (List.suffix_cons _ _).trans h
  have semicolon : ∀ us, skipSemicolon us <:+ us := by
    intro us
    cases us with
    | nil => exact List.suffix_refl _
    | cons t us =>
      rw [skipSemicolon]
      split
      · exact List.suffix_cons _ _
      · exact List.suffix_refl _
  induction h with
  | expression _ _ ih₁ ih₂ | call _ _ _ _ ih₁ ih₂ | statements _ _ ih₁ ih₂ => exact ih₂.trans ih₁
  | identifier _ | integer _ _ | string _ | truth _ | falsity _ | lastParameter _ | lastArgument _ =>
    exact List.suffix_cons _ _
  | prefixed _ _ ih => exact cons ih
  | group _ _ _ ih => exact cons (tail ih)
  | conditional _ _ _ _ _ _ ih₁ ih₂ => exact cons (cons (ih₂.trans (tail ih₁)))
  | alternative _ _ _ _ _ _ _ ih₁ ih₂ ih₃ =>
    exact cons (cons ((ih₃.trans (tail ih₂)).trans (tail ih₁)))
  | function _ _ _ ih₁ ih₂ | arguments _ _ _ ih₁ ih₂ | nextArgument _ _ _ ih₁ ih₂
  | infixed _ _ _ _ ih₁ ih₂ => exact cons (ih₂.trans ih₁)
  | noParameters _ _ | noArguments _ _ => exact cons (List.suffix_cons _ _)
  | parameters _ _ _ ih | nextParameter _ _ _ ih => exact cons (cons ih)
  | stop _ | noStatements => exact List.suffix_refl _
  | block _ _ _ ih => exact cons ((List.tail_suffix _).trans ih)
  | letStatement _ _ _ _ ih => exact cons (cons (cons ((semicolon _).trans ih)))
  | bareReturn _ _ => exact cons (semicolon _)
  | returnStatement _ _ ih => exact cons ((semicolon _).trans ih)
  | expressionStatement _ ih => exact (semicolon _).trans ih

/-! Where a block must be closed, a phrase never takes the end of the text. -/

/-- A phrase other than operations and statements takes a token. -/
theorem spans (h : Reads [.rbrace] n g ts ts') : g.Spans ts ts' := by
  induction h with
  | expression _ _ ih₁ ih₂ => exact Takes.trans ih₁ ih₂
  | identifier hk | string hk | truth hk | falsity hk | integer hk _ | lastParameter hk
  | lastArgument hk => exact Takes.one hk
  | prefixed hk _ ih => rcases hk with hk | hk <;> exact Takes.cons hk ih.consumes
  | group ho _ hu ih => exact Takes.cons ho (ih.consumes.trans (.one hu))
  | conditional ht ho _ hu _ _ ih₁ ih₂ =>
    exact Takes.cons ht (.cons ho (ih₁.consumes.trans (.cons hu ih₂.consumes)))
  | alternative ht ho _ hu _ hl _ ih₁ ih₂ ih₃ =>
    have h₂ := ih₂.consumes.trans (.cons hl ih₃.consumes)
    exact Takes.cons ht (.cons ho (ih₁.consumes.trans (.cons hu h₂)))
  | function ht _ _ ih₁ ih₂ => exact Takes.cons ht (ih₁.consumes.trans ih₂.consumes)
  | noParameters ho hu | noArguments ho hu => exact Takes.cons ho (.one hu)
  | parameters ho hx _ ih | nextParameter ho hx _ ih =>
    exact Takes.cons ho (.cons hx ih.consumes)
  | arguments ho _ _ ih₁ ih₂ | nextArgument ho _ _ ih₁ ih₂ =>
    exact Takes.cons ho (ih₁.consumes.trans ih₂.consumes)
  | stop _ | noStatements => exact Consumes.refl _
  | call _ _ _ _ ih₁ ih₂ | statements _ _ ih₁ ih₂ => exact ih₁.consumes.trans ih₂
  | infixed _ hp _ _ ih₁ ih₂ =>
    exact Consumes.step (Kind.not_mem_of_lt_precedence hp) (ih₁.consumes.trans ih₂)
  -- The brace that closes the block is its last token.
  | block ho _ hc ih =>
    exact Takes.cons ho (Consumes.trans ih (.tail (List.mem_singleton.1 hc) (by decide)))
  | letStatement ht hx ha _ ih =>
    exact Takes.cons ht (.cons hx (.cons ha (ih.consumes.trans (.semicolon _))))
  | bareReturn ht _ => exact Takes.cons ht (.semicolon _)
  | returnStatement ht _ ih => exact Takes.cons ht (ih.consumes.trans (.semicolon _))
  | expressionStatement _ ih => exact Takes.trans ih (.semicolon _)

/-- A phrase takes neither the end of the text nor an illegal character. -/
theorem consumes (h : Reads [.rbrace] n g ts ts') : Consumes ts ts' :=
  h.spans.consumes

end Reads

end MonkeyLang
