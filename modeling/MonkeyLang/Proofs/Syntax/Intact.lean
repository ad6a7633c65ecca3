import Mathlib.Data.List.TakeWhile
import MonkeyLang.Proofs.Syntax.Shape
import MonkeyLang.Proofs.Syntax.Soundness

/-!
# Readings are whole

The kind of a token is decided by its characters: `legible_tokens`. So the literals and operators of
a reading are such as a text can have, and nothing is missing in it: `Reads.isIntact`.
-/

namespace MonkeyLang

/-! ## Tokens -/

/-- What is needed of a lexeme for the literal or the operator that is made of it. -/
structure Lexeme.Legible (x : Lexeme) : Prop where
  string : x.kind = .string → '"' ∉ x.literal.toList
  integer : x.kind = .int → ∀ n, Word.ofLiteral? x.literal = some n → 0 ≤ n ∧ n ≤ Word.max
  prefixOperator : x.kind = .bang ∨ x.kind = .minus → (prefixKind? x.literal).isSome = true
  infixOperator : x.kind ≠ .lparen → x.kind.precedence ≠ .lowest →
    (infixKind? x.literal).isSome = true

/-- A number in digits is not negative. -/
theorem Word.nonneg_of_ofLiteral? {cs : List Char} {n : Int} (hd : ∀ c ∈ cs, isDigit c = true)
    (h : Word.ofLiteral? (String.ofList cs) = some n) : 0 ≤ n ∧ n ≤ Word.max := by
  have hi : ∀ k, Text.integer (String.ofList cs) = .ok k → 0 ≤ k := by
    intro k hk
    rw [Text.integer, String.toList_ofList, Text.trim_of_isDigit hd] at hk
    split at hk
    -- digits begin with no sign
    · exact absurd (hd '+' List.mem_cons_self) (by decide)
    · exact absurd (hd '-' List.mem_cons_self) (by decide)
    · cases hu : Text.unsigned (String.ofList cs) cs with
      | error e => rw [hu] at hk; cases hk
      | ok j =>
        rw [hu] at hk
        cases hk
        exact Int.natCast_nonneg j
  unfold Word.ofLiteral? at h
  split at h
  · next k hk =>
    split at h
    · next hm =>
      cases h
      exact ⟨hi n hk, hm⟩
    · cases h
  · cases h

namespace Lexeme.Legible

/-- Nothing is needed of a lexeme that is no literal and no operator. -/
theorem of_other {k : Kind} {literal : String} (h : k ∉ [.string, .int, .bang, .minus])
    (hp : k.precedence = .lowest) : Legible ⟨k, literal⟩ := by
  simp only [List.mem_cons, List.not_mem_nil, or_false, not_or] at h
  obtain ⟨hs, hi, hb, hm⟩ := h
  exact ⟨fun hk => absurd hk hs, fun hk => absurd hk hi, fun hk => (hk.elim hb hm).elim,
    fun _ hk => absurd hp hk⟩

/-- A word is a name or a keyword, of which nothing is needed. -/
theorem word (word : String) : Legible ⟨Kind.ofWord word, word⟩ := by
  have hk : Kind.ofWord word ∉ [.string, .int, .bang, .minus] ∧
      (Kind.ofWord word).precedence = .lowest :=
    Kind.forall_ofWord (P := fun k => k ∉ [.string, .int, .bang, .minus] ∧ k.precedence = .lowest)
      (by decide) word
  exact .of_other hk.1 hk.2

/-- A symbol that is an operator has a text that one can have. -/
theorem symbol (c : Char) : Legible ⟨(Kind.ofSymbol? c).getD .illegal, String.ofList [c]⟩ := by
  unfold Kind.ofSymbol?
  split
  -- a character that is in no table
  case h_13 => exact of_other (k := .illegal) (by decide) rfl
  all_goals exact ⟨nofun, nofun, by decide, by decide⟩

end Lexeme.Legible

/-- Whatever is read at a character is legible. -/
theorem legible_tokenAt (s : Source) (c : Char) (cs : List Char) :
    (s.tokenAt c cs).1.lexeme.Legible := by
  unfold Source.tokenAt
  dsimp only
  split
  · split
    · show Lexeme.Legible ⟨.eq, String.ofList ['=', '=']⟩
      exact ⟨nofun, nofun, by decide, by decide⟩
    · exact .of_other (k := .assign) (by decide) rfl
  split
  · split
    · show Lexeme.Legible ⟨.notEq, String.ofList ['!', '=']⟩
      exact ⟨nofun, nofun, by decide, by decide⟩
    · show Lexeme.Legible ⟨.bang, String.ofList ['!']⟩
      exact ⟨nofun, nofun, by decide, by decide⟩
  split
  · -- a text ends at the first quote, or with the source
    have hq : '"' ∉ (String.ofList (cs.takeWhile fun c => decide (c ≠ '"'))).toList := by
      rw [String.toList_ofList]
      intro hm
      exact absurd (List.mem_takeWhile_imp hm) (by decide)
    split <;> exact ⟨fun _ => hq, nofun, nofun, fun _ h => absurd rfl h⟩
  split
  · exact .word _
  split
  · next hd =>
    refine ⟨nofun, fun _ n => Word.nonneg_of_ofLiteral? ?_, nofun, fun _ h => absurd rfl h⟩
    exact List.forall_mem_cons.2 ⟨hd, fun d hm => List.mem_takeWhile_imp hm⟩
  · exact .symbol c

/-- Every token of a text is legible. -/
theorem legible_tokens (s : Source) : ∀ t ∈ s.tokens, t.lexeme.Legible := by
  fun_induction Source.tokens s with
  | case1 s h =>
    rw [Source.token_of_eq_nil h]
    exact List.forall_mem_singleton.2 (.of_other (k := .eof) (by decide) rfl)
  | case2 s h ih =>
    obtain ⟨c, cs, hs⟩ := List.exists_cons_of_ne_nil h
    refine List.forall_mem_cons.2 ⟨?_, ih⟩
    rw [Source.token_of_eq_cons hs]
    exact legible_tokenAt _ c cs

/-! ## Readings -/

/-- The tree of a phrase is whole. What follows an operand makes a whole tree of a whole one. -/
def Phrase.IsIntact : Phrase → Prop
  | .expression _ e | .operand e => e.isIntact .expression = true
  | .operations _ left e => left.isIntact .expression = true → e.isIntact .expression = true
  | .arguments as | .moreArguments as => ∀ a ∈ as, a.isIntact .expression = true
  | .parameters _ | .moreParameters _ => True
  | .block b => b.isIntact .block = true
  | .statement s => s.isIntact .statement = true
  | .statements ss => ∀ s ∈ ss, s.isIntact .statement = true

namespace Tree

/-! A tree is whole if its parts are. -/

variable {c t e l r b : Code} {as ss : List Code} {o x : String}

theorem isIntact_prefixed (ho : (prefixKind? o).isSome = true)
    (he : e.isIntact .expression = true) : (prefixed o e).isIntact .expression = true := by
  simpa [isIntact, meets, Demands.intact, ho] using he

theorem isIntact_infixed (ho : (infixKind? o).isSome = true) (hl : l.isIntact .expression = true)
    (hr : r.isIntact .expression = true) : (infixed l o r).isIntact .expression = true := by
  simpa [isIntact, meets, Demands.intact, ho] using And.intro hl hr

/-- A conditional may miss its second block only. -/
theorem isIntact_conditional (hc : c.isIntact .expression = true) (ht : t.isIntact .block = true)
    (he : e.isMissing = true ∨ e.isIntact .block = true) :
    (conditional c t e).isIntact .expression = true := by
  simp only [isIntact] at hc ht he
  simpa [isIntact, meets, hc, ht] using he

theorem isIntact_call (hf : e.isIntact .expression = true)
    (has : ∀ a ∈ as, a.isIntact .expression = true) : (call e as).isIntact .expression = true := by
  simp only [isIntact] at hf
  simpa [isIntact, meets, hf, meetsEach_iff] using has

/-- A function needs a body, which is a block. -/
theorem isIntact_function {ps : List String} (hb : b.isIntact .block = true) :
    (function ps b).isIntact .expression = true := by
  simpa [isIntact, meets, Demands.intact] using hb

theorem isIntact_block (h : ∀ s ∈ ss, s.isIntact .statement = true) :
    (block ss).isIntact .block = true :=
  meetsEach_iff.2 h

theorem isIntact_program (h : ∀ s ∈ ss, s.isIntact .statement = true) :
    (program ss).isIntact = true :=
  meetsEach_iff.2 h

/-- An integer needs to be one that a text can write. -/
theorem isIntact_integer {n : Int} (h : 0 ≤ n ∧ n ≤ Word.max) :
    (integer n : Code).isIntact .expression = true :=
  decide_eq_true h

/-- A string needs to be without a quote. -/
theorem isIntact_string {s : String} (h : '"' ∉ s.toList) :
    (string s).isIntact .expression = true :=
  decide_eq_true h

theorem isIntact_letStatement (he : e.isIntact .expression = true) :
    (letStatement x e).isIntact .statement = true := by
  simpa [isIntact, meets, Demands.intact] using he

/-- A return statement may miss its value. -/
theorem isIntact_returnStatement (he : e.isMissing = true ∨ e.isIntact .expression = true) :
    (returnStatement e).isIntact .statement = true := by
  simpa [isIntact, meets] using he

end Tree

/-- A reading of legible tokens is whole. -/
theorem Reads.isIntact {closing : List Kind} {n : Nat} {g : Phrase} {ts ts' : List Token}
    (h : Reads closing n g ts ts') (hl : ∀ t ∈ ts, t.lexeme.Legible) : g.IsIntact := by
  -- the tokens after a part of a phrase are among those of the phrase
  have rest {n : Nat} {g : Phrase} {ts ts₁ : List Token} (h : Reads closing n g ts ts₁)
      (hl : ∀ t ∈ ts, t.lexeme.Legible) : ∀ t ∈ ts₁, t.lexeme.Legible :=
    fun t ht => hl t (h.suffix.subset ht)
  have tail {t : Token} {ts : List Token} (hl : ∀ u ∈ t :: ts, u.lexeme.Legible) :
      ∀ u ∈ ts, u.lexeme.Legible := fun u hu => hl u (List.mem_cons_of_mem t hu)
  induction h with
  | expression h₁ _ ih₁ ih₂ => exact ih₂ (rest h₁ hl) (ih₁ hl)
  | identifier _ | truth _ | falsity _ => rfl
  | integer hk hv => exact Tree.isIntact_integer ((hl _ List.mem_cons_self).integer hk _ hv)
  | string hk => exact Tree.isIntact_string ((hl _ List.mem_cons_self).string hk)
  | prefixed hk _ ih =>
    exact Tree.isIntact_prefixed ((hl _ List.mem_cons_self).prefixOperator hk) (ih (tail hl))
  | group _ _ _ ih => exact ih (tail hl)
  | conditional _ _ h₁ _ _ _ ih₁ ih₂ =>
    have hc := tail (tail hl)
    exact Tree.isIntact_conditional (ih₁ hc) (ih₂ (tail (rest h₁ hc))) (.inl rfl)
  | alternative _ _ h₁ _ h₂ _ _ ih₁ ih₂ ih₃ =>
    have hc := tail (tail hl)
    have ht := tail (rest h₁ hc)
    exact Tree.isIntact_conditional (ih₁ hc) (ih₂ ht) (.inr (ih₃ (tail (rest h₂ ht))))
  | function _ h₁ _ _ ih₂ => exact Tree.isIntact_function (ih₂ (rest h₁ (tail hl)))
  | noParameters _ _ | parameters _ _ _ _ | lastParameter _ | nextParameter _ _ _ _ => trivial
  | noArguments _ _ | lastArgument _ | noStatements => exact nofun
  | arguments _ h₁ _ ih₁ ih₂ | nextArgument _ h₁ _ ih₁ ih₂ =>
    exact List.forall_mem_cons.2 ⟨ih₁ (tail hl), ih₂ (rest h₁ (tail hl))⟩
  | stop _ => exact id
  | call _ _ h₁ _ ih₁ ih₂ => exact fun hleft => ih₂ (rest h₁ hl) (Tree.isIntact_call hleft (ih₁ hl))
  | infixed hk hp h₁ _ ih₁ ih₂ =>
    intro hleft
    have ho := (hl _ List.mem_cons_self).infixOperator hk (Precedence.ne_lowest_of_lt hp)
    exact ih₂ (rest h₁ (tail hl)) (Tree.isIntact_infixed ho hleft (ih₁ (tail hl)))
  | block _ _ _ ih => exact Tree.isIntact_block (ih (tail hl))
  | letStatement _ _ _ _ ih => exact Tree.isIntact_letStatement (ih (tail (tail (tail hl))))
  | bareReturn _ _ => exact Tree.isIntact_returnStatement (.inl rfl)
  | returnStatement _ _ ih => exact Tree.isIntact_returnStatement (.inr (ih (tail hl)))
  | expressionStatement _ ih => exact ih hl
  | statements h₁ _ ih₁ ih₂ => exact List.forall_mem_cons.2 ⟨ih₁ hl, ih₂ (rest h₁ hl)⟩

end MonkeyLang
