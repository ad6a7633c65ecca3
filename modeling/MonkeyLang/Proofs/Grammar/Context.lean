import MonkeyLang.Proofs.Grammar.Progress
import MonkeyLang.Proofs.Token.Written

/-!
# Tokens in context and without

The machine of the grammar reads the tokens of a text in context: what a word or an `=` is depends
on what can stand there. Two things hold of a whole run. Tokens without a context that the machine
takes are read in context as they are (`runs_of_feedAll`), if every string is closed. And the tokens
that a run has read in context are those without a context, except that a keyword may have been
taken for a name (`Runs.tokens_eq`): a run that splits `==` or `!=` in two never gets past the
second half.
-/

namespace MonkeyLang

namespace Source

/-- Whether every string of a text is closed. -/
def stringsClosed (s : Source) : Bool :=
  if _h : s.skipSpace.rest = [] then true
  else (s.skipSpace.rest.head? != some '"' || s.skipSpace.rest.tail.contains '"') &&
    s.token.2.stringsClosed
termination_by s.rest.length
decreasing_by exact rest_token_length_lt _h

theorem stringsClosed_of_eq_nil {s : Source} (h : s.skipSpace.rest = []) :
    s.stringsClosed = true := by
  rw [stringsClosed, dif_pos h]

/-- Whether all texts are closed is decided token by token: a quotation mark needs another one
behind it, and then the source behind the token is looked at. -/
theorem stringsClosed_of_eq_cons {s : Source} {c : Char} {cs : List Char}
    (h : s.skipSpace.rest = c :: cs) :
    s.stringsClosed = true ↔
      (c = '"' → '"' ∈ cs) ∧ (s.skipSpace.tokenAt c cs).2.stringsClosed = true := by
  have hn : s.skipSpace.rest ≠ [] := by
    rw [h]
    exact List.cons_ne_nil _ _
  rw [stringsClosed, dif_neg hn, token_of_eq_cons h, h]
  by_cases hc : c = '"' <;> simp [hc]

theorem dropWhile_quote_eq_nil {cs : List Char} :
    cs.dropWhile (fun c => decide (c ≠ '"')) = [] ↔ '"' ∉ cs := by
  induction cs with
  | nil => simp
  | cons c cs ih =>
    by_cases hc : c = '"'
    · simp [hc]
    · rw [List.dropWhile_cons, if_pos (decide_eq_true hc), ih, List.mem_cons, not_or]
      exact ⟨fun h => ⟨Ne.symm hc, h⟩, And.right⟩

/-! ## One token -/

/-- What comes in context at a character, beside the token `x` with the source `r` after it that
comes there without a context: the same, a keyword as a name, the first half of `==` or `!=`, or
nothing. -/
inductive InContext (accepts : Kind → Bool) (s : Source) (c : Char) (cs : List Char) (x : Token)
    (r : Source) : Scanned → Prop where
  | same : (c = '"' → '"' ∈ cs) → InContext accepts s c cs x r (.token x r)
  | name : c ≠ '"' → Kind.keyword? x.literal = some x.kind → accepts x.kind = false →
      InContext accepts s c cs x r (.token { x with kind := .ident } r)
  | half {k : Kind} {rest : List Char} : c ≠ '"' → k ∈ [.assign, .bang] → cs = '=' :: rest →
      accepts x.kind = false →
      InContext accepts s c cs x r (.token ⟨k, String.ofList [c], s.position⟩ (s.past [c] cs))
  | stray : x.kind = .illegal ∨ c = '"' ∧ '"' ∉ cs →
      InContext accepts s c cs x r (.stray c s.position)

section

variable (accepts : Kind → Bool) (s : Source) (c : Char) (cs : List Char)

/-- A character that may be the first half of a token of two. -/
theorem inContext_operatorAt {long short : Kind} (hc : c ≠ '"') (hs : short ∈ [.assign, .bang])
    (hl : ∀ rest, cs = '=' :: rest →
      s.tokenAt c cs = (⟨long, String.ofList [c, '='], s.position⟩, s.past [c, '='] rest))
    (hn : (∀ rest, cs ≠ '=' :: rest) →
      s.tokenAt c cs = (⟨short, String.ofList [c], s.position⟩, s.past [c] cs)) :
    InContext accepts s c cs (s.tokenAt c cs).1 (s.tokenAt c cs).2
      (s.operatorAt accepts long short c cs) := by
  unfold operatorAt
  split
  · next rest =>
    -- `=` follows: the long token, or its first half where only the short one is allowed
    rw [hl rest rfl]
    split
    · exact .same fun h => absurd h hc
    · next hr =>
      refine .half hc hs rfl ?_
      simp only [readsLong, Bool.or_eq_true, not_or, Bool.not_eq_true] at hr
      exact hr.1
  · next h =>
    rw [hn h]
    exact .same fun h => absurd h hc

/-- Cases as the reader has them: the character begins an operator, a text, a word, a number, or
none of these. -/
theorem inContext_scanAt :
    InContext accepts s c cs (s.tokenAt c cs).1 (s.tokenAt c cs).2 (s.scanAt accepts c cs) := by
  unfold scanAt
  dsimp only
  -- `=`, which may begin `==`
  split
  · next hc =>
    subst hc
    refine inContext_operatorAt accepts s '=' cs (by decide) (by decide) ?_ ?_
    · rintro rest rfl
      rfl
    · intro hn
      simp only [tokenAt, if_true]
  -- `!`, which may begin `!=`
  split
  · next hc =>
    subst hc
    refine inContext_operatorAt accepts s '!' cs (by decide) (by decide) ?_ ?_
    · rintro rest rfl
      rfl
    · intro hn
      have h : ¬ '!' = '=' := by decide
      simp only [tokenAt, if_neg h, if_true]
  -- a quote, which is stray where no other one follows
  split
  · next h₁ h₂ hc =>
    simp only [tokenAt, if_neg h₁, if_neg h₂, if_pos hc]
    cases hd : cs.dropWhile fun c => decide (c ≠ '"') with
    | nil => exact .stray (.inr ⟨hc, dropWhile_quote_eq_nil.1 hd⟩)
    | cons d ds =>
      refine .same fun _ => Decidable.not_not.1 fun hm => ?_
      rw [dropWhile_quote_eq_nil.2 hm] at hd
      exact absurd hd.symm (List.cons_ne_nil _ _)
  -- a word; a keyword is a name where a name can stand and the keyword cannot
  split
  · next h₁ h₂ h₃ hl =>
    simp only [tokenAt, if_neg h₁, if_neg h₂, if_neg h₃, if_pos hl]
    generalize String.ofList (c :: cs.takeWhile isLetter) = word
    unfold wordKind Kind.ofWord
    cases hw : Kind.keyword? word with
    | none => exact .same fun h => absurd h h₃
    | some k =>
      dsimp only [Option.getD_some]
      split
      · next ha =>
        rw [Bool.and_eq_true, Bool.not_eq_true'] at ha
        exact InContext.name (x := ⟨k, word, s.position⟩) h₃ hw ha.1
      · exact .same fun h => absurd h h₃
  -- a number, and then all other characters
  split
  · next h₁ h₂ h₃ hl hd =>
    simp only [tokenAt, if_neg h₁, if_neg h₂, if_neg h₃, if_neg hl, if_pos hd]
    exact .same fun h => absurd h h₃
  · next h₁ h₂ h₃ hl hd =>
    simp only [tokenAt, if_neg h₁, if_neg h₂, if_neg h₃, if_neg hl, if_neg hd]
    split
    · next k hk =>
      rw [hk]
      exact .same fun h => absurd h h₃
    · next hk =>
      rw [hk]
      exact .stray (.inl rfl)

end

/-- No token at a character is the end of the text, and a word is a name only if it is no
keyword. -/
theorem kind_tokenAt (s : Source) (c : Char) (cs : List Char) :
    (s.tokenAt c cs).1.kind ≠ .eof ∧
      ((s.tokenAt c cs).1.kind = .ident → Kind.keyword? (s.tokenAt c cs).1.literal = none) := by
  unfold tokenAt
  dsimp only
  split
  · split <;> exact ⟨nofun, nofun⟩
  split
  · split <;> exact ⟨nofun, nofun⟩
  split
  · split <;> exact ⟨nofun, nofun⟩
  split
  -- a word is a keyword or a name, and a name is no keyword
  · generalize String.ofList (c :: cs.takeWhile isLetter) = word
    exact ⟨Kind.forall_ofWord (P := (· ≠ .eof)) (by decide) word, Kind.keyword?_eq_none⟩
  split
  · exact ⟨nofun, nofun⟩
  -- the last characters have a kind of the table, which has no name in it
  · show (Kind.ofSymbol? c).getD .illegal ≠ _ ∧ ((Kind.ofSymbol? c).getD .illegal = _ → _)
    unfold Kind.ofSymbol?
    split <;> exact ⟨by decide, fun h => absurd h (by decide)⟩

theorem ended_tokens (s : Source) : Ended s.tokens := by
  fun_induction Source.tokens s with
  | case1 s hs =>
    rw [token_of_eq_nil hs]
    exact .eof rfl
  | case2 s hs ih =>
    obtain ⟨c, cs, hr⟩ := List.exists_cons_of_ne_nil hs
    rw [token_of_eq_cons hr] at ih ⊢
    exact .cons (kind_tokenAt s.skipSpace c cs).1 ih

/-- What comes next, in context and without. -/
theorem scan_of_eq_nil {accepts : Kind → Bool} {s : Source} (h : s.skipSpace.rest = []) :
    s.scan accepts = .token ⟨.eof, "", s.skipSpace.position⟩ s.skipSpace := by
  rw [scan]
  simp only [h]

theorem scan_of_eq_cons {accepts : Kind → Bool} {s : Source} {c : Char} {cs : List Char}
    (h : s.skipSpace.rest = c :: cs) : s.scan accepts = s.skipSpace.scanAt accepts c cs := by
  rw [scan]
  simp only [h]

end Source

/-- The token that the characters of `t` are without a context. -/
def Token.plain (t : Token) : Token :=
  if t.kind = .ident then { t with kind := .ofWord t.literal } else t

namespace Token

variable {t : Token}

theorem plain_of_ne (h : t.kind ≠ .ident) : t.plain = t :=
  if_neg h

/-- Only a keyword that was taken for a name is another token without a context. -/
theorem plain_eq_iff : t.plain = t ↔ (t.kind = .ident → Kind.keyword? t.literal = none) := by
  constructor
  · intro h hk
    rw [plain, if_pos hk] at h
    exact Kind.keyword?_eq_none ((congrArg Token.kind h).trans hk)
  · intro h
    by_cases hk : t.kind = .ident
    · have hw : Kind.ofWord t.literal = t.kind := by
        rw [Kind.ofWord, h hk, hk]
        rfl
      rw [plain, if_pos hk, hw]
    · exact plain_of_ne hk

/-- A name may be a keyword without a context, but never a brace. -/
theorem braceWeight_plain (t : Token) : t.plain.kind.braceWeight = t.kind.braceWeight := by
  by_cases hk : t.kind = .ident
  · rw [plain, if_pos hk, hk]
    exact Kind.forall_ofWord (P := fun k => k.braceWeight = 0) (by decide) _
  · rw [plain_of_ne hk]

end Token

theorem braceSurplus_map_plain (ts : List Token) :
    braceSurplus (ts.map Token.plain) = braceSurplus ts := by
  induction ts with
  | nil => rfl
  | cons t ts ih => rw [List.map_cons, braceSurplus, braceSurplus, ih, Token.braceWeight_plain]

namespace Grammar

open MonkeyLang.Grammar.Machine

/-! ## Runs -/

/-- The machine `m` reads the tokens `ts` from `s` in context, up to the end of the text, and
becomes `m'`. -/
inductive Runs : Machine → Source → List Token → Machine → Prop where
  | stop {m m' : Machine} {s s' : Source} {t : Token} :
      s.scan m.mode.accepts = .token t s' → t.kind = .eof → m.feed t = .ok m' → Runs m s [t] m'
  | step {m m₁ m' : Machine} {s s' : Source} {t : Token} {ts : List Token} :
      s.scan m.mode.accepts = .token t s' → t.kind ≠ .eof → m.feed t = .ok m₁ →
      Runs m₁ s' ts m' → Runs m s (t :: ts) m'

namespace Runs

variable {m m' : Machine} {s : Source} {ts ts' : List Token}

/-- Runs are what running the machine does. -/
theorem of_run (h : m.run s = .ok m') : ∃ ts, Runs m s ts m' := by
  fun_induction Machine.run m s with
  | case1 => cases h
  | case2 => cases h
  | case3 m s t s' hs m₁ hf ht =>
    cases h
    exact ⟨[t], .stop hs ht hf⟩
  | case4 m s t s' hs m₁ hf ht ih =>
    obtain ⟨ts, hr⟩ := ih h
    exact ⟨t :: ts, .step hs ht hf hr⟩

/-- One token of a run. -/
theorem run_token {m₁ : Machine} {s' : Source} {t : Token}
    (hs : s.scan m.mode.accepts = .token t s') (hf : m.feed t = .ok m₁) :
    m.run s = if t.kind = .eof then .ok m₁ else m₁.run s' := by
  rw [Machine.run]
  split
  · next h => rw [hs] at h; cases h
  · next h =>
    rw [hs] at h
    cases h
    rw [hf]
    by_cases ht : t.kind = .eof
    · rw [if_pos ht]
      exact dif_pos ht
    · rw [if_neg ht]
      exact dif_neg ht

/-- What the machine comes to on a source if it runs through all of its tokens. -/
theorem run_eq (h : Runs m s ts m') : m.run s = .ok m' := by
  induction h with
  | stop hs ht hf => rw [run_token hs hf, if_pos ht]
  | step hs ht hf _ ih => rw [run_token hs hf, if_neg ht, ih]

theorem ended (h : Runs m s ts m') : Ended ts := by
  induction h with
  | stop _ ht _ => exact .eof ht
  | step _ ht _ _ ih => exact .cons ht ih

theorem feedAll_eq (h : Runs m s ts m') : m.feedAll ts = .ok m' := by
  induction h with
  | stop _ _ hf => exact feedAll_cons_of_ok hf
  | step _ _ hf _ ih => exact (feedAll_cons_of_ok hf).trans ih

/-- A text is read in context in one way only. -/
theorem unique {m₁ m₂ : Machine} (h : Runs m s ts m₁) (h' : Runs m s ts' m₂) : ts = ts' := by
  induction h generalizing ts' with
  -- both runs scan the same token, so they stop or go on together
  | stop hs ht hf =>
    cases h' with
    | stop hs' _ _ =>
      rw [hs] at hs'
      cases hs'
      rfl
    | step hs' ht' _ _ =>
      rw [hs] at hs'
      cases hs'
      exact absurd ht ht'
  | step hs ht hf _ ih =>
    cases h' with
    | stop hs' ht' _ =>
      rw [hs] at hs'
      cases hs'
      exact absurd ht' ht
    | step hs' _ hf' h' =>
      rw [hs] at hs'
      cases hs'
      rw [hf] at hf'
      cases hf'
      rw [ih h']

end Runs

theorem accepts_illegal (x : Mode) : x.accepts .illegal = false := by
  cases x <;> rfl

/-- Tokens without a context that the machine takes are read as they are in context. -/
theorem runs_of_feedAll {m m' : Machine} {s : Source} (hc : s.stringsClosed = true)
    (h : m.feedAll s.tokens = .ok m') : Runs m s s.tokens m' := by
  fun_induction Source.tokens s generalizing m with
  | case1 s hs =>
    rw [Source.token_of_eq_nil hs] at h ⊢
    obtain ⟨m₁, hf, hr⟩ := Machine.exists_feed h
    cases hr
    exact .stop (Source.scan_of_eq_nil hs) rfl hf
  | case2 s hs ih =>
    obtain ⟨c, cs, hr⟩ := List.exists_cons_of_ne_nil hs
    obtain ⟨hq, hc⟩ := (Source.stringsClosed_of_eq_cons hr).1 hc
    rw [Source.token_of_eq_cons hr] at h ih ⊢
    obtain ⟨m₁, hf, h⟩ := Machine.exists_feed h
    have he := (Source.kind_tokenAt s.skipSpace c cs).1
    have ha := (steps_feed m _ m₁ hf).allowed he
    -- The machine took the token, so its mode tries it, and no other reading comes before it.
    have hscan : s.scan m.mode.accepts =
        .token (s.skipSpace.tokenAt c cs).1 (s.skipSpace.tokenAt c cs).2 := by
      have hx := Source.inContext_scanAt m.mode.accepts s.skipSpace c cs
      rw [Source.scan_of_eq_cons hr]
      generalize s.skipSpace.scanAt m.mode.accepts c cs = r at hx
      cases hx with
      | same _ => rfl
      | name _ _ hn => rw [ha] at hn; cases hn
      | half _ _ _ hn => rw [ha] at hn; cases hn
      | stray hn =>
        rcases hn with hi | ⟨hc, hn⟩
        · rw [hi, accepts_illegal] at ha
          cases ha
        · exact absurd (hq hc) hn
    exact .step hscan he hf (ih hc h)

/-- An `=` where an operand must stand stops the machine. -/
theorem not_runs_equals {m m' : Machine} {s : Source} {ts : List Token} {cs : List Char}
    (hm : m.mode = .operand) (hs : s.rest = '=' :: cs) : ¬ Runs m s ts m' := by
  have hr : s.skipSpace.rest = '=' :: cs := by
    rw [Source.rest_skipSpace, hs]
    rfl
  -- whatever the context, an `=` is scanned as one of two kinds
  have hk : ∀ t s', s.scan m.mode.accepts = .token t s' → t.kind = .eq ∨ t.kind = .assign := by
    intro t s' h
    rw [Source.scan_of_eq_cons hr] at h
    have h : s.skipSpace.operatorAt m.mode.accepts .eq .assign '=' cs = .token t s' := h
    unfold Source.operatorAt at h
    split at h
    · split at h <;> cases h
      · exact .inl rfl
      · exact .inr rfl
    · cases h
      exact .inr rfl
  -- and the machine takes neither where an operand is due
  have hf : ∀ t s' m₁, s.scan m.mode.accepts = .token t s' → m.feed t ≠ .ok m₁ := by
    intro t s' m₁ h hf
    have hn : t.kind ≠ .eof := by
      rcases hk t s' h with hk | hk <;> rw [hk] <;> decide
    have ha := (steps_feed m t m₁ hf).allowed hn
    rw [hm] at ha
    rcases hk t s' h with hk | hk <;> rw [hk] at ha <;> exact absurd ha (by decide)
  intro h
  cases h with
  | stop h _ hf' => exact hf _ _ _ h hf'
  | step h _ hf' _ => exact hf _ _ _ h hf'

/-- The tokens of a run are those without a context, up to keywords that were taken for names, and
every string is closed. -/
theorem Runs.tokens_eq {m m' : Machine} {s : Source} {ts : List Token} (h : Runs m s ts m') :
    s.tokens = ts.map Token.plain ∧ s.stringsClosed = true := by
  induction h with
  | @stop m m' s s' t hs ht _ =>
    -- the end comes only where no character is left
    cases hr : s.skipSpace.rest with
    | nil =>
      rw [Source.scan_of_eq_nil hr] at hs
      cases hs
      exact ⟨Source.tokens_of_eq_nil hr, Source.stringsClosed_of_eq_nil hr⟩
    | cons c cs =>
      have hx := Source.inContext_scanAt m.mode.accepts s.skipSpace c cs
      rw [← Source.scan_of_eq_cons hr, hs] at hx
      cases hx with
      | same _ => exact absurd ht (Source.kind_tokenAt s.skipSpace c cs).1
      | name _ _ _ => cases ht
      | @half k _ _ hk _ _ =>
        obtain rfl : k = .eof := ht
        exact absurd hk (by decide)
  | @step m m₁ m' s s' t ts hs ht hf h ih =>
    obtain ⟨ih, ihc⟩ := ih
    cases hr : s.skipSpace.rest with
    | nil =>
      rw [Source.scan_of_eq_nil hr] at hs
      cases hs
      exact absurd rfl ht
    | cons c cs =>
      have hx := Source.inContext_scanAt m.mode.accepts s.skipSpace c cs
      rw [← Source.scan_of_eq_cons hr, hs] at hx
      rw [Source.tokens_of_eq_cons hr, Source.stringsClosed_of_eq_cons hr, List.map_cons]
      cases hx with
      | same hq =>
        have hp := Token.plain_eq_iff.2 (Source.kind_tokenAt s.skipSpace c cs).2
        rw [hp, ih]
        exact ⟨rfl, hq, ihc⟩
      | name hq hw _ =>
        -- without a context the name is the keyword that it is spelled as
        generalize s.skipSpace.tokenAt c cs = x at *
        obtain ⟨⟨k, word, p⟩, s'⟩ := x
        have hw : Kind.keyword? word = some k := hw
        refine ⟨?_, fun h => absurd h hq, ihc⟩
        rw [Token.plain, if_pos rfl, ih]
        show _ = (⟨Kind.ofWord word, word, p⟩ : Token) :: _
        rw [Kind.ofWord, hw]
        rfl
      | half _ hk hc _ =>
        -- an operand follows the first half, and the second half begins none
        have ho := (steps_feed m _ m₁ hf).operand hk
        exact absurd h (not_runs_equals ho hc)

end Grammar

end MonkeyLang
