import MonkeyLang.Proofs.Eval.Logging
import MonkeyLang.Proofs.Grammar.FrontEnds
import MonkeyLang.Proofs.Session.Failure
import MonkeyLang.Proofs.Syntax.Appended

/-!
# Programs at once and one after the other

A text may be cut behind a semicolon that ends a statement of its program. Reading the whole text
gives the statements of both parts, and, if those of the first part all complete, running it at once
leaves what running one part after the other leaves: the same session, the same output and the same
result (`Session.run_joined`).
-/

namespace MonkeyLang

/-! ## Texts -/

/-- The tokens of a text whose last one is a semicolon, and those of a longer text. -/
theorem exists_tokenize_append {text₁ : String}
    (hs : (tokenize text₁).dropLast.getLast?.map Token.kind = some .semicolon) (text₂ : String) :
    ∃ ts semi e us, semi.kind = .semicolon ∧ tokenize text₁ = ts ++ [semi, e] ∧
      tokenize (text₁ ++ text₂) = ts ++ semi :: us ∧
      us.map Token.lexeme = (tokenize text₂).map Token.lexeme := by
  obtain ⟨pieces, last, hp⟩ := Source.exists_partition (Source.ofString text₁) []
  have h₁ : tokenize text₁ = _ := hp.tokens_eq
  rw [h₁, List.dropLast_concat, List.getLast?_map, Option.map_map] at hs
  obtain ⟨q, hq, hk⟩ := Option.map_eq_some_iff.1 hs
  -- the last piece is a semicolon, which no other character prolongs
  have h₂ := hp.tokens_append (fun r hr => by rw [hq] at hr; cases hr; exact hk) text₂.toList
  obtain ⟨init, rfl⟩ := List.getLast?_eq_some_iff.1 hq
  refine ⟨init.map Piece.token, q.token, ⟨.eof, "", placeBehind text₁.toList⟩,
    (⟨text₂.toList, placeBehind text₁.toList⟩ : Source).tokens, hk, ?_, ?_, ?_⟩
  · rw [h₁, List.map_append, List.append_assoc]
    rfl
  · rw [List.map_append, List.append_assoc] at h₂
    rw [tokenize, Source.ofString, String.toList_append]
    exact h₂
  · exact Source.map_lexeme_tokens_congr rfl

/-- A text behind one that ends with a semicolon and has its blocks closed: the whole text has the
statements of both. -/
theorem parseTokens?_tokenize_append {n : Nat} {text₁ text₂ : String} {ss₁ ss₂ : List Code}
    (h₁ : parseTokens? n (tokenize text₁) = some ⟨.program ss₁, []⟩)
    (hs : (tokenize text₁).dropLast.getLast?.map Token.kind = some .semicolon)
    (hb : (tokenize text₁).countP (·.kind = .lbrace) = (tokenize text₁).countP (·.kind = .rbrace))
    (h₂ : parseTokens? n (tokenize text₂) = some ⟨.program ss₂, []⟩) :
    parseTokens? n (tokenize (text₁ ++ text₂)) = some ⟨.program (ss₁ ++ ss₂), []⟩ := by
  have he₁ : Ended (tokenize text₁) := Source.ended_tokens _
  have he₂ : Ended (tokenize text₂) := Source.ended_tokens _
  have hb' : braceSurplus (tokenize text₁) = 0 := by
    rw [braceSurplus_eq_count, hb]
    omega
  obtain ⟨ts, semi, e, us, hsemi, ht₁, ht, hus⟩ := exists_tokenize_append hs text₂
  rw [ht₁] at he₁ h₁ hb'
  rw [ht]
  exact parseTokens?_append hsemi he₁ hb' h₁ he₂ h₂ hus

/-! ## Evaluations -/

theorem Tree.toProgram_program (ss : List Code) :
    (Tree.program ss).toProgram = .program (ss.map toProgram) := by
  have h : mapLabelsEach .string ss = ss.map toProgram := by
    induction ss with
    | nil => rfl
    | cons t ts ih => rw [mapLabelsEach, ih, List.map_cons, toProgram]
  rw [toProgram, mapLabels, h]

namespace Eval

/-- Each of the statements, one after the other, has a value that is neither a failure nor a
`return`. -/
def AllComplete (inner : Evaluator) (scope : ScopeId) : List Program → Machine → Prop
  | [], _ => True
  | s :: ss, m =>
    ∃ v m₁, inner s scope m = .done v m₁ ∧ v.completes = true ∧ AllComplete inner scope ss m₁

variable {inner : Evaluator} {scope : ScopeId} {ss : List Program} {m : Machine}

/-- Statements that complete come first, and the others go on where they ended. -/
theorem AllComplete.statements_append (h : AllComplete inner scope ss m) (last : Value)
    (hl : last.completes = true) :
    ∃ v m₁, v.completes = true ∧
      ∀ rest, statements inner scope last (ss ++ rest) m = statements inner scope v rest m₁ := by
  induction ss generalizing last m with
  | nil => exact ⟨last, m, hl, fun _ => rfl⟩
  | cons s ss ih =>
    obtain ⟨v, m₁, hv, hc, hrest⟩ := h
    obtain ⟨w, m₂, hw, ih⟩ := ih hrest v hc
    refine ⟨w, m₂, hw, fun rest => ?_⟩
    rw [List.cons_append, statements_cons, Run.bind_of_done hv, if_pos hc]
    exact ih rest

end Eval

/-! ## Runs -/

/-- What follows a run depends on its end only. -/
theorem Run.andThen_congr {α β : Type} {r r' : Run α} {f : α → Run β} {m m' : Machine}
    (h : r m = r' m') : (r >>= f) m = (r' >>= f) m' := by
  show andThen r f m = andThen r' f m'
  rw [andThen, andThen, h]

namespace Session

theorem ignoresLog_evaluate (settings : Settings) (t : Program) (scope : ScopeId) (budget : Nat) :
    Run.IgnoresLog (evaluate settings t scope budget) := by
  refine .bind (ignoresLog_eval settings budget t scope) fun v => ?_
  cases v with
  | error f => exact .bind (.note _ _) fun _ => .pure _
  | _ => exact .pure _

/-- What a log leaves in the trace. -/
def traced (s : Session) (log : Log) : String :=
  if s.tracing then log.notes else ""

theorem output_append (s : Session) (log log' : Log) :
    s.output (log ++ log') = s.output log ++ s.output log' := by
  unfold output
  split
  · exact Log.printed_append log log'
  · exact Log.everything_append log log'

theorem traced_append (s : Session) (log log' : Log) :
    s.traced (log ++ log') = s.traced log ++ s.traced log' := by
  unfold traced
  split
  · exact Log.notes_append log log'
  · exact String.append_empty.symm

/-- What was logged before a run comes before what it leaves behind, and changes nothing else. -/
theorem finish_behind (s : Session) (log : Log) (o : Outcome Value) :
    s.finish (o.behind log) =
      (⟨(s.finish o).1.result, s.output log ++ (s.finish o).1.out,
        s.traced log ++ (s.finish o).1.trace⟩, (s.finish o).2) := by
  cases o with
  | done v m | halted h m =>
    show (Execution.mk _ (s.output (log ++ m.log)) (s.traced (log ++ m.log)), _) = _
    rw [output_append, traced_append]
    rfl

variable {s : Session} {ss₁ ss₂ : List Program} {budget : Nat}

theorem eval_program (settings : Settings) (budget : Nat) (ss : List Program) (scope : ScopeId) :
    eval settings (budget + 1) (.program ss) scope = (do
      return (← Eval.statements (eval settings budget) scope .null ss).unwrapped) := rfl

/-- A value that goes on is no failure, so nothing is noted of it. -/
theorem closingLog_of_completes {v : Value} (h : v.completes = true) (settings : Settings)
    (log : Log) : closingLog settings log v = log := by
  cases v with
  | error f => cases h
  | _ => rfl

/-- A program whose first statements all complete is run as those alone, and then as the others alone
in the session that they leave. -/
theorem run_append (h : Eval.AllComplete (eval s.settings budget) s.globals ss₁ { store := s.store }) :
    let first := s.run (.program ss₁) (budget + 1)
    let second := first.2.run (.program ss₂) (budget + 1)
    let both := s.run (.program (ss₁ ++ ss₂)) (budget + 1)
    both.2 = second.2 ∧ both.1.out = first.1.out ++ second.1.out ∧
      both.1.trace = first.1.trace ++ second.1.trace ∧
      both.1.result = if ss₂ = [] then first.1.result else second.1.result := by
  intro first second both
  obtain ⟨v, m, hv, hstatements⟩ := h.statements_append .null rfl
  have hfirst : first = s.finish (.done v m) := by
    have hs := hstatements []
    rw [List.append_nil] at hs
    have he : eval s.settings (budget + 1) (.program ss₁) s.globals { store := s.store } =
        .done v m := by
      rw [eval_program, Run.bind_of_done hs,
        Value.unwrapped_of_not_returned (Value.completes_iff.1 hv).1]
      rfl
    show s.finish (evaluate _ _ _ _ _) = _
    rw [evaluate_of_done he, closingLog_of_completes hv]
  have hsecond : second =
      s.finish (evaluate s.settings (.program ss₂) s.globals (budget + 1) { store := m.store }) := by
    show first.2.run _ _ = _
    rw [hfirst]
    rfl
  have hm : m = Machine.behind { store := m.store } m.log := by
    rw [Machine.behind, Array.append_empty]
  cases ss₂ with
  | nil =>
    have hboth : both = first := by
      show s.run (.program (ss₁ ++ [])) _ = _
      rw [List.append_nil]
    have hout : s.output #[] = "" := by
      cases hs : s.tracing <;> simp [output, hs, Log.printed, Log.everything]
    have htrace : s.traced #[] = "" := by
      cases hs : s.tracing <;> simp [traced, hs, Log.notes]
    have he : evaluate s.settings (.program []) s.globals (budget + 1) { store := m.store } =
        .done .null { store := m.store } := rfl
    rw [hboth, hsecond, hfirst, he]
    refine ⟨rfl, ?_, ?_, rfl⟩
    · show _ = _ ++ s.output #[]
      rw [hout, String.append_empty]
    · show _ = _ ++ s.traced #[]
      rw [htrace, String.append_empty]
  | cons t ts =>
    have hboth : both =
        s.finish (evaluate s.settings (.program (t :: ts)) s.globals (budget + 1) m) := by
      have he : eval s.settings (budget + 1) (.program (ss₁ ++ t :: ts)) s.globals
          { store := s.store } =
          eval s.settings (budget + 1) (.program (t :: ts)) s.globals m := by
        -- The value before the first statement does not matter, since there is a statement.
        have hnull : Eval.statements (eval s.settings budget) s.globals v (t :: ts) =
            Eval.statements (eval s.settings budget) s.globals .null (t :: ts) := rfl
        rw [eval_program, eval_program, ← hnull]
        exact Run.andThen_congr (hstatements (t :: ts))
      show s.finish (evaluate _ _ _ _ _) = _
      unfold evaluate
      exact congrArg s.finish (Run.andThen_congr he)
    rw [hm, ignoresLog_evaluate, finish_behind, ← hsecond] at hboth
    rw [hboth, hfirst, if_neg (List.cons_ne_nil t ts)]
    exact ⟨rfl, rfl, rfl, rfl⟩

/-- Two accepted texts, the first of which ends with a semicolon and has as many closing braces as
opening ones. The text of both has the statements of both. If the statements of the first text all
complete in a session, running the text of both at once leaves the session, the output and the trace
of running one text after the other, and it has the result of the last one with a statement. -/
theorem run_joined {n : Nat} {text₁ text₂ : String} {ss₁ ss₂ : List Code}
    (h₁ : parseTokens? n (tokenize text₁) = some ⟨.program ss₁, []⟩)
    (hs : (tokenize text₁).dropLast.getLast?.map Token.kind = some .semicolon)
    (hb : (tokenize text₁).countP (·.kind = .lbrace) = (tokenize text₁).countP (·.kind = .rbrace))
    (h₂ : parseTokens? n (tokenize text₂) = some ⟨.program ss₂, []⟩) :
    parseTokens? n (tokenize (text₁ ++ text₂)) = some ⟨.program (ss₁ ++ ss₂), []⟩ ∧
    ∀ (s : Session) (budget : Nat),
      Eval.AllComplete (eval s.settings budget) s.globals (ss₁.map Tree.toProgram)
        { store := s.store } →
      let first := s.run (Tree.program ss₁).toProgram (budget + 1)
      let second := first.2.run (Tree.program ss₂).toProgram (budget + 1)
      let both := s.run (Tree.program (ss₁ ++ ss₂)).toProgram (budget + 1)
      both.2 = second.2 ∧ both.1.out = first.1.out ++ second.1.out ∧
        both.1.trace = first.1.trace ++ second.1.trace ∧
        both.1.result = if ss₂ = [] then first.1.result else second.1.result := by
  refine ⟨parseTokens?_tokenize_append h₁ hs hb h₂, fun s budget hc => ?_⟩
  have h := @run_append s _ (ss₂.map Tree.toProgram) budget hc
  simpa only [Tree.toProgram_program, List.map_append, List.map_eq_nil_iff] using h

/-- A function is bound, and the second text starts with a parenthesis: behind another expression it
would be a call of that. -/
theorem run_joined_call :
    let letF : Code := .letStatement "f" (.function ["x"] (.block [.expressionStatement
      (.call (.identifier "puts") [.identifier "x"])]))
    let callF : Code := .expressionStatement (.call (.identifier "f") [.integer 2])
    let first := (start {}).run (Tree.program [letF]).toProgram 10
    let second := first.2.run (Tree.program [callF]).toProgram 10
    let both := (start {}).run (Tree.program [letF, callF]).toProgram 10
    parseTokens? 10 (tokenize ("let f = fn(x) \x7b puts(x) \x7d;" ++ "(f)(2)")) =
        some ⟨.program [letF, callF], []⟩ ∧
      both.2 = second.2 ∧ both.1.out = first.1.out ++ second.1.out ∧
      both.1.trace = first.1.trace ++ second.1.trace ∧ both.1.result = second.1.result := by
  intro letF callF first second both
  have h₁ : parseTokens? 10 (tokenize "let f = fn(x) \x7b puts(x) \x7d;") =
      some ⟨.program [letF], []⟩ := by decide +kernel
  have h₂ : parseTokens? 10 (tokenize "(f)(2)") = some ⟨.program [callF], []⟩ := by
    decide +kernel
  obtain ⟨hp, hr⟩ := run_joined h₁ (by decide +kernel) (by decide +kernel) h₂
  exact ⟨hp, hr (start {}) 9 ⟨_, _, rfl, rfl, trivial⟩⟩

end Session

end MonkeyLang
