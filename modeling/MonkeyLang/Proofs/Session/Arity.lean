import MonkeyLang.Proofs.Eval.Lockstep
import MonkeyLang.Proofs.Session.Batch

/-!
# Refusing calls with the wrong number of arguments

A session may be strict about the number of arguments of a call. Main statement: `runIn_withArity`
says that a strict run is the lenient one, or ends at a call that it refuses; up to there both do the
same, so what it printed is the beginning of what the lenient run prints.
-/

namespace MonkeyLang

variable {α β : Type}

/-! ## Logs that go on -/

/-- The log on the right goes on where the one on the left ends. -/
def Log.Continues (log log' : Log) : Prop :=
  ∃ more, log' = log ++ more

namespace Log.Continues

theorem refl (log : Log) : log.Continues log :=
  ⟨#[], Array.append_empty.symm⟩

theorem trans {log₁ log₂ log₃ : Log} (h₁ : log₁.Continues log₂) (h₂ : log₂.Continues log₃) :
    log₁.Continues log₃ := by
  obtain ⟨more₁, rfl⟩ := h₁
  obtain ⟨more₂, rfl⟩ := h₂
  exact ⟨more₁ ++ more₂, Array.append_assoc⟩

theorem of_eq {o o' : Outcome α} (h : o' = o) : o.machine.log.Continues o'.machine.log := by
  rw [h]
  exact .refl _

end Log.Continues

namespace Run

/-- A run that does not look at the log only adds to it. -/
theorem IgnoresLog.continues {r : Run α} (h : r.IgnoresLog) (m : Machine) :
    m.log.Continues (r m).machine.log := by
  have hm : m = Machine.behind { store := m.store } m.log := by
    rw [Machine.behind, Array.append_empty]
  refine ⟨(r { store := m.store }).machine.log, ?_⟩
  conv => lhs; rw [hm, h]
  cases r { store := m.store } <;> rfl

variable {m : Machine}

/-- What comes behind a run adds to the log of that run. -/
theorem continues_bind {r : Run α} {f : α → Run β} (hf : ∀ a, (f a).IgnoresLog) :
    (r m).machine.log.Continues ((r >>= f) m).machine.log := by
  cases h : r m with
  | done a m₁ =>
    rw [bind_of_done h]
    exact (hf a).continues m₁
  | halted e m₁ =>
    rw [bind_of_halted h]
    exact .refl _

theorem continues_unlessError {r : Run Value} {next : Value → Run Value}
    (hn : ∀ v, (next v).IgnoresLog) :
    (r m).machine.log.Continues (unlessError r next m).machine.log :=
  continues_bind fun v => .ite (.pure v) (hn v)

end Run

namespace InTurn

variable {inner : Evaluator} {scope : ScopeId} {ts : List Program} {t : Program} {m m₁ : Machine}

/-- Induction on the way to the statement `t`: those behind it only add to the log that it leaves.
-/
theorem continues_statements (hi : ∀ t scope, (inner t scope).IgnoresLog)
    (h : InTurn inner scope Value.completes ts m t m₁) (last : Value) :
    (inner t scope m₁).machine.log.Continues
      (Eval.statements inner scope last ts m).machine.log := by
  induction h generalizing last with
  | here =>
    rw [Eval.statements_cons]
    exact Run.continues_bind fun v => .ite (Eval.ignoresLog_statements hi _ _ v) (.pure v)
  | later hv hc _ ih =>
    rw [Eval.statements_cons, Run.bind_of_done hv, if_pos hc]
    exact ih _

/-- The same for operands and arguments. -/
theorem continues_expressions (hi : ∀ t scope, (inner t scope).IgnoresLog)
    (h : InTurn inner scope (fun v => !v.isError) ts m t m₁) :
    (inner t scope m₁).machine.log.Continues
      (Eval.expressions inner scope ts m).machine.log := by
  induction h with
  | here =>
    refine Run.continues_bind fun v => ?_
    split
    · exact .pure _
    · exact .bind (Eval.ignoresLog_expressions hi _ _) fun _ => .pure _
  | later hv hc _ ih =>
    rw [Bool.not_eq_true'] at hc
    rw [Eval.expressions_cons_of_done inner scope hv hc]
    exact ih.trans (Run.continues_bind fun _ => .pure _)

end InTurn

section

variable {settings : Settings} {place : Place} {a b : Activation}

/-- Whatever is evaluated, the log is only added to. -/
theorem Activation.continues (settings : Settings) (a : Activation) :
    a.machine.log.Continues (a.outcome settings).machine.log := by
  obtain ⟨n, task, m⟩ := a
  cases task with
  | node t scope => exact (ignoresLog_eval settings n t scope).continues m
  | call f vs => exact (Eval.ignoresLog_call (ignoresLog_eval settings n) settings f vs).continues m
  | builtin b vs => exact (Eval.ignoresLog_builtin b vs).continues m

/-- What an activation logs is in the log of the one that began it. -/
theorem Begins.continues (h : Begins settings place a b) :
    (b.outcome settings).machine.log.Continues (a.outcome settings).machine.log := by
  have hi (n : Nat) (t : Program) (scope : ScopeId) : (eval settings n t scope).IgnoresLog :=
    ignoresLog_eval settings n t scope
  have hlast := h.outcome_last
  cases h with
  | programStatement ht =>
    exact (ht.continues_statements (hi _) .null).trans (Run.continues_bind fun _ => .pure _)
  | blockStatement ht => exact ht.continues_statements (hi _) .null
  | letValue =>
    refine Run.continues_unlessError fun v => .bind (.ofLabel _) fun _ => ?_
    exact .bind (.bindName _ _ _) fun _ => .bind (.note _ _) fun _ => .pure _
  | returnValue hm =>
    rw [Activation.outcome_node, Activation.outcome_node, Eval.eval_returnStatement hm]
    exact Run.continues_unlessError fun _ => .pure _
  | prefixOperand => exact Run.continues_unlessError fun _ => .pure _
  | leftOperand =>
    exact Run.continues_unlessError fun _ => .unlessError (hi _ _ _) fun _ => .ofLabel _
  -- behind the right operand there is only the operator, before it the left one
  | rightOperand hl hv =>
    exact (Run.continues_unlessError fun _ => .ofLabel _).trans
      (.of_eq (Run.unlessError_of_done hl hv))
  | @condition n c t e scope m =>
    refine Run.continues_unlessError fun v => .bind (.note _ _) fun _ => .ite (hi _ _ _) ?_
    cases e with
    | missing => exact .pure _
    | _ => exact hi _ _ _
  | @callee n f as scope m =>
    refine Run.continues_unlessError fun f => .bind (Eval.ignoresLog_expressions (hi n) _ _) ?_
    intro r
    cases r with
    | error _ => exact .pure _
    | ok vs => exact Eval.ignoresLog_call (hi n) settings f vs
  -- behind the arguments there is the call, before them the callee
  | @argument n f t as scope m m₁ m₂ v hf hv ht =>
    refine (ht.continues_expressions (hi n)).trans (.trans ?_ (.of_eq (Run.unlessError_of_done hf hv)))
    refine Run.continues_bind fun r => ?_
    cases r with
    | error _ => exact .pure _
    | ok vs => exact Eval.ignoresLog_call (hi n) settings v vs
  | body hp hn hx =>
    rw [Activation.outcome_call, Eval.call_function hp, Run.bind_of_done hn, Run.bind_of_done hx]
    exact Run.continues_bind fun _ => .pure _
  -- the parts that come last
  | expression | consequence | alternative | application | builtin =>
    exact .of_eq (hlast (by decide))

/-- What was logged when an activation was come to, at any depth, is in the log at the end. -/
theorem Performs.continues (h : Performs settings a b) :
    b.machine.log.Continues (a.outcome settings).machine.log := by
  refine (Activation.continues settings b).trans ?_
  induction h using Relation.ReflTransGen.head_induction_on with
  | refl => exact .refl _
  | head hb _ ih =>
    obtain ⟨place, hb⟩ := hb
    exact ih.trans hb.continues

end

/-! ## Strict and lenient -/

/-- The settings with another answer to calls with the wrong number of arguments. -/
def Settings.withArity (settings : Settings) (strict : Bool) : Settings :=
  { settings with strictArity := strict }

/-- An activation ends alike with strict and with lenient settings, or it comes to a call that the
strict ones refuse, which ends it there. -/
theorem Activation.outcome_withArity (settings : Settings) (a : Activation) :
    a.outcome (settings.withArity true) = a.outcome (settings.withArity false) ∨
      ∃ n ps b scope vs m, vs.length ≠ ps.length ∧
        Performs (settings.withArity true) a ⟨n, .call (.function ps b scope) vs, m⟩ ∧
        a.outcome (settings.withArity true) =
          .done (.error (.wrongArity .function vs.length ps.length)) m ∧
        m.log.Continues (a.outcome (settings.withArity false)).machine.log := by
  -- both make the same notes
  have hextra (n : Note) : n.isExtra (settings.withArity true) (settings.withArity false) = false := by
    rw [Note.isExtra, Bool.and_eq_false_iff, decide_eq_false_iff_not, decide_eq_false_iff_not]
    exact (Nat.lt_or_ge settings.verbosity n.level).symm.imp Nat.not_lt.2 Nat.not_le.2
  by_cases hp : a.Parted (settings.withArity true) (settings.withArity false)
  · obtain ⟨c, hc₁, hc₂, hc⟩ := hp
    rw [shared_eq_self hextra, shared_eq_self hextra] at hc₂
    refine .inr ?_
    cases hc with
    | untold _ he _ => rw [hextra] at he; cases he
    | @arity n ps b scope vs m _ hl =>
      have hstop : outcome (settings.withArity true) ⟨n, .call (.function ps b scope) vs, m⟩ =
          .done (.error (.wrongArity .function vs.length ps.length)) m := by
        rw [outcome_call, Eval.call_function_of_ne ⟨rfl, hl⟩]
        rfl
      refine ⟨n, ps, b, scope, vs, m, hl, hc₁, ?_, hc₂.continues⟩
      rw [hc₁.outcome_eq (by rw [hstop]; rfl), hstop]
  · have hv : (settings.withArity false).verbosity ≤ (settings.withArity true).verbosity :=
      Nat.le_refl _
    have h := outcome_shared hv hp
    rw [shared_eq_self hextra, Outcome.shared_eq_self hextra] at h
    exact .inl h.symm

namespace Session

def withArity (s : Session) (strict : Bool) : Session :=
  { s with settings := s.settings.withArity strict }

/-- The run of a strict session ends at a call of a function that it refuses. What it printed is the
beginning of `out`, but for the line about the failure that a closed trace leaves to the output. -/
def Refuses (s : Session) (scope : ScopeId) (p : Program) (budget : Nat) (out : String) : Prop :=
  ∃ n ps b i vs m, vs.length ≠ ps.length ∧
    Performs s.settings (s.opening scope p budget) ⟨n, .call (.function ps b i) vs, m⟩ ∧
    (s.runIn scope p budget).1.result =
      .ok (.error (.wrongArity .function vs.length ps.length)) ∧
    ∃ printed more, (s.runIn scope p budget).1.out =
        printed ++ s.failureLine (.wrongArity .function vs.length ps.length) ∧
      out = printed ++ more

/-- A run is the same in a strict and in a lenient session, unless the strict one ends at a call. -/
theorem runIn_withArity_cases (s : Session) (scope : ScopeId) (p : Program) (budget : Nat) :
    ((s.withArity true).runIn scope p budget).1 = ((s.withArity false).runIn scope p budget).1 ∧
        ((s.withArity true).runIn scope p budget).2.store =
          ((s.withArity false).runIn scope p budget).2.store ∨
      (s.withArity true).Refuses scope p budget
        ((s.withArity false).runIn scope p budget).1.out := by
  obtain h | ⟨n, ps, b, i, vs, m, hl, hc, hstop, more, hlog⟩ :=
    (s.opening scope p budget).outcome_withArity s.settings
  · -- the closing note does not depend on the strictness
    have he : evaluate (s.settings.withArity true) p scope budget { store := s.store } =
        evaluate (s.settings.withArity false) p scope budget { store := s.store } :=
      Run.bind_congr h fun v m _ => rfl
    refine .inl ?_
    show (finish _ (evaluate _ _ _ _ _)).1 = (finish _ (evaluate _ _ _ _ _)).1 ∧
      (finish _ (evaluate _ _ _ _ _)).2.store = (finish _ (evaluate _ _ _ _ _)).2.store
    exact ⟨congrArg (fun o => (s.finish o).1) he, congrArg (fun o => (s.finish o).2.store) he⟩
  · refine .inr ⟨n, ps, b, i, vs, m, hl, hc, ?_, s.output m.log, ?_⟩
    · rw [runIn_of_done hstop]
      rfl
    · obtain ⟨rest, hrest⟩ : Log.Continues m.log
          (evaluate (s.settings.withArity false) p scope budget { store := s.store }).machine.log := by
        refine .trans ⟨more, hlog⟩ (Run.continues_bind fun v => ?_)
        cases v with
        | error f => exact .bind (.note _ _) fun _ => .pure _
        | _ => exact .pure _
      refine ⟨s.output rest, ?_, ?_⟩
      · rw [runIn_of_done hstop]
        exact (s.withArity true).output_closingLog m.log _
      · rw [← output_append, ← hrest]
        rfl

/-- If a lenient run has a value, so has the strict one: it is the same run, or it ends at a call of
a function that it refuses. And a strict run that does not end in such a failure is the lenient
one. -/
theorem runIn_withArity (s : Session) (scope : ScopeId) (p : Program) (budget : Nat) :
    let lenient := (s.withArity false).runIn scope p budget
    let strict := (s.withArity true).runIn scope p budget
    (∀ v, lenient.1.result = .ok v →
      (∃ w, strict.1.result = .ok w) ∧
        (strict.1 = lenient.1 ∧ strict.2.store = lenient.2.store ∨
          (s.withArity true).Refuses scope p budget lenient.1.out)) ∧
    ∀ w, strict.1.result = .ok w →
      (∀ got want, got ≠ want → w ≠ .error (.wrongArity .function got want)) →
      lenient.1 = strict.1 ∧ lenient.2.store = strict.2.store := by
  intro lenient strict
  have hcases := s.runIn_withArity_cases scope p budget
  refine ⟨fun v hv => ⟨?_, hcases⟩, fun w hw hne => ?_⟩
  · obtain ⟨he, -⟩ | ⟨n, ps, b, i, vs, m, -, -, hr, -⟩ := hcases
    · exact ⟨v, he ▸ hv⟩
    · exact ⟨_, hr⟩
  · obtain ⟨he, hs⟩ | ⟨n, ps, b, i, vs, m, hl, -, hr, -⟩ := hcases
    · exact ⟨he.symm, hs.symm⟩
    -- the strict run ended in the refusal, which is ruled out
    · cases hw.symm.trans hr
      exact absurd rfl (hne _ _ hl)

/-- A function of two parameters is called with one argument inside the argument of a call. The
lenient run has a value, and the strict one ends inside of the argument. -/
theorem runIn_withArity_nestedCall :
    let puts (es : List Program) : Program := .call (.identifier (.string "puts")) es
    let f : Program := .function [.string "x", .string "y"]
      (.block [.expressionStatement (puts [.identifier (.string "x")])])
    let p : Program := .program
      [.letStatement (.string "f") f, .expressionStatement (puts [.integer 1]),
        .expressionStatement (puts [.call (.identifier (.string "f")) [.integer 2]])]
    let lenient := ((start {}).withArity false).runIn 1 p 20
    lenient.1.result = .ok .null ∧
      ((start {}).withArity true).Refuses 1 p 20 lenient.1.out := by
  intro puts f p lenient
  have hv : lenient.1.result = .ok .null := rfl
  obtain ⟨-, ⟨he, -⟩ | hr⟩ := (runIn_withArity (start {}) 1 p 20).1 _ hv
  · have hstrict : (((start {}).withArity true).runIn 1 p 20).1.result =
        .ok (.error (.wrongArity .function 1 2)) := rfl
    rw [he] at hstrict
    cases hv.symm.trans hstrict
  · exact ⟨hv, hr⟩

/-- With a closed trace the note about the failure is printed, so the output of the strict run need
not be the beginning of that of the lenient one. -/
theorem runIn_withArity_closedTrace :
    let s := (start { verbosity := 1 }).close
    let p : Program := .program
      [.expressionStatement (.call (.function [.string "x"] (.block [])) [])]
    let lenient := (s.withArity false).runIn 1 p 20
    let strict := (s.withArity true).runIn 1 p 20
    lenient.1.result = .ok .null ∧
      strict.1.result = .ok (.error (.wrongArity .function 0 1)) ∧
      strict.1.out = lineOf (Note.failed (.wrongArity .function 0 1)).text ∧ lenient.1.out = "" ∧
      ∀ more, lenient.1.out ≠ strict.1.out ++ more := by
  intro s p lenient strict
  have hs : strict.1.out = lineOf (Note.failed (.wrongArity .function 0 1)).text :=
    String.empty_append
  have hl : lenient.1.out = "" := rfl
  refine ⟨rfl, rfl, hs, hl, fun more h => ?_⟩
  rw [hl, hs, lineOf] at h
  simpa using congrArg String.toList h

end Session

end MonkeyLang
