import MonkeyLang.Proofs.Eval.Run

/-!
# The log of a run

A run only ever adds to the log, and it never looks at it. So what was logged before a run makes no
difference to it: `ignoresLog_eval`. That carries over to the texts that are made of a log, since each
of them has the lines of the entries in order (`Log.printed_append` and its like).
-/

namespace MonkeyLang

variable {α β : Type}

/-! ## Texts of logs -/

namespace Log

/-- Writing the entries of a log one after the other, each by its own text, only adds to what was
written before. -/
theorem foldl_text (f : Entry → String) (out : String) (log : Log) :
    log.foldl (fun out e => out ++ f e) out = out ++ log.foldl (fun out e => out ++ f e) "" := by
  obtain ⟨es⟩ := log
  simp only [List.size_toArray, List.foldl_toArray']
  -- The text so far comes through every entry unchanged, so it is generalized.
  induction es generalizing out with
  | nil => simp
  | cons e es ih =>
    rw [List.foldl_cons, List.foldl_cons, ih, ih ("" ++ f e), String.empty_append,
      String.append_assoc]

/-- So the text of two logs is that of the first and then that of the second. -/
theorem foldl_text_append (f : Entry → String) (log log' : Log) :
    (log ++ log').foldl (fun out e => out ++ f e) "" =
      log.foldl (fun out e => out ++ f e) "" ++ log'.foldl (fun out e => out ++ f e) "" := by
  rw [Array.foldl_append, foldl_text]

/-- The text of an entry, of which only the printed lines or only the notes may count. -/
def entryText (lines notes : Bool) : Entry → String
  | .printed line => if lines then lineOf line else ""
  | .note n => if notes then lineOf n.text else ""

/-- The printed text is written entry by entry, a note as nothing. -/
theorem printed_eq (log : Log) :
    log.printed = log.foldl (fun out e => out ++ entryText true false e) "" := by
  unfold printed
  congr 1
  funext out e
  cases e <;> simp [entryText]

/-- The text of the notes is written entry by entry, a printed line as nothing. -/
theorem notes_eq (log : Log) :
    log.notes = log.foldl (fun out e => out ++ entryText false true e) "" := by
  unfold notes
  congr 1
  funext out e
  cases e <;> simp [entryText]

/-- The text of all entries is written entry by entry. -/
theorem everything_eq (log : Log) :
    log.everything = log.foldl (fun out e => out ++ entryText true true e) "" := by
  unfold everything
  congr 1
  funext out e
  cases e <;> simp [entryText]

/-- What two logs printed, one after the other. -/
theorem printed_append (log log' : Log) : printed (log ++ log') = log.printed ++ log'.printed := by
  simp only [printed_eq, foldl_text_append]

/-- What two logs noted, one after the other. -/
theorem notes_append (log log' : Log) : notes (log ++ log') = log.notes ++ log'.notes := by
  simp only [notes_eq, foldl_text_append]

/-- What two logs hold, one after the other. -/
theorem everything_append (log log' : Log) :
    everything (log ++ log') = log.everything ++ log'.everything := by
  simp only [everything_eq, foldl_text_append]

end Log

/-! ## Runs behind another log -/

/-- The machine with other entries before those of its log. -/
def Machine.behind (m : Machine) (log : Log) : Machine :=
  { m with log := log ++ m.log }

def Outcome.behind (log : Log) : Outcome α → Outcome α
  | .done a m => .done a (m.behind log)
  | .halted h m => .halted h (m.behind log)

namespace Run

/-- What was logged before a run makes no difference to it. -/
def IgnoresLog (r : Run α) : Prop :=
  ∀ (log : Log) (m : Machine), r (m.behind log) = (r m).behind log

namespace IgnoresLog

theorem done (a : α) : IgnoresLog (Run.done a) :=
  fun _ _ => rfl

theorem pure (a : α) : IgnoresLog (Pure.pure a : Run α) :=
  fun _ _ => rfl

theorem halt (h : Halt) : IgnoresLog (Run.halt h : Run α) :=
  fun _ _ => rfl

/-- Parts that do not look at the log make a run that does not. -/
theorem bind {r : Run α} {f : α → Run β} (hr : IgnoresLog r) (hf : ∀ a, IgnoresLog (f a)) :
    IgnoresLog (r >>= f) := by
  intro log m
  have h := hr log m
  -- The first part ends alike behind any log, and the second one goes on from there.
  cases ho : r m with
  | done a m₁ =>
    rw [ho] at h
    rw [bind_of_done h, bind_of_done ho]
    exact hf a log m₁
  | halted e m₁ =>
    rw [ho] at h
    rw [bind_of_halted h, bind_of_halted ho]
    rfl

theorem ite {p : Prop} [Decidable p] {r r' : Run α} (h : IgnoresLog r) (h' : IgnoresLog r') :
    IgnoresLog (if p then r else r') := by
  split
  · exact h
  · exact h'

theorem ofExcept (r : Except Halt α) : IgnoresLog (Run.ofExcept r) := by
  cases r with
  | ok a => exact done a
  | error h => exact halt h

theorem ofLabel (r : Except LabelFault α) : IgnoresLog (Run.ofLabel r) :=
  ofExcept _

/-- An entry is added behind whatever is there. -/
theorem record (e : Entry) : IgnoresLog (Run.record e) := by
  intro log m
  show Outcome.done () _ = .done () _
  rw [Machine.behind, Machine.behind, Array.append_push]

/-- A note is made or not by the verbosity and the value in it. -/
theorem note (settings : Settings) (n : Note) : IgnoresLog (Run.note settings n) := by
  unfold Run.note
  refine ite ?_ (done ())
  split
  · exact record _
  · exact halt _

theorem lookup (name : Name) (scope : ScopeId) : IgnoresLog (Run.lookup name scope) :=
  fun _ _ => rfl

theorem bindName (scope : ScopeId) (name : Name) (value : Value) :
    IgnoresLog (Run.bindName scope name value) :=
  fun _ _ => rfl

theorem addScope (scope : Scope) : IgnoresLog (Run.addScope scope) :=
  fun _ _ => rfl

theorem unlessError {r : Run Value} {next : Value → Run Value} (hr : IgnoresLog r)
    (hn : ∀ v, IgnoresLog (next v)) : IgnoresLog (Run.unlessError r next) :=
  bind hr fun v => ite (pure v) (hn v)

end IgnoresLog

end Run

namespace Eval

open Run (IgnoresLog)

variable {inner : Evaluator} (hi : ∀ t scope, IgnoresLog (inner t scope))

include hi in
/-- A sequence, by the statements in it. -/
theorem ignoresLog_statements (scope : ScopeId) (ss : List Program) (last : Value) :
    IgnoresLog (statements inner scope last ss) := by
  induction ss generalizing last with
  | nil => exact .pure last
  | cons s ss ih =>
    rw [statements_cons]
    exact .bind (hi s scope) fun v => .ite (ih v) (.pure v)

include hi in
/-- A list of expressions, by each of them. -/
theorem ignoresLog_expressions (scope : ScopeId) (es : List Program) :
    IgnoresLog (expressions inner scope es) := by
  induction es with
  | nil => exact .pure _
  | cons e es ih =>
    refine .bind (hi e scope) fun v => ?_
    split
    · exact .pure _
    · exact .bind ih fun vs => .pure _

theorem ignoresLog_names (js : List Json) : IgnoresLog (names js) := by
  induction js with
  | nil => exact .pure _
  | cons j js ih => exact .bind (.ofLabel _) fun name => .bind ih fun xs => .pure _

/-- Printing adds lines, and looks at none. -/
theorem ignoresLog_printAll (vs : List Value) : IgnoresLog (printAll vs) := by
  induction vs with
  | nil => exact .pure _
  | cons v vs ih => exact .bind (.ofExcept _) fun line => .bind (.record _) fun _ => ih

/-- A builtin function, for every form of its arguments. -/
theorem ignoresLog_builtin (b : Builtin) (vs : List Value) : IgnoresLog (builtin b vs) := by
  unfold builtin
  split
  · exact .halt _
  · exact .pure _
  · exact .bind (.ofLabel _) fun _ => .pure _
  · exact .pure _
  · exact .bind (ignoresLog_printAll _) fun _ => .pure _

include hi in
/-- A call, of a function or of a builtin function or of what cannot be called. -/
theorem ignoresLog_call (settings : Settings) (f : Value) (vs : List Value) :
    IgnoresLog (call settings inner f vs) := by
  unfold call
  split
  · refine .ite (.pure _) (.bind (.note _ _) fun _ => .bind (ignoresLog_names _) fun xs => ?_)
    exact .bind (.addScope _) fun scope => .bind (hi _ scope) fun v => .pure _
  · split
    · exact .ite (.pure _) (.bind (.note _ _) fun _ => ignoresLog_builtin _ _)
    · exact .bind (.note _ _) fun _ => ignoresLog_builtin _ _
  · exact .pure _

include hi in
/-- One case for each kind of node. -/
theorem ignoresLog_step (settings : Settings) (t : Program) (scope : ScopeId) :
    IgnoresLog (step settings inner t scope) := by
  cases t with
  | missing => exact .halt _
  | program ss => exact .bind (ignoresLog_statements hi scope ss _) fun v => .pure _
  | block ss => exact ignoresLog_statements hi scope ss _
  | expressionStatement e => exact hi e scope
  | letStatement name e =>
    refine .unlessError (hi e scope) fun v => .bind (.ofLabel _) fun x => ?_
    exact .bind (.bindName _ _ _) fun _ => .bind (.note _ _) fun _ => .pure _
  | returnStatement e =>
    cases e with
    | missing => exact .pure _
    | _ => exact .unlessError (hi _ scope) fun v => .pure _
  | integer | string | boolean | function => exact .pure _
  | identifier name =>
    refine .bind (.ofLabel _) fun x => .bind (.lookup x scope) fun v => ?_
    cases v <;> exact .pure _
  | prefixed o e => exact .unlessError (hi e scope) fun v => .pure _
  -- no node looks at the log, so the cases only follow the parts
  | infixed l o r =>
    exact .unlessError (hi l scope) fun v => .unlessError (hi r scope) fun w => .ofLabel _
  | conditional c t e =>
    refine .unlessError (hi c scope) fun v => .bind (.note _ _) fun _ => .ite (hi t scope) ?_
    cases e with
    | missing => exact .pure _
    | _ => exact hi _ scope
  | call f as =>
    refine .unlessError (hi f scope) fun f => .bind (ignoresLog_expressions hi scope as) fun r => ?_
    cases r with
    | error failure => exact .pure _
    | ok vs => exact ignoresLog_call hi settings f vs

end Eval

/-- What was logged before an evaluation makes no difference to it. The induction is on how deep
evaluations nest. -/
theorem ignoresLog_eval (settings : Settings) (budget : Nat) (t : Program) (scope : ScopeId) :
    Run.IgnoresLog (eval settings budget t scope) := by
  induction budget generalizing t scope with
  | zero => exact .halt _
  | succ budget ih => exact Eval.ignoresLog_step ih settings t scope

end MonkeyLang
