import MonkeyLang.Proofs.Session.Runs

/-!
# The first failure ends a run

Failures are values, so whatever puts values together has to let them through. Main statement:
`runIn_of_failure` says that the first failure of a run, of whatever part of it, is its result and
the last thing that happens in it, and that no failure is ever bound or returned.
-/

namespace MonkeyLang

namespace Value

/-- What is inside all the `return`s around a value. -/
def core : Value → Value
  | .returned v => v.core
  | v => v

/-- A value that is no failure, nor a `return` of one. -/
def IsSound (v : Value) : Prop :=
  v.core.isError = false

instance (v : Value) : Decidable v.IsSound :=
  inferInstanceAs (Decidable (_ = false))

theorem core_unwrapped (v : Value) : v.unwrapped.core = v.core := by
  cases v <;> rfl

end Value

/-- A failure is never bound, nor put inside a `return`. -/
def failureContract : Contract where
  admits _ := True
  gives _ v := v.isError = false → v.IsSound
  binds v := v.IsSound

theorem failureContract_lawful (settings : Settings) : failureContract.Lawful settings where
  begins _ _ := trivial
  kept _ _ _ _ he hg := hg he
  passed {place a b v} _ _ _ hg he := by
    rw [Activation.received] at he ⊢
    split
    · -- a value inside a `return` came from one that is no failure itself
      next h =>
        rw [if_pos h] at he
        have hv : v.isError = false := by
          cases v with
          | error f => cases he
          | _ => rfl
        rw [Value.IsSound, Value.core_unwrapped]
        exact hg hv
    · next h =>
        rw [if_neg h] at he
        exact hg he
  returned _ _ _ he hg _ := hg he
  bareReturn _ _ := rfl
  found _ hb _ := hb
  integer _ _ := rfl
  string {n s scope m} _ _ := by cases s <;> rfl
  function _ _ := rfl
  length _ _ _ := rfl
  error _ _ he := by cases he
  null _ _ := rfl
  boolean _ _ _ := rfl
  word _ _ _ := rfl
  text _ _ _ := rfl
  datum _ _ _ := rfl

namespace Session

/-- What a log leaves in the output. -/
def output (s : Session) (log : Log) : String :=
  if s.tracing then log.printed else log.everything

/-- The line about a failure that a session with a closed trace adds to the output. -/
def failureLine (s : Session) (f : Failure) : String :=
  if s.tracing = false ∧ 1 ≤ s.settings.verbosity then lineOf (Note.failed f).text else ""

/-- The output of a run that failed. -/
theorem output_closingLog (s : Session) (log : Log) (f : Failure) :
    s.output (closingLog s.settings log (.error f)) = s.output log ++ s.failureLine f := by
  unfold output failureLine closingLog
  by_cases hl : 1 ≤ s.settings.verbosity <;> cases s.tracing <;>
    simp [hl, Log.printed_push_note, Log.everything_push_note]

/-- Whatever part of a run ends in a failure, the run ends in it at once. And no run binds a
failure or has one inside a `return`. -/
theorem runIn_of_failure (s : Session) (scope : ScopeId) (p : Program) (budget : Nat)
    (hs : s.store.Binds Value.IsSound) :
    (∀ q f m, Performs s.settings (s.opening scope p budget) q →
      q.outcome s.settings = .done (.error f) m →
        (s.runIn scope p budget).1.result = .ok (.error f) ∧
        (s.runIn scope p budget).2.store = m.store ∧
        (s.runIn scope p budget).1.out = s.output m.log ++ s.failureLine f) ∧
    (s.runIn scope p budget).2.store.Binds Value.IsSound ∧
    ∀ q v m, Performs s.settings (s.opening scope p budget) q →
      q.outcome s.settings = .done (.returned v) m → v.IsSound := by
  have hc := failureContract_lawful s.settings
  have hm : failureContract.Met (s.opening scope p budget) := Contract.Lawful.met_opening hs trivial
  refine ⟨?_, hc.binds_runIn hs trivial, ?_⟩
  · intro q f m hq hf
    -- the failure goes out through everything around it
    have ho := hq.outcome_eq (by rw [hf]; rfl)
    rw [hf] at ho
    rw [runIn_of_done ho]
    exact ⟨rfl, rfl, s.output_closingLog m.log f⟩
  · intro q v m hq hv
    have hkeeps := hc.keeps (hc.performs hq hm)
    rw [hv] at hkeeps
    exact hkeeps.2 rfl

/-- A text is printed, a truth value is negated as if it were a number, and nothing is printed
after that. -/
theorem runIn_negated_boolean :
    let call (x : Json) : Program :=
      .expressionStatement (.call (.identifier (.string "puts")) [.string x])
    let p : Program := .program
      [call (.string "before"), .letStatement (.string "x") (.prefixed (.string "-") (.boolean true)),
        call (.string "after")]
    (start {}).store.Binds Value.IsSound ∧
      ((start {}).runIn 1 p 10).1.result = .ok (.error (.unknownPrefix "-" .boolean)) ∧
      ((start {}).runIn 1 p 10).2.store = (start {}).store ∧
      ((start {}).runIn 1 p 10).1.out = "before\n" := by
  intro call p
  have hs : (start {}).store.Binds Value.IsSound := start_binds Store.Binds.empty fun _ => rfl
  have hq : Performs {} ((start {}).opening 1 p 10) _ :=
    .head ⟨_, .programStatement (.later rfl rfl .here)⟩ (.head ⟨_, .letValue⟩ .refl)
  exact ⟨hs, (runIn_of_failure (start {}) 1 p 10 hs).1 _ _ _ hq rfl⟩

/-- With a closed trace the note about the failure is printed as well, behind all that was printed
when the failure came up. -/
theorem runIn_of_failure_closedTrace :
    let s := (start { verbosity := 1 }).close
    let puts (n : Int) : Program :=
      .expressionStatement (.call (.identifier (.string "puts")) [.integer n])
    let p : Program := .program [puts 1, .expressionStatement (.identifier (.string "foo")), puts 2]
    s.store.Binds Value.IsSound ∧
      ∃ q m, Performs s.settings (s.opening 1 p 10) q ∧
        q.outcome s.settings = .done (.error (.unboundName "foo")) m ∧
        s.output m.log = "1\n" ∧
        (s.runIn 1 p 10).1.out = "1\nerror: identifier not found: foo\n" ∧
        (s.runIn 1 p 10).1.out ≠ s.output m.log := by
  intro s puts p
  have hs : (start { verbosity := 1 }).store.Binds Value.IsSound :=
    start_binds Store.Binds.empty fun _ => rfl
  -- the second statement is come to after the first one, and its expression is the unbound name
  have hq : Performs s.settings (s.opening 1 p 10) _ :=
    .head ⟨_, .programStatement (.later rfl rfl .here)⟩ (.head ⟨_, .expression⟩ .refl)
  have hout : (s.runIn 1 p 10).1.out = "1\nerror: identifier not found: foo\n" := by
    decide +kernel
  refine ⟨hs, _, _, hq, rfl, by decide +kernel, hout, ?_⟩
  rw [hout]
  decide +kernel

end Session

end MonkeyLang
