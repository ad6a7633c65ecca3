import MonkeyLang.Proofs.Session.Discipline

/-!
# An evaluator whose `return` goes straight to its end

In this evaluator a `return` is not a value: it leaves everything that is under way, up to the
nearest call of a function or the program, which ends with the value that is returned. Main
statement: `direct_eq_signal` says that on disciplined programs it does the same as `eval`, where a
`return` is handed on from node to node.
-/

namespace MonkeyLang

variable {α β : Type}

/-- A part of an evaluation that a `return` can leave, with the value that is returned. -/
abbrev Direct (α : Type) := ExceptT Value Run α

abbrev DirectEvaluator := Program → ScopeId → Direct Value

namespace Direct

/-- A `return` ends here, with the value that is returned. -/
def caught (r : Direct Value) : Run Value := do
  match ← r.run with
  | .ok v => return v
  | .error v => return v

/-- Goes on with a value, unless it is a failure, which is the result then. -/
def unlessError (r : Direct Value) (next : Value → Direct Value) : Direct Value := do
  let v ← r
  if v.isError then
    return v
  else
    next v

/-- Statements one after the other, up to the first failure. -/
def statements (inner : DirectEvaluator) (scope : ScopeId) :
    (last : Value) → List Program → Direct Value
  | last, [] => return last
  | _, s :: ss => unlessError (inner s scope) fun v => statements inner scope v ss

/-- Expressions one after the other: all their values, or the first failure. -/
def expressions (inner : DirectEvaluator) (scope : ScopeId) :
    List Program → Direct (Except Failure (List Value))
  | [] => return .ok []
  | e :: es => do
    match ← inner e scope with
    | .error f => return .error f
    | v => return (← expressions inner scope es).map (v :: ·)

/-- Calls a value. A `return` in the body of a function ends here. -/
def call (settings : Settings) (inner : DirectEvaluator) (f : Value) (arguments : List Value) :
    Run Value :=
  match f with
  | .function parameters body scope =>
    if settings.strictArity ∧ arguments.length ≠ parameters.length then
      return .error (.wrongArity .function arguments.length parameters.length)
    else do
      Run.note settings (.called parameters arguments.length)
      let names ← Eval.names (parameters.take arguments.length)
      let scope ← Run.addScope (Eval.frame names arguments scope)
      caught (inner body scope)
  | .builtin b =>
    match b.arity with
    | some n =>
      if arguments.length ≠ n then
        return .error (.wrongArity .builtin arguments.length n)
      else do
        Run.note settings (.calledBuiltin b arguments.length)
        Eval.builtin b arguments
    | none => do
      Run.note settings (.calledBuiltin b arguments.length)
      Eval.builtin b arguments
  | v => return .error (.notAFunction v.type)

/-- Evaluates one node, and the nodes inside it by `inner`. -/
def step (settings : Settings) (inner : DirectEvaluator) : DirectEvaluator
  | .missing, _ => Run.halt .missingNode
  | .program ss, scope => caught (statements inner scope .null ss)
  | .block ss, scope => statements inner scope .null ss
  | .expressionStatement e, scope => inner e scope
  | .letStatement name e, scope =>
    unlessError (inner e scope) fun v => (do
      Run.bindName scope (← Run.ofLabel name.name) v
      Run.note settings (.bound name v)
      return .null : Run Value)
  | .returnStatement .missing, _ => throw .null
  | .returnStatement e, scope => unlessError (inner e scope) fun v => throw v
  | .integer n, _ => return .integer n
  | .string s, _ => return .ofLabel s
  | .boolean b, _ => return .boolean b
  | .identifier name, scope => (do
    match ← Run.lookup (← Run.ofLabel name.name) scope with
    | some v => return v
    | none => return .error (.unboundName name.display) : Run Value)
  | .prefixed operator e, scope =>
    unlessError (inner e scope) fun v => return applyPrefix operator.display v
  | .infixed l operator r, scope =>
    unlessError (inner l scope) fun v =>
      unlessError (inner r scope) fun w =>
        (Run.ofLabel (applyInfix operator.display v w) : Run Value)
  | .conditional c t e, scope =>
    unlessError (inner c scope) fun v => do
      Run.note settings (.decided v)
      if v.truthy then
        inner t scope
      else
        match e with
        | .missing => return .null
        | e => inner e scope
  | .function parameters body, scope => return .function parameters body scope
  | .call f as, scope =>
    unlessError (inner f scope) fun f => do
      match ← expressions inner scope as with
      | .error failure => return .error failure
      | .ok vs => call settings inner f vs

end Direct

/-- Evaluates a tree in a scope, with evaluations nesting below `budget` levels. -/
def direct (settings : Settings) : (budget : Nat) → DirectEvaluator
  | 0, _, _ => Run.halt .tooDeep
  | budget + 1, t, scope => Direct.step settings (direct settings budget) t scope

/-! ## Parts of direct evaluations -/

/-- A `return` that is a value, as one that is on its way. -/
def Value.signal : Value → Except Value Value
  | .returned v => .error v
  | v => .ok v

/-- The end of an evaluation, with a `return` on its way where the value is one. -/
def Outcome.signal : Outcome Value → Outcome (Except Value Value)
  | .done v m => .done v.signal m
  | .halted h m => .halted h m

/-- The end of an evaluation that no `return` left. -/
def Outcome.completed : Outcome α → Outcome (Except Value α)
  | .done a m => .done (.ok a) m
  | .halted h m => .halted h m

theorem Value.signal_of_not_returned {v : Value} (h : v.isReturned = false) : v.signal = .ok v := by
  cases v with
  | returned w => cases h
  | _ => rfl

theorem Outcome.signal_eq_completed {o : Outcome Value}
    (h : ∀ v m, o = .done v m → v.isReturned = false) : o.signal = o.completed := by
  cases o with
  | done v m => rw [signal, completed, Value.signal_of_not_returned (h v m rfl)]
  | halted r m => rfl

theorem Outcome.Keeps.signal_eq_completed {K : Store → Prop} {S : Halt → Prop} {o : Outcome Value}
    (h : o.Keeps K S fun v => v.isReturned = false) : o.signal = o.completed :=
  Outcome.signal_eq_completed fun v m hv => by
    rw [hv] at h
    exact h.2

/-- No operation has a `return` as its value. -/
theorem isReturned_applyPrefix (o : String) (v : Value) : (applyPrefix o v).isReturned = false := by
  obtain ⟨k, h⟩ | ⟨b, h⟩ | ⟨f, h⟩ := applyPrefix_cases o v <;> rw [h] <;> rfl

/-- No operator gives a value that is still wrapped. -/
theorem isReturned_applyInfix {o : String} {v w u : Value} (hu : applyInfix o v w = .ok u) :
    u.isReturned = false := by
  obtain ⟨u', hu', h⟩ | ⟨-, h⟩ := applyInfix_cases o v w
  · cases hu.symm.trans hu'
    obtain ⟨k, rfl⟩ | ⟨b, rfl⟩ | ⟨s, rfl⟩ | ⟨f, rfl⟩ := h <;> rfl
  · obtain ⟨s, rfl⟩ | ⟨j, rfl⟩ | ⟨f, rfl⟩ := h u hu <;> rfl

namespace Direct

variable {m m₁ : Machine}

/-- An operation on the store, a note or a line of output never returns out of a function. -/
theorem lift_apply (r : Run α) : (liftM r : Direct α) m = (r m).completed := by
  show Run.andThen r _ m = _
  unfold Run.andThen
  cases r m <;> rfl

theorem bind_of_ok {d : Direct α} {f : α → Direct β} {a : α} (h : d m = .done (.ok a) m₁) :
    (d >>= f) m = f a m₁ :=
  Run.bind_of_done h

theorem bind_of_return {d : Direct α} {f : α → Direct β} {v : Value}
    (h : d m = .done (.error v) m₁) : (d >>= f) m = .done (.error v) m₁ :=
  Run.bind_of_done h

theorem bind_of_halted {d : Direct α} {f : α → Direct β} {r : Halt} (h : d m = .halted r m₁) :
    (d >>= f) m = .halted r m₁ :=
  Run.bind_of_halted h

/-- After a part that no `return` left, the next parts agree if they agree on its value. -/
theorem bind_eq_signal {r : Run α} {d : Direct α} {f : α → Run Value} {g : α → Direct Value}
    (h : d m = (r m).completed) (hfg : ∀ a m₁, r m = .done a m₁ → g a m₁ = (f a m₁).signal) :
    (d >>= g) m = ((r >>= f) m).signal := by
  cases hr : r m with
  | done a m₁ =>
    rw [hr] at h
    rw [bind_of_ok h, Run.bind_of_done hr, hfg a m₁ hr]
  | halted _ m₁ =>
    rw [hr] at h
    rw [bind_of_halted h, Run.bind_of_halted hr]
    rfl

theorem unlessError_eq_signal {r : Run Value} {d : Direct Value} {f : Value → Run Value}
    {g : Value → Direct Value} (h : d m = (r m).completed)
    (hfg : ∀ v m₁, r m = .done v m₁ → v.isError = false → g v m₁ = (f v m₁).signal) :
    unlessError d g m = (Run.unlessError r f m).signal := by
  refine bind_eq_signal h fun v m₁ hv => ?_
  cases he : v.isError with
  | false => exact hfg v m₁ hv he
  | true =>
    obtain ⟨e, rfl⟩ := Value.exists_eq_error he
    rfl

/-- Where a `return` ends, its value is what it is with the `return` taken off. -/
theorem caught_eq {r : Run Value} {d : Direct Value} (h : d m = (r m).signal) :
    caught d m = (do return (← r).unwrapped : Run Value) m := by
  cases hr : r m with
  | halted _ m₁ =>
    rw [hr] at h
    exact (Run.bind_of_halted h).trans (Run.bind_of_halted hr).symm
  | done v m₁ =>
    rw [hr] at h
    refine (Run.bind_of_done h).trans (.trans ?_ (Run.bind_of_done hr).symm)
    cases v <;> rfl

/-- Where nothing returns, there is nothing to catch. -/
theorem caught_of_completed {r : Run Value} {d : Direct Value} (h : d m = (r m).completed) :
    caught d m = r m := by
  cases hr : r m with
  | halted _ m₁ =>
    rw [hr] at h
    exact Run.bind_of_halted h
  | done v m₁ =>
    rw [hr] at h
    exact Run.bind_of_done h

section

variable {inner : Evaluator} {inner' : DirectEvaluator} {scope : ScopeId} {ts : List Program}

/-- Statements agree if each of them agrees. -/
theorem statements_eq_signal {last : Value} (hl : last.isReturned = false)
    (hi : ∀ t m₁, InTurn inner scope Value.completes ts m t m₁ →
      inner' t scope m₁ = (inner t scope m₁).signal) :
    statements inner' scope last ts m = (Eval.statements inner scope last ts m).signal := by
  induction ts generalizing m last with
  | nil => exact congrArg (Outcome.done · m) (Value.signal_of_not_returned hl).symm
  | cons t ts ih =>
    have ht := hi t m .here
    rw [statements, Eval.statements_cons]
    cases hr : inner t scope m with
    | halted _ m₁ =>
      rw [hr] at ht
      rw [unlessError, bind_of_halted ht, Run.bind_of_halted hr]
      rfl
    | done v m₁ =>
      rw [hr] at ht
      rw [Run.bind_of_done hr]
      cases hv : v.isReturned with
      | true =>
        -- the rest is left out by both
        obtain ⟨w, rfl⟩ := Value.exists_eq_returned hv
        rw [unlessError, bind_of_return ht]
        rfl
      | false =>
        rw [Outcome.signal, Value.signal_of_not_returned hv] at ht
        rw [unlessError, bind_of_ok ht]
        cases he : v.isError with
        | true =>
          obtain ⟨f, rfl⟩ := Value.exists_eq_error he
          rfl
        | false =>
          have hc : v.completes = true := Value.completes_iff.2 ⟨hv, he⟩
          rw [hc]
          exact ih hv fun u m₂ hu => hi u m₂ (.later hr hc hu)

theorem expressions_cons_of_ok {t : Program} {v : Value} (h : inner' t scope m = .done (.ok v) m₁)
    (hv : v.isError = false) : expressions inner' scope (t :: ts) m =
      (do return (← expressions inner' scope ts).map (v :: ·) : Direct _) m₁ := by
  rw [expressions, bind_of_ok h]
  cases v with
  | error f => cases hv
  | _ => rfl

/-- Expressions agree if each of them agrees and no `return` leaves it. -/
theorem expressions_eq_completed
    (hi : ∀ t m₁, InTurn inner scope (fun v => !v.isError) ts m t m₁ →
      inner' t scope m₁ = (inner t scope m₁).completed) :
    expressions inner' scope ts m = (Eval.expressions inner scope ts m).completed := by
  induction ts generalizing m with
  | nil => rfl
  | cons t ts ih =>
    have ht := hi t m .here
    cases hr : inner t scope m with
    | halted _ m₁ =>
      rw [hr] at ht
      -- a halt or a failure ends both lists alike
      rw [expressions, bind_of_halted ht, Eval.expressions_cons_of_halted inner scope hr]
      rfl
    | done v m₁ =>
      rw [hr] at ht
      cases he : v.isError with
      | true =>
        obtain ⟨f, rfl⟩ := Value.exists_eq_error he
        rw [expressions, bind_of_ok ht, Eval.expressions_cons_of_error inner scope hr]
        rfl
      | false =>
        have hg : (!v.isError) = true := by rw [he]; rfl
        -- the others by induction, from the machine that the first one leaves
        have hts := ih fun u m₂ hu => hi u m₂ (.later hr hg hu)
        rw [expressions_cons_of_ok ht he, Eval.expressions_cons_of_done inner scope hr he]
        cases hs : Eval.expressions inner scope ts m₁ with
        | halted _ m₂ =>
          rw [hs] at hts
          rw [bind_of_halted hts, Run.bind_of_halted hs]
          rfl
        | done r m₂ =>
          rw [hs] at hts
          rw [bind_of_ok hts, Run.bind_of_done hs]
          rfl

end

end Direct

/-! ## Disciplined programs -/

section

variable {settings : Settings} {n : Nat} {m : Machine} {scope : ScopeId}

/-- Both evaluators agree on a tree with the budget `n`. -/
def Agrees (settings : Settings) (n : Nat) : Prop :=
  ∀ t scope m, disciplineContract.Met ⟨n, .node t scope, m⟩ →
    direct settings n t scope m = (eval settings n t scope m).signal

/-- What is handed on agrees. -/
theorem Agrees.part {place : Place} {a : Activation} {t : Program} (hn : Agrees settings n)
    (ha : disciplineContract.Met a) (hb : Begins settings place a ⟨n, .node t scope, m⟩) :
    direct settings n t scope m = (eval settings n t scope m).signal :=
  hn t scope m ((disciplineContract.lawful settings).begun hb ha)

/-- No `return` leaves an expression whose value is put together with others. -/
theorem Agrees.value {place : Place} {a : Activation} {t : Program} (hn : Agrees settings n)
    (ha : disciplineContract.Met a) (hb : Begins settings place a ⟨n, .node t scope, m⟩)
    (hp : place.isValue = true := by rfl) :
    direct settings n t scope m = (eval settings n t scope m).completed := by
  have hc := disciplineContract.lawful settings
  rw [hn.part ha hb]
  refine Outcome.signal_eq_completed fun v m₁ hv => ?_
  have hg := hc.keeps (hc.begun hb ha)
  rw [Activation.outcome_node, hv] at hg
  exact disciplineContract.isReturned_of_gives hb hp ha.admits hg.2

/-- A call agrees, as no `return` leaves it. -/
theorem Agrees.call {f : Value} {vs : List Value} (hn : Agrees settings n)
    (ha : disciplineContract.Met ⟨n, .call f vs, m⟩) :
    Direct.call settings (direct settings n) f vs m =
      Eval.call settings (eval settings n) f vs m := by
  cases f with
  | function ps b scope =>
    by_cases hp : settings.strictArity ∧ vs.length ≠ ps.length
    · rw [Eval.call_function_of_ne hp, Direct.call, if_pos hp]
    · rw [Eval.call_function hp, Direct.call, if_neg hp]
      refine Run.bind_congr rfl fun _ m₁ h₁ => Run.bind_congr rfl fun xs m₂ h₂ => ?_
      refine Run.bind_congr rfl fun i m₃ h₃ => ?_
      cases h₃
      exact Direct.caught_eq (hn.part ha (.body hp h₁ h₂))
  | _ => rfl

/-- The value of a task that holds no `return` is none. -/
theorem disciplineContract.signal_eq_completed (settings : Settings) {a : Activation}
    (ha : disciplineContract.Met a) (hr : a.task.holdsReturn = false) :
    (a.outcome settings).signal = (a.outcome settings).completed := by
  refine Outcome.signal_eq_completed fun v m hv => ?_
  have hg := (disciplineContract.lawful settings).keeps ha
  rw [hv] at hg
  cases hv' : v.isReturned with
  | false => rfl
  | true => exact (hg.2.2 hv').symm.trans hr

/-- One level more. -/
theorem Agrees.step (hn : Agrees settings n) : Agrees settings (n + 1) := by
  intro t scope m ha
  show Direct.step settings (direct settings n) t scope m = _
  cases t with
  | missing | integer | boolean | function => rfl
  | string s => cases s <;> rfl
  | program ss =>
    have hs : Direct.statements (direct settings n) scope .null ss m =
        (Eval.statements (eval settings n) scope .null ss m).signal :=
      Direct.statements_eq_signal rfl fun t m₁ ht => hn.part ha (.programStatement ht)
    have hr := disciplineContract.signal_eq_completed settings ha rfl
    -- all `return`s of the program end here, so its own value is none
    refine (Direct.lift_apply _).trans (.trans ?_ hr.symm)
    rw [Direct.caught_eq hs]
    rfl
  | block ss => exact Direct.statements_eq_signal rfl fun t m₁ ht => hn.part ha (.blockStatement ht)
  | expressionStatement e => exact hn.part ha .expression
  | letStatement x e =>
    refine Direct.unlessError_eq_signal (hn.value ha .letValue) fun v m₁ _ _ => ?_
    rw [Direct.lift_apply]
    refine (Outcome.Keeps.signal_eq_completed (K := fun _ => True) (S := fun _ => True) ?_).symm
    refine Run.keeps_bind (R := fun _ => True)
      (Run.keeps_ofLabel trivial (fun _ _ => trivial) fun _ _ => trivial) fun name m₂ _ _ _ => ?_
    refine Run.keeps_bind (R := fun _ => True) ⟨trivial, trivial⟩ fun _ m₃ _ _ _ => ?_
    exact Run.keeps_bind (Run.keeps_note trivial fun _ _ => trivial)
      fun _ m₄ _ _ _ => ⟨trivial, rfl⟩
  | returnStatement e =>
    cases he : e.isMissing with
    | true =>
      obtain rfl := Tree.eq_missing he
      rfl
    | false =>
      rw [Eval.eval_returnStatement he]
      have hs := Direct.unlessError_eq_signal (f := fun v => return .returned v)
        (g := fun v => throw v) (hn.value ha (.returnValue he)) fun v m₁ _ _ => rfl
      cases e with
      | missing => cases he
      | _ => exact hs
  | identifier x =>
    exact (Direct.lift_apply _).trans (disciplineContract.signal_eq_completed settings ha rfl).symm
  | prefixed o e =>
    refine Direct.unlessError_eq_signal (hn.value ha .prefixOperand) fun v m₁ _ _ => ?_
    exact congrArg (Outcome.done · m₁)
      (Value.signal_of_not_returned (isReturned_applyPrefix o.display v)).symm
  | infixed l o r =>
    refine Direct.unlessError_eq_signal (hn.value ha .leftOperand) fun v m₁ hv he => ?_
    refine Direct.unlessError_eq_signal (hn.value ha (.rightOperand hv he)) fun w m₂ _ _ => ?_
    rw [Direct.lift_apply]
    exact (Outcome.Keeps.signal_eq_completed (K := fun _ => True) (S := fun _ => True)
      (Run.keeps_ofLabel trivial (fun _ _ => trivial) fun _ => isReturned_applyInfix)).symm
  | conditional c t e =>
    refine Direct.unlessError_eq_signal (hn.value ha .condition) fun v m₁ hv he => ?_
    refine Direct.bind_eq_signal (Direct.lift_apply _) fun _ m₂ h₂ => ?_
    cases ht : v.truthy with
    | true => exact hn.part ha (.consequence hv he h₂ ht)
    | false =>
      cases hm : e.isMissing with
      | true =>
        obtain rfl := Tree.eq_missing hm
        rfl
      | false =>
        have hs := hn.part ha (.alternative hv he h₂ ht hm)
        cases e with
        | missing => cases hm
        | _ => exact hs
  | call f as =>
    refine Direct.unlessError_eq_signal (hn.value ha .callee) fun v m₁ hv he => ?_
    refine Direct.bind_eq_signal (Direct.expressions_eq_completed fun t m₂ ht =>
      hn.value ha (.argument hv he ht)) fun r m₂ hr => ?_
    cases r with
    | error e => rfl
    | ok vs =>
      -- a call is left by its value only, whatever happens in the body
      have hb := (disciplineContract.lawful settings).begun (.application hv he hr) ha
      refine (Direct.lift_apply _).trans ?_
      rw [hn.call hb]
      exact (disciplineContract.signal_eq_completed settings hb rfl).symm

end

/-- On disciplined programs both evaluators do the same. -/
theorem direct_eq_signal (settings : Settings) (n : Nat) : Agrees settings n := by
  induction n with
  | zero => exact fun t scope m _ => rfl
  | succ n ih => exact ih.step

/-! ## Sessions -/

namespace Session

/-- Evaluates a tree with a `return` that goes straight to its end, and notes a failure that comes
out. -/
def evaluateDirect (settings : Settings) (tree : Program) (scope : ScopeId) (budget : Nat) :
    Run Value := do
  let v ← Direct.caught (direct settings budget tree scope)
  match v with
  | .error f =>
    Run.note settings (.failed f)
    return v
  | v => return v

/-- Runs a tree in the global scope with such a `return`. -/
def runDirect (s : Session) (tree : Program) (budget : Nat) : Execution × Session :=
  s.finish (evaluateDirect s.settings tree s.globals budget { store := s.store })

/-- A program runs the same in both ways, if it keeps to the discipline. -/
theorem runDirect_eq {s : Session} {p : Program} {budget : Nat}
    (hm : disciplineContract.Met (s.opening s.globals p budget))
    (hp : p.fitsRole .program = true) : s.runDirect p budget = s.run p budget := by
  have hr : (Task.node p s.globals).holdsReturn = false := by
    cases p <;> first | rfl | cases hp
  have hd := direct_eq_signal s.settings budget p s.globals { store := s.store } hm
  have hs := disciplineContract.signal_eq_completed s.settings hm hr
  have he := Direct.caught_of_completed (hd.trans hs)
  have hv : evaluateDirect s.settings p s.globals budget { store := s.store } =
      evaluate s.settings p s.globals budget { store := s.store } := by
    refine Run.bind_congr he fun v m _ => ?_
    cases v <;> rfl
  rw [runDirect, hv]
  rfl

/-- Disciplined programs, one after the other in a session, run as if every `return` went straight
to its end; and nothing is ever a `return` that is bound, or that other values are put together
with. -/
theorem runEach_runDirect (settings : Settings) (budget : Nat) (ps : List Program)
    (hps : ∀ p ∈ ps, p.fitsRole .program = true ∧ p.isDisciplined = true) :
    runEach (fun s p => s.runDirect p budget) (start settings) ps =
      runEach (fun s p => s.run p budget) (start settings) ps ∧
    (start settings).AllRuns budget
      (fun s p =>
        (s.run p budget).2.store.Binds (fun v => v.isReturned = false) ∧
        ∀ a, Performs settings (s.opening s.globals p budget) a →
          a.machine.store.Binds (fun v => v.isReturned = false) ∧
          ∀ place b v m, Begins settings place a b →
            place ∈ [.letValue, .argument, .operand, .condition] →
            b.outcome settings = .done v m → v.isReturned = false) ps := by
  have hc := disciplineContract.lawful settings
  have hs : (start settings).store.Binds Value.IsDisciplined :=
    start_binds Store.Binds.empty fun _ => trivial
  -- the sessions stay disciplined, from the new one on
  have hruns : (start settings).AllRuns budget
      (fun s p => disciplineContract.Met (s.opening s.globals p budget)) ps :=
    disciplineContract.allRuns hs hps
  refine ⟨runEach_congr ?_, hruns.mono fun s _ p _ hm => ⟨?_, fun a ha => ⟨?_, ?_⟩⟩⟩
  · exact hruns.mono fun s _ p hp hm => runDirect_eq hm (hps p hp).1
  · exact ((disciplineContract.lawful s.settings).binds_runIn hm.store hm.admits).mono
      fun _ => disciplineContract.isReturned_eq_false
  · exact (hc.performs ha hm).store.mono fun _ => disciplineContract.isReturned_eq_false
  · intro place b v m hb hp hv
    have hma := hc.performs ha hm
    have hg := hc.keeps (hc.begun hb hma)
    rw [hv] at hg
    refine disciplineContract.isReturned_of_gives hb ?_ hma.admits hg.2
    -- none of these places is one whose value is handed on
    revert hp
    cases place <;> decide

/-- Two programs of one session: a function that returns out of a conditional inside another one,
and a program that is left by a `return` before it prints. -/
theorem runEach_runDirect_nested :
    let inner : Program := .conditional (.identifier (.string "x"))
      (.block [.returnStatement (.integer 1)]) (.block [.returnStatement (.integer 2)])
    let outer : Program := .conditional (.boolean true)
      (.block [.expressionStatement inner, .expressionStatement (.integer 3)]) .missing
    let f : Program := .function [.string "x"] (.block [.expressionStatement outer])
    let call (b : Bool) : Program := .call (.identifier (.string "f")) [.boolean b]
    let print (e : Program) : Program :=
      .expressionStatement (.call (.identifier (.string "puts")) [e])
    let ps := [.program [.letStatement (.string "f") f, print (call true)],
      .program [.returnStatement (call false), print (.integer 4)]]
    (∀ p ∈ ps, p.fitsRole .program = true ∧ p.isDisciplined = true) ∧
      (runEach (fun s p => s.runDirect p 50) (start {}) ps).1.map (fun e => (e.result, e.out)) =
        [(.ok .null, "1\n"), (.ok (.integer 2), "")] ∧
      runEach (fun s p => s.runDirect p 50) (start {}) ps =
        runEach (fun s p => s.run p 50) (start {}) ps := by
  intro inner outer f call print ps
  have hps : ∀ p ∈ ps, p.fitsRole .program = true ∧ p.isDisciplined = true := by decide
  refine ⟨hps, ?_, (runEach_runDirect {} 50 ps hps).1⟩
  have hresult : (runEach (fun s p => s.runDirect p 50) (start {}) ps).1.map Execution.result =
      [.ok .null, .ok (.integer 2)] := rfl
  have hout : (runEach (fun s p => s.runDirect p 50) (start {}) ps).1.map Execution.out =
      ["1\n", ""] := by
    decide +kernel
  -- results and output are compared apart, as only the latter is text
  rw [← List.zip_map', hresult, hout]
  rfl

end Session

end MonkeyLang
