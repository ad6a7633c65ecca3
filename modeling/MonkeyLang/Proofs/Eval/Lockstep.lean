import MonkeyLang.Proofs.Eval.Activation

/-!
# Two evaluations in lock step

The settings of an evaluation decide which notes are made and which calls are refused, and nothing
else. So two evaluations of one tree with different settings do the same, step by step, until they
come to an activation where the settings part them: a call with the wrong number of arguments that
only one of them refuses, or a note that only the first one makes and that cannot be made. Main
statement: `Activation.outcome_shared`, where `shared` leaves out the notes that only the first
settings ask for.
-/

namespace MonkeyLang

variable {α β : Type}

/-! ## What both settings log -/

/-- Whether a note is made with the first settings, but not with the second. -/
def Note.isExtra (s₁ s₂ : Settings) (n : Note) : Bool :=
  s₂.verbosity < n.level && n.level ≤ s₁.verbosity

/-- Whether an entry of a log is made with both settings, if it is made with the first. -/
def Entry.isShared (s₁ s₂ : Settings) : Entry → Bool
  | .printed _ => true
  | .note n => !n.isExtra s₁ s₂

/-- A log of the first settings as it is with the second. -/
def Log.shared (s₁ s₂ : Settings) (log : Log) : Log :=
  log.filter (Entry.isShared s₁ s₂)

def Machine.shared (s₁ s₂ : Settings) (m : Machine) : Machine :=
  { m with log := m.log.shared s₁ s₂ }

/-- The end of an evaluation with the first settings as it is with the second. -/
def Outcome.shared (s₁ s₂ : Settings) : Outcome α → Outcome α
  | .done a m => .done a (m.shared s₁ s₂)
  | .halted h m => .halted h (m.shared s₁ s₂)

def Activation.shared (s₁ s₂ : Settings) (a : Activation) : Activation :=
  { a with machine := a.machine.shared s₁ s₂ }

/-- The activation comes to the note, which is made if the verbosity asks for it. Notes about builtin
functions are left out, as nothing is ever in their way. -/
inductive Activation.Notes (settings : Settings) : Activation → Note → Prop where
  | bound {n : Nat} {x : Json} {e : Program} {scope : ScopeId} {m m₁ : Machine} {v : Value}
      {name : Name} :
      eval settings n e scope m = .done v m₁ → v.isError = false → x.name = .ok name →
      Notes settings ⟨n + 1, .node (.letStatement x e) scope, m⟩ (.bound x v)
  | decided {n : Nat} {c t e : Program} {scope : ScopeId} {m m₁ : Machine} {v : Value} :
      eval settings n c scope m = .done v m₁ → v.isError = false →
      Notes settings ⟨n + 1, .node (.conditional c t e) scope, m⟩ (.decided v)
  | called {n : Nat} {ps : List Json} {b : Program} {scope : ScopeId} {vs : List Value}
      {m : Machine} :
      ¬ (settings.strictArity ∧ vs.length ≠ ps.length) →
      Notes settings ⟨n, .call (.function ps b scope) vs, m⟩ (.called ps vs.length)

/-- The settings part two evaluations at this activation. -/
inductive Activation.Parts (s₁ s₂ : Settings) : Activation → Prop where
  /-- A call is refused by one of them only. -/
  | arity {n : Nat} {ps : List Json} {b : Program} {scope : ScopeId} {vs : List Value}
      {m : Machine} : s₁.strictArity ≠ s₂.strictArity → vs.length ≠ ps.length →
      Parts s₁ s₂ ⟨n, .call (.function ps b scope) vs, m⟩
  /-- A note is made by the first one only, and halts it. -/
  | untold {a : Activation} {n : Note} {h : Halt} : a.Notes s₁ n → n.isExtra s₁ s₂ = true →
      n.halt? = some h → Parts s₁ s₂ a

/-- Both evaluations come to an activation where the settings part them. -/
def Activation.Parted (s₁ s₂ : Settings) (a : Activation) : Prop :=
  ∃ b, Performs s₁ a b ∧ Performs s₂ (a.shared s₁ s₂) (b.shared s₁ s₂) ∧ b.Parts s₁ s₂

/-! Where the first settings ask for no note that the second do not, nothing is left out. -/

section

variable {s₁ s₂ : Settings} (h : ∀ n : Note, n.isExtra s₁ s₂ = false)

include h

/-- The log of a machine stays as it is. -/
theorem Machine.shared_eq_self (m : Machine) : m.shared s₁ s₂ = m := by
  have hlog : m.log.shared s₁ s₂ = m.log := by
    refine Array.filter_eq_self.2 fun e _ => ?_
    cases e with
    | printed line => rfl
    | note n => rw [Entry.isShared, h n]; rfl
  rw [Machine.shared, hlog]

theorem Outcome.shared_eq_self (o : Outcome α) : o.shared s₁ s₂ = o := by
  cases o with
  | done a m => rw [shared, Machine.shared_eq_self h]
  | halted r m => rw [shared, Machine.shared_eq_self h]

theorem Activation.shared_eq_self (a : Activation) : a.shared s₁ s₂ = a := by
  rw [shared, Machine.shared_eq_self h]

end

namespace Activation

variable {s₁ s₂ : Settings} {place : Place} {a b : Activation}

/-- Where the settings part two evaluations, these have come to that activation. -/
theorem Parted.of_parts (h : a.Parts s₁ s₂) : a.Parted s₁ s₂ :=
  ⟨a, .refl, .refl, h⟩

/-- If what both begin comes to be parted, so do they. -/
theorem Parted.of_begins (h₁ : Begins s₁ place a b)
    (h₂ : Begins s₂ place (a.shared s₁ s₂) (b.shared s₁ s₂)) (hb : b.Parted s₁ s₂) :
    a.Parted s₁ s₂ := by
  obtain ⟨c, hc₁, hc₂, hc⟩ := hb
  exact ⟨c, .head ⟨place, h₁⟩ hc₁, .head ⟨place, h₂⟩ hc₂, hc⟩

end Activation

/-! ## Parts of runs -/

section

variable {s₁ s₂ : Settings} {m : Machine}

namespace Run

/-- Parts in lock step, one after the other, make runs in lock step. -/
theorem bind_shared {r₁ r₂ : Run α} {f₁ f₂ : α → Run β}
    (hr : r₂ (m.shared s₁ s₂) = (r₁ m).shared s₁ s₂)
    (hf : ∀ a m₁, r₁ m = .done a m₁ → r₂ (m.shared s₁ s₂) = .done a (m₁.shared s₁ s₂) →
      f₂ a (m₁.shared s₁ s₂) = (f₁ a m₁).shared s₁ s₂) :
    (r₂ >>= f₂) (m.shared s₁ s₂) = ((r₁ >>= f₁) m).shared s₁ s₂ := by
  cases h : r₁ m with
  | done a m₁ =>
    rw [h] at hr
    rw [bind_of_done h, bind_of_done hr, hf a m₁ h hr]
  | halted e m₁ =>
    rw [h] at hr
    rw [bind_of_halted h, bind_of_halted hr]
    rfl

/-- So do parts that a failure ends. -/
theorem unlessError_shared {r₁ r₂ : Run Value} {f₁ f₂ : Value → Run Value}
    (hr : r₂ (m.shared s₁ s₂) = (r₁ m).shared s₁ s₂)
    (hf : ∀ v m₁, r₁ m = .done v m₁ → r₂ (m.shared s₁ s₂) = .done v (m₁.shared s₁ s₂) →
      v.isError = false → f₂ v (m₁.shared s₁ s₂) = (f₁ v m₁).shared s₁ s₂) :
    unlessError r₂ f₂ (m.shared s₁ s₂) = (unlessError r₁ f₁ m).shared s₁ s₂ := by
  refine bind_shared hr fun v m₁ h₁ h₂ => ?_
  cases he : v.isError with
  | true => rfl
  | false => exact hf v m₁ h₁ h₂ he

theorem ofExcept_shared (r : Except Halt α) :
    ofExcept r (m.shared s₁ s₂) = (ofExcept r m).shared s₁ s₂ := by
  cases r <;> rfl

theorem ofLabel_shared (r : Except LabelFault α) :
    ofLabel r (m.shared s₁ s₂) = (ofLabel r m).shared s₁ s₂ :=
  ofExcept_shared _

/-- An entry is left out with the first settings where only they ask for it. -/
theorem record_shared (e : Entry) :
    (record e m).shared s₁ s₂ = if e.isShared s₁ s₂ then record e (m.shared s₁ s₂)
      else .done () (m.shared s₁ s₂) := by
  have hpush : Log.shared s₁ s₂ (m.log.push e) =
      if e.isShared s₁ s₂ then (m.log.shared s₁ s₂).push e else m.log.shared s₁ s₂ :=
    Array.filter_push
  show Outcome.done () { m with log := Log.shared s₁ s₂ (m.log.push e) } = _
  rw [hpush]
  split <;> rfl

/-- A note that does not part two evaluations is made by both, by none, or by the first one alone,
which then goes on like the other. -/
theorem note_shared {n : Note} (hv : s₂.verbosity ≤ s₁.verbosity)
    (hn : n.isExtra s₁ s₂ = true → n.halt? = none) :
    note s₂ n (m.shared s₁ s₂) = (note s₁ n m).shared s₁ s₂ := by
  -- Either both ask for the note, or the first settings alone, or none of them.
  by_cases h₂ : n.level ≤ s₂.verbosity
  · have h₁ : n.level ≤ s₁.verbosity := Nat.le_trans h₂ hv
    have hshared : (Entry.note n).isShared s₁ s₂ = true := by
      simp [Entry.isShared, Note.isExtra, h₂]
    unfold note
    rw [if_pos h₁, if_pos h₂]
    cases n.halt? with
    | some h => rfl
    | none => exact ((record_shared _).trans (if_pos hshared)).symm
  · by_cases h₁ : n.level ≤ s₁.verbosity
    · have hextra : n.isExtra s₁ s₂ = true := by simp [Note.isExtra, h₁, Nat.lt_of_not_le h₂]
      unfold note
      rw [if_pos h₁, if_neg h₂, hn hextra]
      exact ((record_shared _).trans (if_neg (by simp [Entry.isShared, hextra]))).symm
    · unfold note
      rw [if_neg h₁, if_neg h₂]
      rfl

end Run

namespace Eval

variable {inner₁ inner₂ : Evaluator} {scope : ScopeId} {ts : List Program}

/-- Statements go in lock step if each one does that both evaluations come to. -/
theorem statements_shared {last : Value}
    (hi : ∀ t m₁, InTurn inner₁ scope Value.completes ts m t m₁ →
      InTurn inner₂ scope Value.completes ts (m.shared s₁ s₂) t (m₁.shared s₁ s₂) →
      inner₂ t scope (m₁.shared s₁ s₂) = (inner₁ t scope m₁).shared s₁ s₂) :
    statements inner₂ scope last ts (m.shared s₁ s₂) =
      (statements inner₁ scope last ts m).shared s₁ s₂ := by
  induction ts generalizing m last with
  | nil => rfl
  | cons t ts ih =>
    rw [statements_cons, statements_cons]
    refine Run.bind_shared (hi t m .here .here) fun v m₁ h₁ h₂ => ?_
    split
    · next hc => exact ih fun u m₂ hu₁ hu₂ => hi u m₂ (.later h₁ hc hu₁) (.later h₂ hc hu₂)
    · rfl

/-- And so do expressions. -/
theorem expressions_shared
    (hi : ∀ t m₁, InTurn inner₁ scope (fun v => !v.isError) ts m t m₁ →
      InTurn inner₂ scope (fun v => !v.isError) ts (m.shared s₁ s₂) t (m₁.shared s₁ s₂) →
      inner₂ t scope (m₁.shared s₁ s₂) = (inner₁ t scope m₁).shared s₁ s₂) :
    expressions inner₂ scope ts (m.shared s₁ s₂) =
      (expressions inner₁ scope ts m).shared s₁ s₂ := by
  induction ts generalizing m with
  | nil => rfl
  | cons t ts ih =>
    refine Run.bind_shared (hi t m .here .here) fun v m₁ h₁ h₂ => ?_
    have hts (he : v.isError = false) : expressions inner₂ scope ts (m₁.shared s₁ s₂) =
        (expressions inner₁ scope ts m₁).shared s₁ s₂ := by
      have hc : (!v.isError) = true := by rw [he]; rfl
      exact ih fun u m₂ hu₁ hu₂ => hi u m₂ (.later h₁ hc hu₁) (.later h₂ hc hu₂)
    -- A failure ends both lists, any other value is followed by the rest of them.
    cases v with
    | error f => rfl
    | _ => exact Run.bind_shared (hts rfl) fun _ _ _ _ => rfl

/-- The names of parameters are found alike. -/
theorem names_shared (js : List Json) :
    names js (m.shared s₁ s₂) = (names js m).shared s₁ s₂ := by
  induction js generalizing m with
  | nil => rfl
  | cons j js ih =>
    exact Run.bind_shared (Run.ofLabel_shared _) fun _ _ _ _ =>
      Run.bind_shared ih fun _ _ _ _ => rfl

/-- Printing is shared by both, since lines are never left out. -/
theorem printAll_shared (vs : List Value) :
    printAll vs (m.shared s₁ s₂) = (printAll vs m).shared s₁ s₂ := by
  induction vs generalizing m with
  | nil => rfl
  | cons v vs ih =>
    refine Run.bind_shared (Run.ofExcept_shared _) fun line _ _ _ => ?_
    exact Run.bind_shared (Run.record_shared (.printed line)).symm fun _ _ _ _ => ih

/-- A builtin function does not look at the settings. -/
theorem builtin_shared (b : Builtin) (vs : List Value) :
    builtin b vs (m.shared s₁ s₂) = (builtin b vs m).shared s₁ s₂ := by
  cases b with
  | puts => exact Run.bind_shared (printAll_shared vs) fun _ _ _ _ => rfl
  | len =>
    cases vs with
    | nil => rfl
    | cons v vs =>
      cases v with
      | datum j => exact Run.bind_shared (Run.ofLabel_shared _) fun _ _ _ _ => rfl
      | _ => rfl

end Eval

end

/-! ## Activations -/

section

variable {s₁ s₂ : Settings} {n : Nat} {m : Machine}

/-- Both evaluations agree on the trees that are evaluated with the budget `n`, unless they part. -/
def InStep (s₁ s₂ : Settings) (n : Nat) : Prop :=
  ∀ t scope m, ¬ Activation.Parted s₁ s₂ ⟨n, .node t scope, m⟩ →
    eval s₂ n t scope (m.shared s₁ s₂) = (eval s₁ n t scope m).shared s₁ s₂

/-- What both evaluations begin is in step, if they do not part. -/
theorem InStep.part {place : Place} {a : Activation} {t : Program} {scope : ScopeId}
    (hn : InStep s₁ s₂ n) (ha : ¬ a.Parted s₁ s₂)
    (h₁ : Begins s₁ place a ⟨n, .node t scope, m⟩)
    (h₂ : Begins s₂ place (a.shared s₁ s₂) ⟨n, .node t scope, m.shared s₁ s₂⟩) :
    eval s₂ n t scope (m.shared s₁ s₂) = (eval s₁ n t scope m).shared s₁ s₂ :=
  hn t scope m fun hp => ha (hp.of_begins h₁ h₂)

/-- A call is in step, if its body is. -/
theorem InStep.call {f : Value} {vs : List Value} (hn : InStep s₁ s₂ n)
    (hv : s₂.verbosity ≤ s₁.verbosity) (ha : ¬ Activation.Parted s₁ s₂ ⟨n, .call f vs, m⟩) :
    Eval.call s₂ (eval s₂ n) f vs (m.shared s₁ s₂) =
      (Eval.call s₁ (eval s₁ n) f vs m).shared s₁ s₂ := by
  have hparts : ¬ Activation.Parts s₁ s₂ ⟨n, .call f vs, m⟩ := fun h => ha (.of_parts h)
  cases f with
  | function ps b scope =>
    -- both settings refuse the call, or none does
    have hiff : (s₁.strictArity ∧ vs.length ≠ ps.length) ↔
        (s₂.strictArity ∧ vs.length ≠ ps.length) := by
      by_cases hl : vs.length = ps.length
      · simp only [hl, ne_eq, not_true_eq_false, and_false]
      · by_cases hs : s₁.strictArity = s₂.strictArity
        · rw [hs]
        · exact absurd (.arity hs hl) hparts
    by_cases hp : s₁.strictArity ∧ vs.length ≠ ps.length
    · rw [Eval.call_function_of_ne hp, Eval.call_function_of_ne (hiff.1 hp)]
      rfl
    · have hp₂ : ¬ (s₂.strictArity ∧ vs.length ≠ ps.length) := fun h => hp (hiff.2 h)
      rw [Eval.call_function hp, Eval.call_function hp₂]
      refine Run.bind_shared (Run.note_shared hv fun he => ?_) fun _ m₁ h₁ h₁' => ?_
      · exact Option.eq_none_iff_forall_ne_some.2 fun h hh => hparts (.untold (.called hp) he hh)
      refine Run.bind_shared (Eval.names_shared _) fun xs m₂ h₂ h₂' => ?_
      refine Run.bind_shared rfl fun i m₃ h₃ _ => ?_
      cases h₃
      exact Run.bind_shared (hn.part ha (.body hp h₁ h₂) (.body hp₂ h₁' h₂')) fun _ _ _ _ => rfl
  | builtin b =>
    rcases Eval.arity_cases b vs.length with hb | ⟨k, hk, hne⟩
    · rw [Eval.call_builtin hb, Eval.call_builtin hb]
      exact Run.bind_shared (Run.note_shared hv fun _ => rfl) fun _ _ _ _ => Eval.builtin_shared b vs
    · rw [Eval.call_builtin_of_ne hk hne, Eval.call_builtin_of_ne hk hne]
      rfl
  | _ => rfl

/-- One level more: what comes first is in step, so both evaluations begin the same next. -/
theorem InStep.succ (hn : InStep s₁ s₂ n) (hv : s₂.verbosity ≤ s₁.verbosity) :
    InStep s₁ s₂ (n + 1) := by
  intro t scope m ha
  -- a note that only the first settings ask for lets the evaluation go on, or this is where it parts
  have untold (k : Note) (hk : Activation.Notes s₁ ⟨n + 1, .node t scope, m⟩ k)
      (he : k.isExtra s₁ s₂ = true) : k.halt? = none :=
    Option.eq_none_iff_forall_ne_some.2 fun h hh => ha (.of_parts (.untold hk he hh))
  cases t with
  | missing | integer | string | boolean | function => rfl
  | program ss =>
    refine Run.bind_shared (Eval.statements_shared fun t m₁ h₁ h₂ => ?_) fun _ _ _ _ => rfl
    exact hn.part ha (.programStatement h₁) (.programStatement h₂)
  | block ss =>
    exact Eval.statements_shared fun t m₁ h₁ h₂ =>
      hn.part ha (.blockStatement h₁) (.blockStatement h₂)
  | expressionStatement e => exact hn.part ha .expression .expression
  | letStatement x e =>
    refine Run.unlessError_shared (hn.part ha .letValue .letValue) fun v m₁ h₁ _ he => ?_
    refine Run.bind_shared (Run.ofLabel_shared _) fun name m₂ hname _ => ?_
    -- the name that came out of the label is the one that the note tells
    have hx : x.name = .ok name := by
      cases hx : x.name with
      | ok y => rw [hx] at hname; cases hname; rfl
      | error f => rw [hx] at hname; cases hname
    refine Run.bind_shared rfl fun _ m₃ _ _ => ?_
    exact Run.bind_shared (Run.note_shared hv (untold _ (.bound h₁ he hx))) fun _ _ _ _ => rfl
  | returnStatement e =>
    cases he : e.isMissing with
    | true =>
      obtain rfl := Tree.eq_missing he
      rfl
    | false =>
      rw [Eval.eval_returnStatement he, Eval.eval_returnStatement he]
      exact Run.unlessError_shared (hn.part ha (.returnValue he) (.returnValue he))
        fun _ _ _ _ _ => rfl
  | identifier x =>
    refine Run.bind_shared (Run.ofLabel_shared _) fun name m₁ _ _ => ?_
    refine Run.bind_shared rfl fun o m₂ _ _ => ?_
    cases o <;> rfl
  | prefixed o e =>
    exact Run.unlessError_shared (hn.part ha .prefixOperand .prefixOperand) fun _ _ _ _ _ => rfl
  | infixed l o r =>
    refine Run.unlessError_shared (hn.part ha .leftOperand .leftOperand) fun v m₁ h₁ h₂ he => ?_
    exact Run.unlessError_shared (hn.part ha (.rightOperand h₁ he) (.rightOperand h₂ he))
      fun _ _ _ _ _ => Run.ofLabel_shared _
  | conditional c t e =>
    refine Run.unlessError_shared (hn.part ha .condition .condition) fun v m₁ h₁ h₂ he => ?_
    refine Run.bind_shared (Run.note_shared hv (untold _ (.decided h₁ he))) fun _ m₂ hn₁ hn₂ => ?_
    cases ht : v.truthy with
    | true => exact hn.part ha (.consequence h₁ he hn₁ ht) (.consequence h₂ he hn₂ ht)
    | false =>
      cases hm : e.isMissing with
      | true =>
        obtain rfl := Tree.eq_missing hm
        rfl
      | false =>
        have hs := hn.part ha (.alternative h₁ he hn₁ ht hm) (.alternative h₂ he hn₂ ht hm)
        cases e with
        | missing => cases hm
        | _ => exact hs
  | call f as =>
    refine Run.unlessError_shared (hn.part ha .callee .callee) fun v m₁ h₁ h₂ he => ?_
    refine Run.bind_shared (Eval.expressions_shared fun t m₂ ht₁ ht₂ =>
      hn.part ha (.argument h₁ he ht₁) (.argument h₂ he ht₂)) fun r m₂ hr₁ hr₂ => ?_
    cases r with
    | error _ => rfl
    | ok vs =>
      exact hn.call hv fun hp => ha (hp.of_begins (.application h₁ he hr₁) (.application h₂ he hr₂))

end

/-- Two evaluations do the same but for the notes that only the first settings ask for, unless both
come to an activation where the settings part them. -/
theorem Activation.outcome_shared {s₁ s₂ : Settings} {a : Activation}
    (hv : s₂.verbosity ≤ s₁.verbosity) (ha : ¬ a.Parted s₁ s₂) :
    (a.shared s₁ s₂).outcome s₂ = (a.outcome s₁).shared s₁ s₂ := by
  have hn : ∀ n, InStep s₁ s₂ n := by
    intro n
    induction n with
    | zero => exact fun t scope m _ => rfl
    | succ n ih => exact ih.succ hv
  obtain ⟨n, task, m⟩ := a
  cases task with
  | node t scope => exact hn n t scope m ha
  | call f vs => exact (hn n).call hv ha
  | builtin b vs => exact Eval.builtin_shared b vs

end MonkeyLang
