import MonkeyLang.Session

/-!
# A logic for runs

`Outcome.Keeps K S Q` says of the end of a run that `K` holds of the store whatever the end is, that
a halt is one of those in `S`, and that `Q` holds of a value. The rules below take a run apart into
its parts. They are used for what holds of single stores (`Contract`) and, with a relation to the
first store in the place of `K`, for what a run leaves as it was (`Frame`).
-/

namespace MonkeyLang

variable {α β : Type}

namespace Value

/-- Whether a value is a `return` on its way out. -/
def isReturned : Value → Bool
  | .returned _ => true
  | _ => false

/-- Whether statements go on after one with this value. -/
def completes (v : Value) : Bool :=
  !v.isReturned && !v.isError

theorem exists_eq_error {v : Value} (h : v.isError = true) : ∃ f, v = .error f := by
  cases v with
  | error f => exact ⟨f, rfl⟩
  | _ => cases h

theorem exists_eq_returned {v : Value} (h : v.isReturned = true) : ∃ w, v = .returned w := by
  cases v with
  | returned w => exact ⟨w, rfl⟩
  | _ => cases h

theorem completes_iff {v : Value} :
    v.completes = true ↔ v.isReturned = false ∧ v.isError = false := by
  rw [completes, Bool.and_eq_true, Bool.not_eq_true', Bool.not_eq_true']

/-- A value that is no `return` is not changed where a `return` would end. -/
theorem unwrapped_of_not_returned {v : Value} (h : v.isReturned = false) : v.unwrapped = v := by
  cases v with
  | returned w => cases h
  | _ => rfl

end Value

/-- The store at the end satisfies `K`, and the end is a value that satisfies `Q` or a halt that
satisfies `S`. -/
def Outcome.Keeps (K : Store → Prop) (S : Halt → Prop) (Q : α → Prop) : Outcome α → Prop
  | .done a m => K m.store ∧ Q a
  | .halted h m => K m.store ∧ S h

namespace Outcome.Keeps

variable {K K' : Store → Prop} {S S' : Halt → Prop} {Q Q' : α → Prop} {o : Outcome α}

/-- What is kept may be weakened. -/
theorem mono (h : o.Keeps K S Q) (hk : ∀ s, K s → K' s) (hs : ∀ h, S h → S' h)
    (hq : ∀ a, Q a → Q' a) : o.Keeps K' S' Q' := by
  cases o with
  | done a m => exact ⟨hk _ h.1, hq a h.2⟩
  | halted _ m => exact ⟨hk _ h.1, hs _ h.2⟩

theorem imp (h : o.Keeps K S Q) (hq : ∀ a, Q a → Q' a) : o.Keeps K S Q' :=
  h.mono (fun _ => id) (fun _ => id) hq

/-- Whatever the end is, its store satisfies what is kept. -/
theorem store (h : o.Keeps K S Q) : K o.machine.store := by
  cases o with
  | done a m => exact h.1
  | halted _ m => exact h.1

/-- Every end has a store, of which alone something may be kept. -/
theorem of_store (h : K o.machine.store) : o.Keeps K (fun _ => True) fun _ => True := by
  cases o with
  | done a m => exact ⟨h, trivial⟩
  | halted _ m => exact ⟨h, trivial⟩

/-- More may be said of a value by the end that gave it. -/
theorem of_done (h : o.Keeps K S Q) (hq : ∀ a m, o = .done a m → Q a → Q' a) : o.Keeps K S Q' := by
  cases o with
  | done a m => exact ⟨h.1, hq a m rfl h.2⟩
  | halted _ m => exact h

end Outcome.Keeps

namespace Run

variable {K : Store → Prop} {S : Halt → Prop} {Q : β → Prop} {R : α → Prop} {m m₁ : Machine}
  {settings : Settings}

/-! ## Parts of runs -/

/-- A first part that is done hands its value and its machine on. -/
theorem bind_of_done {r : Run α} {f : α → Run β} {a : α} (h : r m = .done a m₁) :
    (r >>= f) m = f a m₁ := by
  show Run.andThen r f m = _
  rw [andThen, h]

/-- A first part that halts is the end of the whole. -/
theorem bind_of_halted {r : Run α} {f : α → Run β} {h : Halt} (hr : r m = .halted h m₁) :
    (r >>= f) m = .halted h m₁ := by
  show Run.andThen r f m = _
  rw [andThen, hr]

/-- A run that ends with a value has come through its first part. -/
theorem exists_of_bind {r : Run α} {f : α → Run β} {b : β} (h : (r >>= f) m = .done b m₁) :
    ∃ a m₂, r m = .done a m₂ ∧ f a m₂ = .done b m₁ := by
  cases hr : r m with
  | done a m₂ => exact ⟨a, m₂, rfl, (bind_of_done hr).symm.trans h⟩
  | halted _ _ => cases (bind_of_halted hr).symm.trans h

/-- Two runs agree if their first parts do, and what follows agrees on the end of these. -/
theorem bind_congr {r r' : Run α} {f g : α → Run β} (hr : r m = r' m)
    (h : ∀ a m₁, r m = .done a m₁ → f a m₁ = g a m₁) : (r >>= f) m = (r' >>= g) m := by
  cases ho : r m with
  | done a m₁ => rw [bind_of_done ho, bind_of_done (hr.symm.trans ho), h a m₁ ho]
  | halted _ m₁ => rw [bind_of_halted ho, bind_of_halted (hr.symm.trans ho)]

/-- A value that is no failure is handed on. -/
theorem unlessError_of_done {r : Run Value} {next : Value → Run Value} {v : Value}
    (h : r m = .done v m₁) (hv : v.isError = false) : unlessError r next m = next v m₁ := by
  rw [unlessError, bind_of_done h, hv]
  rfl

/-- A failure is the result, and the next part is not run. -/
theorem unlessError_of_error {r : Run Value} {next : Value → Run Value} {v : Value}
    (h : r m = .done v m₁) (hv : v.isError = true) : unlessError r next m = .done v m₁ := by
  rw [unlessError, bind_of_done h, hv]
  rfl

theorem unlessError_of_halted {r : Run Value} {next : Value → Run Value} {h : Halt}
    (hr : r m = .halted h m₁) : unlessError r next m = .halted h m₁ := by
  rw [unlessError, bind_of_halted hr]

/-- The value of the whole is a failure of the first part, or what the next part made of its value.
-/
theorem unlessError_cases {r : Run Value} {next : Value → Run Value} {v : Value}
    (h : unlessError r next m = .done v m₁) :
    (v.isError = true ∧ r m = .done v m₁) ∨
      ∃ u m₂, r m = .done u m₂ ∧ u.isError = false ∧ next u m₂ = .done v m₁ := by
  obtain ⟨u, m₂, hr, h⟩ := exists_of_bind h
  -- Either the value of the first part ended the run, or it was handed on.
  cases hu : u.isError with
  | true =>
    rw [hu] at h
    cases h
    exact .inl ⟨hu, hr⟩
  | false =>
    rw [hu] at h
    exact .inr ⟨u, m₂, hr, hu, h⟩

/-- Two such runs agree if their first parts do, and what follows agrees on values that are no
failures. -/
theorem unlessError_congr {r r' : Run Value} {f g : Value → Run Value} (hr : r m = r' m)
    (h : ∀ v m₁, r m = .done v m₁ → v.isError = false → f v m₁ = g v m₁) :
    unlessError r f m = unlessError r' g m := by
  refine bind_congr hr fun v m₁ hv => ?_
  cases he : v.isError with
  | true => rfl
  | false => exact h v m₁ hv he

/-- Making a note adds to the log and leaves the scopes alone, or halts where the note cannot be
made. -/
theorem note_cases (settings : Settings) (n : Note) (m : Machine) :
    (∃ log, note settings n m = .done () { m with log }) ∨
      ∃ h, n.halt? = some h ∧ note settings n m = .halted h m := by
  -- Below its level a note is not even looked at.
  by_cases hl : n.level ≤ settings.verbosity
  · cases hn : n.halt? with
    | none => exact .inl ⟨m.log.push (.note n), by simp only [note, if_pos hl, hn]; rfl⟩
    | some h => exact .inr ⟨h, rfl, by simp only [note, if_pos hl, hn]; rfl⟩
  · exact .inl ⟨m.log, by simp only [note, if_neg hl]; rfl⟩

/-- A note that was made has left the scopes alone. -/
theorem store_of_note {n : Note} {u : Unit} (h : note settings n m = .done u m₁) :
    m₁.store = m.store := by
  obtain ⟨log, hn⟩ | ⟨_, -, hn⟩ := note_cases settings n m
  · rw [hn] at h
    cases h
    rfl
  · rw [hn] at h
    cases h

/-! ## Rules -/

/-- One part after the other. What is known of the end of the first part may be used for the second,
also how it was come to. -/
theorem keeps_bind {r : Run α} {f : α → Run β} (hr : (r m).Keeps K S R)
    (hf : ∀ a m₁, r m = .done a m₁ → K m₁.store → R a → (f a m₁).Keeps K S Q) :
    ((r >>= f) m).Keeps K S Q := by
  -- A halt of the first part is the end of the whole, with the store that it kept.
  cases h : r m with
  | done a m₁ =>
    rw [h] at hr
    rw [bind_of_done h]
    exact hf a m₁ h hr.1 hr.2
  | halted _ m₁ =>
    rw [h] at hr
    rw [bind_of_halted h]
    exact hr

/-- A value that is a failure ends the run; any other goes to the next part. -/
theorem keeps_unlessError {r : Run Value} {next : Value → Run Value} {R Q : Value → Prop}
    (hr : (r m).Keeps K S R) (he : ∀ f, R (.error f) → Q (.error f))
    (hn : ∀ v m₁, r m = .done v m₁ → K m₁.store → R v → v.isError = false →
      (next v m₁).Keeps K S Q) :
    (unlessError r next m).Keeps K S Q := by
  refine keeps_bind hr fun v m₁ h hk hv => ?_
  cases hv' : v.isError with
  | false => exact hn v m₁ h hk hv hv'
  | true =>
    obtain ⟨f, rfl⟩ := Value.exists_eq_error hv'
    exact ⟨hk, he f hv⟩

/-- A note keeps the store, and halts only for a value that cannot be shown. -/
theorem keeps_note {n : Note} (hk : K m.store) (hs : ∀ h, n.halt? = some h → S h) :
    (note settings n m).Keeps K S fun _ => True := by
  obtain ⟨log, hn⟩ | ⟨h, hh, hn⟩ := note_cases settings n m <;> rw [hn]
  · exact ⟨hk, trivial⟩
  · exact ⟨hk, hs h hh⟩

/-- A result keeps the store, and its error is the only halt. -/
theorem keeps_ofExcept {r : Except Halt α} (hk : K m.store) (hs : ∀ h, r = .error h → S h)
    (hq : ∀ a, r = .ok a → R a) : (ofExcept r m).Keeps K S R := by
  cases r with
  | ok a => exact ⟨hk, hq a rfl⟩
  | error h => exact ⟨hk, hs h rfl⟩

/-- What a label gives keeps the store, and its fault is the only halt. -/
theorem keeps_ofLabel {r : Except LabelFault α} (hk : K m.store)
    (hs : ∀ f, r = .error f → S (.label f)) (hq : ∀ a, r = .ok a → R a) :
    (ofLabel r m).Keeps K S R := by
  cases r with
  | ok a => exact ⟨hk, hq a rfl⟩
  | error f => exact ⟨hk, hs f rfl⟩

end Run

/-! ## The loops of evaluation -/

namespace Eval

variable (inner : Evaluator) (scope : ScopeId)

/-- Statements go on after the first one if that completes. -/
theorem statements_cons (last : Value) (s : Program) (ss : List Program) :
    statements inner scope last (s :: ss) = (inner s scope >>= fun v =>
      if v.completes then statements inner scope v ss else pure v) := by
  funext m
  show Run.andThen _ _ m = Run.andThen _ _ m
  unfold Run.andThen
  cases inner s scope m with
  -- `completes` puts the two branches that end the sequence into one
  | done v m₁ => cases v <;> rfl
  | halted h m₁ => rfl

/-- Expressions go on after the first one if that is no failure. -/
theorem expressions_cons_of_done {e : Program} {es : List Program} {m m₁ : Machine} {v : Value}
    (h : inner e scope m = .done v m₁) (hv : v.isError = false) :
    expressions inner scope (e :: es) m =
      (do return (← expressions inner scope es).map (v :: ·) : Run _) m₁ := by
  show Run.andThen _ _ m = _
  rw [Run.andThen, h]
  cases v with
  | error f => cases hv
  | _ => rfl

/-- A failure of the first expression is the result of all. -/
theorem expressions_cons_of_error {e : Program} {es : List Program} {m m₁ : Machine} {f : Failure}
    (h : inner e scope m = .done (.error f) m₁) :
    expressions inner scope (e :: es) m = .done (.error f) m₁ := by
  show Run.andThen _ _ m = _
  rw [Run.andThen, h]
  rfl

theorem expressions_cons_of_halted {e : Program} {es : List Program} {m m₁ : Machine} {h : Halt}
    (hr : inner e scope m = .halted h m₁) :
    expressions inner scope (e :: es) m = .halted h m₁ := by
  show Run.andThen _ _ m = _
  rw [Run.andThen, hr]

/-- A `return` with a value wraps it, unless it is a failure. -/
theorem eval_returnStatement {settings : Settings} {n : Nat} {e : Program} {scope : ScopeId}
    (h : e.isMissing = false) :
    eval settings (n + 1) (.returnStatement e) scope =
      Run.unlessError (eval settings n e scope) fun v => return .returned v := by
  cases e with
  | missing => cases h
  | _ => rfl

/-! ## Calls -/

section

variable {inner} {settings : Settings} {vs : List Value}

/-- A function that takes the arguments binds them in a new scope and evaluates its body there. -/
theorem call_function {ps : List Json} {b : Program} {scope : ScopeId}
    (h : ¬ (settings.strictArity ∧ vs.length ≠ ps.length)) :
    call settings inner (.function ps b scope) vs = (do
      Run.note settings (.called ps vs.length)
      let xs ← names (ps.take vs.length)
      let scope ← Run.addScope (frame xs vs scope)
      return (← inner b scope).unwrapped) := by
  rw [call, if_neg h]

/-- With strict arity another number of arguments is a failure. -/
theorem call_function_of_ne {ps : List Json} {b : Program} {scope : ScopeId}
    (h : settings.strictArity ∧ vs.length ≠ ps.length) :
    call settings inner (.function ps b scope) vs =
      pure (.error (.wrongArity .function vs.length ps.length)) := by
  rw [call, if_pos h]

/-- A builtin function takes `n` arguments, or it asks for another number of them. -/
theorem arity_cases (b : Builtin) (n : Nat) :
    (∀ k, b.arity = some k → n = k) ∨ ∃ k, b.arity = some k ∧ n ≠ k := by
  by_cases h : ∃ k, b.arity = some k ∧ n ≠ k
  · exact .inr h
  · exact .inl fun k hk => Decidable.byContradiction fun hne => h ⟨k, hk, hne⟩

/-- A builtin function that takes the arguments is noted and applied. -/
theorem call_builtin {b : Builtin} (h : ∀ k, b.arity = some k → vs.length = k) :
    call settings inner (.builtin b) vs = (do
      Run.note settings (.calledBuiltin b vs.length)
      builtin b vs) := by
  unfold call
  cases hb : b.arity with
  | none => simp only [hb]
  | some k => simp only [hb, h k hb, ne_eq, not_true_eq_false, if_false]

/-- Another number of arguments for a builtin function is a failure. -/
theorem call_builtin_of_ne {b : Builtin} {k : Nat} (hb : b.arity = some k) (h : vs.length ≠ k) :
    call settings inner (.builtin b) vs = pure (.error (.wrongArity .builtin vs.length k)) := by
  unfold call
  simp only [hb, ne_eq, h, not_false_eq_true, if_true]

end

end Eval

end MonkeyLang
