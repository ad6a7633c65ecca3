import MonkeyLang.Proofs.Eval.Frame
import MonkeyLang.Proofs.Scope.Forest

/-!
# Evaluation makes scopes inside of older ones

A call makes a scope inside of the one that its function was made in. That one is older, since
functions refer to scopes that are there. Main statement: `nesting_eval` says so of a whole
evaluation, together with what it needs on the way: what is bound and what comes out refers to scopes
that are there.
-/

namespace MonkeyLang

variable {α β : Type}

/-- However a run ends, its scopes nest in those of `s`, and `Q` holds of a value and of the number
of scopes that there are then. -/
def Outcome.Nests (s : Store) (Q : Nat → α → Prop) : Outcome α → Prop
  | .done a m => s.Nests m.store ∧ Q m.store.next a
  | .halted _ m => s.Nests m.store

section

variable {s s₁ : Store} {m : Machine}

namespace Outcome.Nests

variable {Q Q' : Nat → α → Prop} {o : Outcome α}

theorem store (h : o.Nests s Q) : s.Nests o.machine.store := by
  cases o with
  | done a m => exact h.1
  | halted _ m => exact h

/-- What comes after another part of a run. -/
theorem after (h : o.Nests s₁ Q) (hs : s.Nests s₁) (hq : ∀ n a, s₁.next ≤ n → Q n a → Q' n a) :
    o.Nests s Q' := by
  cases o with
  | done a m => exact ⟨hs.trans h.1, hq _ a h.1.next_le h.2⟩
  | halted _ m => exact hs.trans h

theorem imp (h : o.Nests s Q) (hq : ∀ n a, Q n a → Q' n a) : o.Nests s Q' := by
  cases o with
  | done a m => exact ⟨h.1, hq _ a h.2⟩
  | halted _ m => exact h

/-- A run that leaves the scopes alone. -/
theorem of_keeps {S : Halt → Prop} {P : α → Prop} (h : o.Keeps (· = s₁) S P) (hs : s.Nests s₁) :
    o.Nests s fun n a => n = s₁.next ∧ P a := by
  cases o with
  | done a m =>
    obtain ⟨rfl, hp⟩ := h
    exact ⟨hs, rfl, hp⟩
  | halted _ m =>
    obtain ⟨rfl, -⟩ := h
    exact hs

end Outcome.Nests

namespace Run

/-- Parts one after the other, the second from the scopes that the first one left. -/
theorem nests_bind {r : Run α} {f : α → Run β} {R : Nat → α → Prop} {Q : Nat → β → Prop}
    (hr : (r m).Nests s R)
    (hf : ∀ a m₁, s.Nests m₁.store → R m₁.store.next a → (f a m₁).Nests s Q) :
    ((r >>= f) m).Nests s Q := by
  cases h : r m with
  | done a m₁ =>
    rw [h] at hr
    rw [bind_of_done h]
    exact hf a m₁ hr.1 hr.2
  | halted _ m₁ =>
    rw [h] at hr
    rw [bind_of_halted h]
    exact hr

/-- The next part, unless the value is a failure. -/
theorem nests_unlessError {r : Run Value} {next : Value → Run Value}
    (hr : (r m).Nests s Value.Within)
    (hn : ∀ v m₁, s.Nests m₁.store → v.Within m₁.store.next → (next v m₁).Nests s Value.Within) :
    (unlessError r next m).Nests s Value.Within := by
  refine nests_bind hr fun v m₁ hs hv => ?_
  cases v.isError with
  | true => exact ⟨hs, hv⟩
  | false => exact hn v m₁ hs hv

/-- A note makes no scope. -/
theorem nests_note {settings : Settings} {n : Note} (hs : s.Nests m.store) :
    (note settings n m).Nests s fun k _ => k = m.store.next := by
  have hn : (note settings n m).Keeps (· = m.store) (fun _ => True) fun _ => True :=
    keeps_note rfl fun _ _ => trivial
  exact (Outcome.Nests.of_keeps hn hs).imp fun _ _ h => h.1

/-- What a label gives makes no scope. -/
theorem nests_ofLabel {r : Except LabelFault α} {P : α → Prop} (hs : s.Nests m.store)
    (hp : ∀ a, r = .ok a → P a) : (ofLabel r m).Nests s fun k a => k = m.store.next ∧ P a :=
  .of_keeps (S := fun _ => True) (keeps_ofLabel rfl (fun _ _ => trivial) hp) hs

end Run

/-! ## Values that refer to no scope -/

/-- The value of a prefix operation refers to no scope. -/
theorem within_applyPrefix (n : Nat) (o : String) (v : Value) : (applyPrefix o v).Within n := by
  obtain ⟨k, h⟩ | ⟨b, h⟩ | ⟨f, h⟩ := applyPrefix_cases o v <;> rw [h] <;> trivial

/-- The value of an infix operation refers to no scope. -/
theorem within_applyInfix (n : Nat) {o : String} {v w u : Value} (h : applyInfix o v w = .ok u) :
    u.Within n := by
  obtain ⟨u', hu, hcases⟩ | ⟨-, hcases⟩ := applyInfix_cases o v w
  · cases hu.symm.trans h
    obtain ⟨k, rfl⟩ | ⟨b, rfl⟩ | ⟨t, rfl⟩ | ⟨f, rfl⟩ := hcases <;> trivial
  · obtain ⟨t, rfl⟩ | ⟨j, rfl⟩ | ⟨f, rfl⟩ := hcases u h <;> trivial

/-- A builtin function makes no scope. -/
theorem nests_builtin (b : Builtin) (vs : List Value) (hs : s.Nests m.store) :
    (Eval.builtin b vs m).Nests s Value.Within := by
  cases b with
  | puts =>
    have hprint : (Eval.printAll vs m).Keeps (· = m.store) (fun _ => True) fun _ => True :=
      keeps_printAll rfl fun _ _ _ _ => trivial
    exact Run.nests_bind (.of_keeps hprint hs) fun _ m₁ hs₁ _ => ⟨hs₁, trivial⟩
  | len =>
    cases vs with
    | nil => exact hs
    | cons v vs =>
      cases v with
      | datum j =>
        refine Run.nests_bind (Run.nests_ofLabel (P := fun _ => True) hs fun _ _ => trivial) ?_
        exact fun k m₁ hs₁ _ => ⟨hs₁, trivial⟩
      | _ => exact ⟨hs, trivial⟩

end

/-! ## Evaluation -/

/-- Evaluation in a scope that is there adds scopes inside of older ones only. -/
def Nesting (inner : Evaluator) : Prop :=
  ∀ (t : Program) (e : ScopeId) (m : Machine), m.store.Closed → e < m.store.next →
    (inner t e m).Nests m.store Value.Within

namespace Nesting

variable {settings : Settings} {inner : Evaluator} {s : Store} {m : Machine} {e : ScopeId}

/-- A part of an evaluation, in the same scope, after some others. -/
theorem part {t : Program} (hi : Nesting inner) (he : e < s.next) (hs : s.Nests m.store) :
    (inner t e m).Nests s Value.Within :=
  (hi t e m hs.closed (Nat.lt_of_lt_of_le he hs.next_le)).after hs fun _ _ _ hv => hv

/-- Statements in turn make scopes inside of older ones only. -/
theorem statements {ts : List Program} {last : Value} (hi : Nesting inner) (he : e < s.next)
    (hs : s.Nests m.store) (hl : last.Within m.store.next) :
    (Eval.statements inner e last ts m).Nests s Value.Within := by
  induction ts generalizing m last with
  | nil => exact ⟨hs, hl⟩
  | cons t ts ih =>
    rw [Eval.statements_cons]
    refine Run.nests_bind (hi.part he hs) fun v m₁ hs₁ hv => ?_
    split
    · exact ih hs₁ hv
    · exact ⟨hs₁, hv⟩

/-- So do expressions, and all their values still refer to scopes that are there at the end. -/
theorem expressions {ts : List Program} (hi : Nesting inner) (he : e < s.next)
    (hs : s.Nests m.store) :
    (Eval.expressions inner e ts m).Nests s fun n r => ∀ vs, r = .ok vs → ∀ v ∈ vs, v.Within n := by
  induction ts generalizing s m with
  | nil => exact ⟨hs, fun vs h => by cases h; exact nofun⟩
  | cons t ts ih =>
    refine Run.nests_bind (hi.part he hs) fun v m₁ hs₁ hv => ?_
    have hts := ih (Nat.lt_of_lt_of_le he hs₁.next_le) (.refl hs₁.closed)
    -- the scopes that `v` refers to are still there after the other expressions
    have hcons : (Eval.expressions inner e ts m₁).Nests s fun n r =>
        v.Within n ∧ ∀ vs, r = .ok vs → ∀ v ∈ vs, v.Within n :=
      hts.after hs₁ fun n r hn hr => ⟨hv.mono hn, hr⟩
    cases v with
    | error f => exact ⟨hs₁, nofun⟩
    | _ =>
      refine Run.nests_bind hcons fun r m₂ hs₂ hr => ⟨hs₂, fun us hu => ?_⟩
      cases r with
      | error f => cases hu
      | ok vs =>
        cases hu
        exact List.forall_mem_cons.2 ⟨hr.1, hr.2 vs rfl⟩

/-- A call makes one scope, inside of the one that its function refers to. -/
theorem call {f : Value} {vs : List Value} (hi : Nesting inner) (hs : s.Nests m.store)
    (hf : f.Within m.store.next) (hvs : ∀ v ∈ vs, v.Within m.store.next) :
    (Eval.call settings inner f vs m).Nests s Value.Within := by
  cases f with
  | function ps b scope =>
    by_cases hp : settings.strictArity ∧ vs.length ≠ ps.length
    · rw [Eval.call_function_of_ne hp]
      exact ⟨hs, trivial⟩
    · rw [Eval.call_function hp]
      refine Run.nests_bind (Run.nests_note hs) fun _ m₁ hs₁ h₁ => ?_
      have hnames : (Eval.names (ps.take vs.length) m₁).Keeps (· = m₁.store) (fun _ => True)
          fun _ => True := keeps_names _ rfl fun _ _ _ _ => trivial
      refine Run.nests_bind (.of_keeps hnames hs₁) fun xs m₂ hs₂ h₂ => ?_
      -- no scope was made up to here, so the function and the arguments speak of those of `m₂`
      have hnext : m₂.store.next = m.store.next := h₂.1.trans h₁
      have hframe : m₂.store.Nests (m₂.store.add (Eval.frame xs vs scope)) := by
        refine .add hs₂.closed (fun p hp => ?_) (Bindings.All.setAll nofun fun v hv => ?_)
        · cases hp
          rw [hnext]
          exact hf
        · rw [hnext]
          exact hvs v hv
      have hlt : m₂.store.next < (m₂.store.add (Eval.frame xs vs scope)).next := by
        rw [Store.next_add]
        exact Nat.lt_succ_self _
      refine Run.nests_bind (r := Run.addScope (Eval.frame xs vs scope))
        (R := fun n i => i < n) ⟨hs₂.trans hframe, hlt⟩ fun i m₃ hs₃ h₃ => ?_
      have hbody := (hi b i m₃ hs₃.closed h₃).after hs₃ fun _ _ _ hv => hv
      exact Run.nests_bind hbody fun v m₄ hs₄ hv => ⟨hs₄, hv.unwrapped⟩
  | builtin b =>
    rcases Eval.arity_cases b vs.length with hb | ⟨k, hk, hne⟩
    · rw [Eval.call_builtin hb]
      exact Run.nests_bind (Run.nests_note hs) fun _ m₁ hs₁ _ => nests_builtin b vs hs₁
    · rw [Eval.call_builtin_of_ne hk hne]
      exact ⟨hs, trivial⟩
  | _ => exact ⟨hs, trivial⟩

/-- One node more. -/
theorem step (hi : Nesting inner) : Nesting (Eval.step settings inner) := by
  intro t e m hc he
  have hs : m.store.Nests m.store := .refl hc
  cases t with
  | missing => exact hs
  | integer | boolean => exact ⟨hs, trivial⟩
  | string x => exact ⟨hs, by cases x <;> trivial⟩
  | function ps b => exact ⟨hs, he⟩
  | program ss =>
    exact Run.nests_bind (hi.statements he hs trivial) fun v m₁ hs₁ hv => ⟨hs₁, hv.unwrapped⟩
  | block ss => exact hi.statements he hs trivial
  | expressionStatement t => exact hi.part he hs
  | letStatement x t =>
    refine Run.nests_unlessError (hi.part he hs) fun v m₁ hs₁ hv => ?_
    refine Run.nests_bind (Run.nests_ofLabel (P := fun _ => True) hs₁ fun _ _ => trivial) ?_
    intro name m₂ hs₂ h₂
    have hbind : m₂.store.Nests (m₂.store.bind e name v) := .bind hs₂.closed (h₂.1 ▸ hv)
    refine Run.nests_bind (r := Run.bindName e name v) (R := fun _ _ => True)
      ⟨hs₂.trans hbind, trivial⟩ fun _ m₃ hs₃ _ => ?_
    exact Run.nests_bind (Run.nests_note hs₃) fun _ m₄ hs₄ _ => ⟨hs₄, trivial⟩
  | returnStatement t =>
    cases t with
    | missing => exact ⟨hs, trivial⟩
    | _ => exact Run.nests_unlessError (hi.part he hs) fun v m₁ hs₁ hv => ⟨hs₁, hv⟩
  | identifier x =>
    refine Run.nests_bind (Run.nests_ofLabel (P := fun _ => True) hs fun _ _ => trivial) ?_
    intro name m₁ hs₁ _
    refine Run.nests_bind (r := Run.lookup name e) (R := fun n o => ∀ v, o = some v → v.Within n)
      ⟨hs₁, fun v hv => hs₁.closed.lookup hv⟩ fun o m₂ hs₂ ho => ?_
    cases o with
    | none => exact ⟨hs₂, trivial⟩
    | some v => exact ⟨hs₂, ho v rfl⟩
  | prefixed o t =>
    refine Run.nests_unlessError (hi.part he hs) fun v m₁ hs₁ _ => ?_
    exact ⟨hs₁, within_applyPrefix _ _ v⟩
  | infixed l o r =>
    refine Run.nests_unlessError (hi.part he hs) fun v m₁ hs₁ _ => ?_
    refine Run.nests_unlessError (hi.part he hs₁) fun w m₂ hs₂ _ => ?_
    have hop := Run.nests_ofLabel (P := fun u => ∀ n, u.Within n) hs₂
      fun u (hu : applyInfix o.display v w = .ok u) n => within_applyInfix n hu
    exact hop.imp fun n u hu => hu.2 n
  | conditional c t f =>
    refine Run.nests_unlessError (hi.part he hs) fun v m₁ hs₁ _ => ?_
    refine Run.nests_bind (Run.nests_note hs₁) fun _ m₂ hs₂ _ => ?_
    split
    · exact hi.part he hs₂
    · cases f with
      | missing => exact ⟨hs₂, trivial⟩
      | _ => exact hi.part he hs₂
  | call f as =>
    refine Run.nests_unlessError (hi.part he hs) fun v m₁ hs₁ hv => ?_
    have has : (Eval.expressions inner e as m₁).Nests m.store fun n r =>
        v.Within n ∧ ∀ vs, r = .ok vs → ∀ v ∈ vs, v.Within n :=
      (hi.expressions (Nat.lt_of_lt_of_le he hs₁.next_le) (.refl hs₁.closed)).after hs₁
        fun n r hn hr => ⟨hv.mono hn, hr⟩
    refine Run.nests_bind has fun r m₂ hs₂ hr => ?_
    -- the scope of the function that is called is still there behind the arguments
    cases r with
    | error _ => exact ⟨hs₂, trivial⟩
    | ok vs => exact hi.call hs₂ hr.1 (hr.2 vs rfl)

end Nesting

/-- Evaluation makes scopes inside of older ones only, however deep it nests. -/
theorem nesting_eval (settings : Settings) (budget : Nat) : Nesting (eval settings budget) := by
  induction budget with
  | zero => exact fun t e m hc _ => .refl hc
  | succ n ih => exact ih.step

end MonkeyLang
