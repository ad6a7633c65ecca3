import MonkeyLang.Proofs.Eval.Activation
import MonkeyLang.Proofs.Scope.Store

/-!
# Contracts of evaluation

A contract says which activations may be begun, which values they may have, which values may be
bound to a name, and which halts may be met. `Contract.Lawful` has the conditions under which
evaluation keeps to a contract: one for each way in which an activation begins another one, comes by
its value, or halts. They speak of single values and activations, so no contract has to go through
evaluation again.

Main statements: `Contract.Lawful.keeps` for the end of an activation, and
`Contract.Lawful.performs` for the activations that it comes to.
-/

namespace MonkeyLang

/-! ## Values of operations -/

/-- A prefix operation has a word, a truth value or a failure. -/
theorem applyPrefix_cases (o : String) (v : Value) :
    (∃ k, applyPrefix o v = .integer (Word.wrap k)) ∨ (∃ b, applyPrefix o v = .boolean b) ∨
      ∃ f, applyPrefix o v = .error f := by
  unfold applyPrefix
  split
  · exact .inr (.inl ⟨_, rfl⟩)
  · split
    · exact .inl ⟨_, rfl⟩
    · exact .inr (.inr ⟨_, rfl⟩)
  · exact .inr (.inr ⟨_, rfl⟩)

/-- A label in the place of a text is one, or a datum. -/
theorem Value.ofLabel_cases (j : Json) :
    (∃ s, Value.ofLabel j = .string s) ∨ ∃ j', Value.ofLabel j = .datum j' := by
  cases j with
  | string s => exact .inl ⟨s, rfl⟩
  | _ => exact .inr ⟨_, rfl⟩

/-- An operation on words has a word, a truth value or a failure. -/
theorem integerInfix_cases (o : String) (a b : Int) :
    (∃ k, integerInfix o a b = .integer (Word.wrap k)) ∨
      (∃ c, integerInfix o a b = .boolean c) ∨ ∃ f, integerInfix o a b = .error f := by
  unfold integerInfix
  split
  case h_1 | h_2 | h_3 => exact .inl ⟨_, rfl⟩
  case h_4 =>
    -- a quotient, if there is one
    split
    · exact .inr (.inr ⟨_, rfl⟩)
    · exact .inl ⟨_, rfl⟩
  case h_9 => exact .inr (.inr ⟨_, rfl⟩)
  all_goals exact .inr (.inl ⟨_, rfl⟩)

/-- An operation on truth values has a truth value or a failure. -/
theorem booleanInfix_cases (o : String) (a b : Bool) :
    (∃ c, booleanInfix o a b = .boolean c) ∨ ∃ f, booleanInfix o a b = .error f := by
  unfold booleanInfix
  split
  case h_3 => exact .inr ⟨_, rfl⟩
  all_goals exact .inl ⟨_, rfl⟩

/-- An operation on texts has a text or a failure. -/
theorem stringInfix_cases (o a b : String) :
    (∃ s, stringInfix o a b = .string s) ∨ ∃ f, stringInfix o a b = .error f := by
  unfold stringInfix
  split
  · exact .inl ⟨_, rfl⟩
  · exact .inr ⟨_, rfl⟩

/-- An operation with a datum has a text, a datum or a failure, where it has a value at all. -/
theorem datumInfix_cases {o : String} {a b : Json} {u : Value} (h : datumInfix o a b = .ok u) :
    (∃ s, u = .string s) ∨ (∃ j, u = .datum j) ∨ ∃ f, u = .error f := by
  unfold datumInfix at h
  split at h
  -- The sum is there, since the operation has a value.
  · obtain ⟨j, -, rfl⟩ : ∃ j, a.sum b = .ok j ∧ Value.ofLabel j = u := by
      cases hs : a.sum b with
      | ok j =>
        rw [hs] at h
        cases h
        exact ⟨j, rfl, rfl⟩
      | error f =>
        rw [hs] at h
        cases h
    obtain hl | hl := Value.ofLabel_cases j
    · exact .inl hl
    · exact .inr (.inl hl)
  · cases h
    exact .inr (.inr ⟨_, rfl⟩)

/-- An infix operation has a word, a truth value, a text or a failure, unless something else than a
text stands in the place of one. -/
theorem applyInfix_cases (o : String) (v w : Value) :
    (∃ u, applyInfix o v w = .ok u ∧ ((∃ k, u = .integer (Word.wrap k)) ∨ (∃ b, u = .boolean b) ∨
        (∃ s, u = .string s) ∨ ∃ f, u = .error f)) ∨
      (∃ j, v = .datum j ∨ w = .datum j) ∧
        ∀ u, applyInfix o v w = .ok u → (∃ s, u = .string s) ∨ (∃ j, u = .datum j) ∨
          ∃ f, u = .error f := by
  unfold applyInfix
  split
  · next a b =>
    refine .inl ⟨_, rfl, ?_⟩
    obtain h | h | h := integerInfix_cases o a b
    · exact .inl h
    · exact .inr (.inl h)
    · exact .inr (.inr (.inr h))
  · next a b =>
    refine .inl ⟨_, rfl, ?_⟩
    obtain h | h := booleanInfix_cases o a b
    · exact .inr (.inl h)
    · exact .inr (.inr (.inr h))
  · next a b => exact .inl ⟨_, rfl, .inr (.inr (stringInfix_cases o a b))⟩
  -- a text and what stands in the place of one, on either side
  · next a b => exact .inr ⟨⟨a, .inl rfl⟩, fun u => datumInfix_cases⟩
  · next a b => exact .inr ⟨⟨a, .inl rfl⟩, fun u => datumInfix_cases⟩
  · next a b => exact .inr ⟨⟨b, .inr rfl⟩, fun u => datumInfix_cases⟩
  · split
    · exact .inl ⟨_, rfl, .inr (.inr (.inr ⟨_, rfl⟩))⟩
    · exact .inl ⟨_, rfl, .inr (.inr (.inr ⟨_, rfl⟩))⟩

namespace Note

/-- A note about a value is only in the way where the value nests too deep to be shown. -/
theorem bound_halt {x : Json} {v : Value} {h : Halt} (hh : (Note.bound x v).halt? = some h) :
    h = .tooDeep := by
  simp only [halt?] at hh
  split at hh
  · cases hh
  · cases hh
    rfl

/-- A note about a condition is only in the way where its value nests too deep to be shown. -/
theorem decided_halt {v : Value} {h : Halt} (hh : (Note.decided v).halt? = some h) :
    h = .tooDeep :=
  bound_halt (x := .null) hh

end Note

/-! ## Contracts -/

/-- Whether a `return` ends here: at the program and at the call of a function. -/
def Activation.endsReturn (a : Activation) : Bool :=
  match a.task with
  | .node (.program _) _ | .call (.function ..) _ => true
  | _ => false

/-- What an activation makes of a value that it hands on. -/
def Activation.received (a : Activation) (v : Value) : Value :=
  if a.endsReturn then v.unwrapped else v

/-- What holds of a value with and without a `return` around it holds of what is received. -/
theorem Activation.received_of {P : Value → Prop} {a : Activation} {v : Value} (h : P v)
    (hu : P v.unwrapped) : P (a.received v) := by
  rw [Activation.received]
  split
  · exact hu
  · exact h

/-- What may happen in an evaluation. -/
structure Contract where
  /-- The activations that may be begun. -/
  admits : Activation → Prop
  /-- The values that an activation may have. -/
  gives : Activation → Value → Prop
  /-- The values that may be bound to a name, be called and be arguments. -/
  binds : Value → Prop
  /-- The halts that may be met. -/
  stops : Halt → Prop := fun _ => True

namespace Contract

/-- Whatever a task is given may be bound. -/
def Supplied (c : Contract) : Task → Prop
  | .node .. => True
  | .call f vs => c.binds f ∧ ∀ v ∈ vs, c.binds v
  | .builtin _ vs => ∀ v ∈ vs, c.binds v

/-- The contract holds where an activation is begun. -/
structure Met (c : Contract) (a : Activation) : Prop where
  admits : c.admits a
  supplied : c.Supplied a.task
  store : a.machine.store.Binds c.binds

/-- What is called may be bound. -/
theorem Met.callee {c : Contract} {a : Activation} {f : Value} {vs : List Value} (h : c.Met a)
    (ha : a.task = .call f vs) : c.binds f := by
  have hs := h.supplied
  rw [ha] at hs
  exact hs.1

/-- The conditions on a contract that evaluation keeps. -/
structure Lawful (settings : Settings) (c : Contract) : Prop where
  /-- What is begun may be begun. -/
  begins {place : Place} {a b : Activation} : Begins settings place a b → c.Met a → c.admits b
  /-- A value that is bound, called or an argument may be so. -/
  kept {place : Place} {a b : Activation} {v : Value} {m : Machine} :
    Begins settings place a b → place ∈ [.letValue, .callee, .argument] → c.admits a →
    b.outcome settings = .done v m → v.isError = false → c.gives b v → c.binds v
  /-- A value that is handed on may be handed on. -/
  passed {place : Place} {a b : Activation} {v : Value} : Begins settings place a b →
    place ∈ [.statement, .expression, .branch, .application, .body, .builtin] → c.admits a →
    c.gives b v → c.gives a (a.received v)
  returned {a b : Activation} {v : Value} {m : Machine} : Begins settings .returnValue a b →
    c.admits a → b.outcome settings = .done v m → v.isError = false → c.gives b v →
    c.gives a (.returned v)
  bareReturn {n : Nat} {scope : ScopeId} {m : Machine} :
    c.admits ⟨n + 1, .node (.returnStatement .missing) scope, m⟩ →
    c.gives ⟨n + 1, .node (.returnStatement .missing) scope, m⟩ (.returned .null)
  found {n : Nat} {x : Json} {scope : ScopeId} {m : Machine} {v : Value} :
    c.admits ⟨n + 1, .node (.identifier x) scope, m⟩ → c.binds v →
    c.gives ⟨n + 1, .node (.identifier x) scope, m⟩ v
  integer {n : Nat} {k : Int} {scope : ScopeId} {m : Machine} :
    c.admits ⟨n + 1, .node (.integer k) scope, m⟩ →
    c.gives ⟨n + 1, .node (.integer k) scope, m⟩ (.integer k)
  string {n : Nat} {s : Json} {scope : ScopeId} {m : Machine} :
    c.admits ⟨n + 1, .node (.string s) scope, m⟩ →
    c.gives ⟨n + 1, .node (.string s) scope, m⟩ (.ofLabel s)
  function {n : Nat} {ps : List Json} {b : Program} {scope : ScopeId} {m : Machine} :
    c.admits ⟨n + 1, .node (.function ps b) scope, m⟩ →
    c.gives ⟨n + 1, .node (.function ps b) scope, m⟩ (.function ps b scope)
  length {n k : Nat} {v : Value} {vs : List Value} {m : Machine} :
    c.admits ⟨n, .builtin .len (v :: vs), m⟩ →
    (∃ s, v = .string s ∧ k = s.length) ∨ (∃ j, v = .datum j ∧ c.binds v) →
    c.gives ⟨n, .builtin .len (v :: vs), m⟩ (.integer k)
  -- These values may come from anywhere.
  error (a : Activation) (f : Failure) : c.gives a (.error f)
  null (a : Activation) : c.gives a .null
  boolean (a : Activation) (b : Bool) : c.gives a (.boolean b)
  word (a : Activation) (k : Int) : c.gives a (.integer (Word.wrap k))
  text (a : Activation) (s : String) : c.gives a (.string s)
  datum {a b : Activation} {j : Json} (j' : Json) : c.gives a (.datum j) → c.gives b (.datum j')
  -- Halts
  tooDeep : c.stops .tooDeep := by intros; trivial
  missingNode {n : Nat} {scope : ScopeId} {m : Machine} :
    c.admits ⟨n + 1, .node .missing scope, m⟩ → c.stops .missingNode := by intros; trivial
  missingArgument {n : Nat} {m : Machine} :
    c.admits ⟨n, .builtin .len [], m⟩ → c.stops .missingArgument := by intros; trivial
  letFault {n : Nat} {x : Json} {e : Program} {scope : ScopeId} {m : Machine} {f : LabelFault} :
    c.admits ⟨n + 1, .node (.letStatement x e) scope, m⟩ → x.name = .error f →
    c.stops (.label f) := by intros; trivial
  identifierFault {n : Nat} {x : Json} {scope : ScopeId} {m : Machine} {f : LabelFault} :
    c.admits ⟨n + 1, .node (.identifier x) scope, m⟩ → x.name = .error f →
    c.stops (.label f) := by intros; trivial
  parameterFault {ps : List Json} {b : Program} {scope : ScopeId} {x : Json} {f : LabelFault} :
    c.binds (.function ps b scope) → x ∈ ps → x.name = .error f →
    c.stops (.label f) := by intros; trivial
  calledFault {ps : List Json} {b : Program} {scope : ScopeId} {k : Nat} {h : Halt} :
    c.binds (.function ps b scope) → (Note.called ps k).halt? = some h →
    c.stops h := by intros; trivial
  shownFault {v : Value} {h : Halt} :
    c.binds v → v.text = .error h → c.stops h := by intros; trivial
  sumFault {a : Activation} {j : Json} (f : LabelFault) :
    c.gives a (.datum j) → c.stops (.label f) := by intros; trivial
  sizeFault {j : Json} (f : LabelFault) :
    c.binds (.datum j) → c.stops (.label f) := by intros; trivial

end Contract

/-! ## Loops -/

section

variable {inner : Evaluator} {scope : ScopeId} {K : Store → Prop} {S : Halt → Prop}
  {goesOn : Value → Bool} {ts : List Program} {m : Machine}

/-- What holds of the first store holds where a tree is come to, if every evaluation keeps it. -/
theorem InTurn.store {t : Program} {m' : Machine} (h : InTurn inner scope goesOn ts m t m')
    (hk : K m.store) (hi : ∀ u m₁, InTurn inner scope goesOn ts m u m₁ → K m₁.store →
      K (inner u scope m₁).machine.store) : K m'.store := by
  induction h with
  | here => exact hk
  | later hv hg _ ih =>
    have hk₁ := hi _ _ .here hk
    rw [hv] at hk₁
    exact ih hk₁ fun u m₁ hu => hi u m₁ (.later hv hg hu)

/-- Statements in turn keep what each of them keeps, and end with a value of one of them. -/
theorem keeps_statements {Q : Value → Prop} {last : Value} (hk : K m.store) (hl : Q last)
    (hi : ∀ t m₁, InTurn inner scope Value.completes ts m t m₁ → K m₁.store →
      (inner t scope m₁).Keeps K S Q) : (Eval.statements inner scope last ts m).Keeps K S Q := by
  induction ts generalizing m last with
  | nil => exact ⟨hk, hl⟩
  | cons t ts ih =>
    rw [Eval.statements_cons]
    -- A statement that completes is followed by the others, any other one ends the sequence.
    refine Run.keeps_bind (hi t m .here hk) fun v m₁ hv hk₁ hq => ?_
    split
    · next hc => exact ih hk₁ hq fun u m₂ hu => hi u m₂ (.later hv hc hu)
    · exact ⟨hk₁, hq⟩

/-- Expressions in turn give values that each satisfy what one of them does. -/
theorem keeps_expressions {P : Value → Prop} (hk : K m.store)
    (hi : ∀ t m₁, InTurn inner scope (fun v => !v.isError) ts m t m₁ → K m₁.store →
      (inner t scope m₁).Keeps K S fun v => v.isError = false → P v) :
    (Eval.expressions inner scope ts m).Keeps K S fun r => ∀ vs, r = .ok vs → ∀ v ∈ vs, P v := by
  induction ts generalizing m with
  | nil => exact ⟨hk, fun vs h => by cases h; exact nofun⟩
  | cons t ts ih =>
    have ht := hi t m .here hk
    cases hr : inner t scope m with
    | halted h m₁ =>
      rw [hr] at ht
      rw [Eval.expressions_cons_of_halted inner scope hr]
      exact ht
    | done v m₁ =>
      rw [hr] at ht
      cases hv : v.isError with
      | true =>
        obtain ⟨f, rfl⟩ := Value.exists_eq_error hv
        rw [Eval.expressions_cons_of_error inner scope hr]
        exact ⟨ht.1, nofun⟩
      | false =>
        -- the first value is one of the list, if the others give one
        rw [Eval.expressions_cons_of_done inner scope hr hv]
        have hg : (!v.isError) = true := by rw [hv]; rfl
        refine Run.keeps_bind (ih ht.1 fun u m₂ hu => hi u m₂ (.later hr hg hu)) ?_
        intro r m₂ _ hk₂ hvs
        refine ⟨hk₂, fun us hu => ?_⟩
        cases r with
        | error f => cases hu
        | ok vs =>
          cases hu
          exact List.forall_mem_cons.2 ⟨ht.2 hv, hvs vs rfl⟩

/-- The names of parameters are found without touching a scope, or one of them is at fault. -/
theorem keeps_names (js : List Json) (hk : K m.store)
    (hs : ∀ x ∈ js, ∀ f, x.name = .error f → S (.label f)) :
    (Eval.names js m).Keeps K S fun _ => True := by
  induction js generalizing m with
  | nil => exact ⟨hk, trivial⟩
  | cons x js ih =>
    obtain ⟨hx, hjs⟩ := List.forall_mem_cons.1 hs
    refine Run.keeps_bind (Run.keeps_ofLabel (R := fun _ => True) hk hx fun _ _ => trivial) ?_
    intro name m₁ _ hk₁ _
    refine Run.keeps_bind (ih hk₁ hjs) fun xs m₂ _ hk₂ _ => ?_
    exact ⟨hk₂, trivial⟩

/-- Values are printed without touching a scope, or one of them cannot be shown. -/
theorem keeps_printAll {vs : List Value} (hk : K m.store)
    (hs : ∀ v ∈ vs, ∀ h, v.text = .error h → S h) :
    (Eval.printAll vs m).Keeps K S fun _ => True := by
  induction vs generalizing m with
  | nil => exact ⟨hk, trivial⟩
  | cons v vs ih =>
    obtain ⟨hv, hvs⟩ := List.forall_mem_cons.1 hs
    refine Run.keeps_bind (Run.keeps_ofExcept (R := fun _ => True) hk hv fun _ _ => trivial) ?_
    intro line m₁ _ hk₁ _
    exact Run.keeps_bind (R := fun _ => True) ⟨hk₁, trivial⟩ fun _ m₂ _ hk₂ _ => ih hk₂ hvs

end

/-! ## Evaluation keeps to a contract -/

namespace Contract

/-- What a contract says of the end of an activation. -/
def Kept (settings : Settings) (c : Contract) (a : Activation) : Prop :=
  c.Met a → (a.outcome settings).Keeps (Store.Binds c.binds) c.stops (c.gives a)

namespace Lawful

variable {settings : Settings} {c : Contract} {n : Nat} {m : Machine}

/-- A node that is begun meets the contract, if its store does. -/
theorem met_node {place : Place} {a : Activation} {t : Program} {scope : ScopeId}
    (hc : c.Lawful settings) (hb : Begins settings place a ⟨n, .node t scope, m⟩) (ha : c.Met a)
    (hk : m.store.Binds c.binds) : c.Met ⟨n, .node t scope, m⟩ :=
  ⟨hc.begins hb ha, trivial, hk⟩

/-- A builtin function keeps to the contract, for every form of its arguments. -/
theorem kept_builtin (hc : c.Lawful settings) (b : Builtin) (vs : List Value) :
    c.Kept settings ⟨n, .builtin b vs, m⟩ := by
  intro ⟨ha, hvs, hk⟩
  cases b with
  | puts =>
    refine Run.keeps_bind (keeps_printAll hk fun v hv h => hc.shownFault (hvs v hv)) ?_
    intro _ m₁ _ hk₁ _
    exact ⟨hk₁, hc.null _⟩
  | len =>
    cases vs with
    | nil => exact ⟨hk, hc.missingArgument ha⟩
    | cons v vs =>
      cases v with
      -- only a text and a datum have a length; the other values are failures
      | string s => exact ⟨hk, hc.length ha (.inl ⟨s, rfl, rfl⟩)⟩
      | datum j =>
        have hj := (List.forall_mem_cons.1 hvs).1
        refine Run.keeps_bind (R := fun _ => True)
          (Run.keeps_ofLabel hk (fun f _ => hc.sizeFault f hj) fun _ _ => trivial) ?_
        intro k m₁ _ hk₁ _
        exact ⟨hk₁, hc.length ha (.inr ⟨j, rfl, hj⟩)⟩
      | _ => exact ⟨hk, hc.error _ _⟩

/-- A call keeps to the contract, whatever is called. -/
theorem kept_call (hc : c.Lawful settings)
    (hn : ∀ t scope m, c.Kept settings ⟨n, .node t scope, m⟩) (f : Value) (vs : List Value) :
    c.Kept settings ⟨n, .call f vs, m⟩ := by
  intro hm
  obtain ⟨hf, hvs⟩ := hm.supplied
  rw [Activation.outcome_call]
  cases f with
  | function ps b scope =>
    by_cases hp : settings.strictArity ∧ vs.length ≠ ps.length
    · rw [Eval.call_function_of_ne hp]
      exact ⟨hm.store, hc.error _ _⟩
    · rw [Eval.call_function hp]
      refine Run.keeps_bind (Run.keeps_note hm.store fun h => hc.calledFault hf) ?_
      intro _ m₁ h₁ hk₁ _
      have hx := keeps_names (ps.take vs.length) hk₁ fun x hx f =>
        hc.parameterFault hf (List.mem_of_mem_take hx)
      refine Run.keeps_bind hx fun xs m₂ h₂ hk₂ _ => ?_
      -- the body begins in the frame, and all that the frame binds are the arguments
      have hb : Begins settings .body ⟨n, .call (.function ps b scope) vs, m⟩ ⟨n, .node b _, _⟩ :=
        .body hp h₁ h₂
      have hframe : (Eval.frame xs vs scope).bindings.All c.binds := Bindings.All.setAll nofun hvs
      have hbody := hn _ _ _ (hc.met_node hb hm (hk₂.add hframe))
      refine Run.keeps_bind (r := Run.addScope (Eval.frame xs vs scope))
        (R := fun i => i = m₂.store.next) ⟨hk₂.add hframe, rfl⟩ fun i m₃ h₃ _ _ => ?_
      cases h₃
      refine Run.keeps_bind hbody fun v m₄ _ hk₄ hv => ?_
      exact ⟨hk₄, hc.passed hb (by decide) hm.admits hv⟩
  | builtin b =>
    rcases Eval.arity_cases b vs.length with hb | ⟨k, hk, hne⟩
    · rw [Eval.call_builtin hb]
      refine Run.keeps_bind (Run.keeps_note hm.store fun h hh => by cases hh) ?_
      intro _ m₁ h₁ hk₁ _
      have hb := Begins.builtin (n := n) hb h₁
      refine (hc.kept_builtin b vs ⟨hc.begins hb hm, hvs, hk₁⟩).imp ?_
      exact fun v hv => hc.passed hb (by decide) hm.admits hv
    · rw [Eval.call_builtin_of_ne hk hne]
      exact ⟨hm.store, hc.error _ _⟩
  | _ => exact ⟨hm.store, hc.error _ _⟩

/-- Statements in turn keep what each of them keeps. -/
theorem kept_statements {ss : List Program} {scope : ScopeId} {a : Activation} {Q : Value → Prop}
    (hc : c.Lawful settings) (hn : ∀ t scope m, c.Kept settings ⟨n, .node t scope, m⟩)
    (ha : c.Met a) (hk : m.store.Binds c.binds) (hq : Q .null)
    (hb : ∀ t m₁, InTurn (eval settings n) scope Value.completes ss m t m₁ →
      Begins settings .statement a ⟨n, .node t scope, m₁⟩ ∧
        ∀ v, c.gives ⟨n, .node t scope, m₁⟩ v → Q v) :
    (Eval.statements (eval settings n) scope .null ss m).Keeps (Store.Binds c.binds) c.stops Q := by
  refine keeps_statements hk hq fun t m₁ ht hk₁ => ?_
  obtain ⟨hbegins, hgives⟩ := hb t m₁ ht
  exact (hn t scope m₁ (hc.met_node hbegins ha hk₁)).imp hgives

/-- The value of an infix operation, and its faults. -/
theorem keeps_infix {a b₁ b₂ : Activation} {v w : Value} (hc : c.Lawful settings) (o : String)
    (hk : m.store.Binds c.binds) (hv : c.gives b₁ v) (hw : c.gives b₂ w) :
    (Run.ofLabel (applyInfix o v w) m).Keeps (Store.Binds c.binds) c.stops (c.gives a) := by
  obtain ⟨u, hu, h⟩ | ⟨⟨j, hj⟩, h⟩ := applyInfix_cases o v w
  · rw [hu]
    refine ⟨hk, ?_⟩
    obtain ⟨k, rfl⟩ | ⟨b, rfl⟩ | ⟨s, rfl⟩ | ⟨f, rfl⟩ := h
    · exact hc.word a k
    · exact hc.boolean a b
    · exact hc.text a s
    · exact hc.error a f
  · -- one of the operands is a datum, so the contract allows for it
    have hd : ∃ b, c.gives b (.datum j) := by
      rcases hj with rfl | rfl
      · exact ⟨b₁, hv⟩
      · exact ⟨b₂, hw⟩
    obtain ⟨b, hd⟩ := hd
    refine Run.keeps_ofLabel hk (fun f _ => hc.sumFault f hd) fun u hu => ?_
    obtain ⟨s, rfl⟩ | ⟨j', rfl⟩ | ⟨f, rfl⟩ := h u hu
    · exact hc.text a s
    · exact hc.datum j' hd
    · exact hc.error a f

/-- The arguments of a call may be bound. -/
theorem keeps_arguments {f : Program} {as : List Program} {scope : ScopeId} {m₁ : Machine}
    {v : Value} (hc : c.Lawful settings) (hn : ∀ t scope m, c.Kept settings ⟨n, .node t scope, m⟩)
    (ha : c.Met ⟨n + 1, .node (.call f as) scope, m⟩) (hf : eval settings n f scope m = .done v m₁)
    (hv : v.isError = false) (hk : m₁.store.Binds c.binds) :
    (Eval.expressions (eval settings n) scope as m₁).Keeps (Store.Binds c.binds) c.stops
      fun r => ∀ vs, r = .ok vs → ∀ v ∈ vs, c.binds v := by
  refine keeps_expressions hk fun t m₂ ht hk₂ => ?_
  have hb := Begins.argument hf hv ht
  exact (hn t scope m₂ (hc.met_node hb ha hk₂)).of_done fun w m₃ hw hg hw' =>
    hc.kept hb (by decide) ha.admits hw hw' hg

/-- A node keeps to the contract, if the nodes with one level less do. -/
theorem kept_node (hc : c.Lawful settings)
    (hn : ∀ t scope m, c.Kept settings ⟨n, .node t scope, m⟩) (t : Program) (scope : ScopeId) :
    c.Kept settings ⟨n + 1, .node t scope, m⟩ := by
  intro hm
  have ha := hm.admits
  have hk := hm.store
  cases t with
  | missing => exact ⟨hk, hc.missingNode ha⟩
  | program ss =>
    refine Run.keeps_bind (R := fun v => c.gives _ v.unwrapped)
      (hc.kept_statements hn hm hk (hc.null _) fun t m₁ ht => ?_) fun v m₁ _ hk₁ hv => ⟨hk₁, hv⟩
    exact ⟨.programStatement ht, fun v => hc.passed (.programStatement ht) (by decide) ha⟩
  | block ss =>
    refine hc.kept_statements hn hm hk (hc.null _) fun t m₁ ht => ?_
    exact ⟨.blockStatement ht, fun v => hc.passed (.blockStatement ht) (by decide) ha⟩
  | expressionStatement e =>
    exact (hn e scope m (hc.met_node .expression hm hk)).imp
      fun v => hc.passed .expression (by decide) ha
  | letStatement x e =>
    refine Run.keeps_unlessError (hn e scope m (hc.met_node .letValue hm hk))
      (fun f _ => hc.error _ f) fun v m₁ h₁ hk₁ hv he => ?_
    have hv := hc.kept .letValue (by decide) ha h₁ he hv
    refine Run.keeps_bind (R := fun _ => True)
      (Run.keeps_ofLabel hk₁ (fun f => hc.letFault ha) fun _ _ => trivial) fun name m₂ _ hk₂ _ => ?_
    -- the name is bound before the note is made, so it stays bound if the note halts
    refine Run.keeps_bind (R := fun _ => True) ⟨hk₂.bind hv, trivial⟩ fun _ m₃ _ hk₃ _ => ?_
    refine Run.keeps_bind (Run.keeps_note hk₃ fun h hh => ?_) fun _ m₄ _ hk₄ _ => ⟨hk₄, hc.null _⟩
    exact Note.bound_halt hh ▸ hc.tooDeep
  | returnStatement e =>
    cases he : e.isMissing with
    | true =>
      obtain rfl := Tree.eq_missing he
      exact ⟨hk, hc.bareReturn ha⟩
    | false =>
      rw [Activation.outcome_node, Eval.eval_returnStatement he]
      refine Run.keeps_unlessError (hn e scope m (hc.met_node (.returnValue he) hm hk))
        (fun f _ => hc.error _ f) fun v m₁ h₁ hk₁ hv hv' => ?_
      exact ⟨hk₁, hc.returned (.returnValue he) ha h₁ hv' hv⟩
  | identifier x =>
    refine Run.keeps_bind (R := fun _ => True)
      (Run.keeps_ofLabel hk (fun f => hc.identifierFault ha) fun _ _ => trivial)
      fun name m₁ _ hk₁ _ => ?_
    refine Run.keeps_bind (r := Run.lookup name scope) (R := fun o => ∀ v, o = some v → c.binds v)
      ⟨hk₁, fun v => hk₁.lookup⟩ fun o m₂ _ hk₂ ho => ?_
    cases o with
    | none => exact ⟨hk₂, hc.error _ _⟩
    | some v => exact ⟨hk₂, hc.found ha (ho v rfl)⟩
  | integer k => exact ⟨hk, hc.integer ha⟩
  | string s => exact ⟨hk, hc.string ha⟩
  | boolean b => exact ⟨hk, hc.boolean _ b⟩
  | function ps b => exact ⟨hk, hc.function ha⟩
  | prefixed o e =>
    refine Run.keeps_unlessError (hn e scope m (hc.met_node .prefixOperand hm hk))
      (fun f _ => hc.error _ f) fun v m₁ h₁ hk₁ _ _ => ⟨hk₁, ?_⟩
    obtain ⟨k, h⟩ | ⟨b, h⟩ | ⟨f, h⟩ := applyPrefix_cases o.display v <;> rw [h]
    · exact hc.word _ k
    · exact hc.boolean _ b
    · exact hc.error _ f
  | infixed l o r =>
    refine Run.keeps_unlessError (hn l scope m (hc.met_node .leftOperand hm hk))
      (fun f _ => hc.error _ f) fun v m₁ h₁ hk₁ hv he => ?_
    refine Run.keeps_unlessError (hn r scope m₁ (hc.met_node (.rightOperand h₁ he) hm hk₁))
      (fun f _ => hc.error _ f) fun w m₂ _ hk₂ hw _ => ?_
    exact hc.keeps_infix o.display hk₂ hv hw
  | conditional b t e =>
    refine Run.keeps_unlessError (hn b scope m (hc.met_node .condition hm hk))
      (fun f _ => hc.error _ f) fun v m₁ h₁ hk₁ _ hv => ?_
    refine Run.keeps_bind (Run.keeps_note hk₁ fun h hh => ?_) fun _ m₂ h₂ hk₂ _ => ?_
    · exact Note.decided_halt hh ▸ hc.tooDeep
    · cases ht : v.truthy with
      | true =>
        have hb := Begins.consequence (t := t) (e := e) h₁ hv h₂ ht
        exact (hn t scope m₂ (hc.met_node hb hm hk₂)).imp
          fun v => hc.passed hb (by decide) ha
      | false =>
        cases he : e.isMissing with
        | true =>
          obtain rfl := Tree.eq_missing he
          exact ⟨hk₂, hc.null _⟩
        | false =>
          have hb := Begins.alternative (t := t) h₁ hv h₂ ht he
          have hkept := (hn e scope m₂ (hc.met_node hb hm hk₂)).imp
            fun v => hc.passed hb (by decide) ha
          cases e with
          | missing => cases he
          | _ => exact hkept
  | call f as =>
    refine Run.keeps_unlessError (hn f scope m (hc.met_node .callee hm hk))
      (fun f _ => hc.error _ f) fun v m₁ h₁ hk₁ hv he => ?_
    -- What is called is no failure, so it may be called.
    have hv := hc.kept .callee (by decide) ha h₁ he hv
    refine Run.keeps_bind (hc.keeps_arguments hn hm h₁ he hk₁) fun r m₂ h₂ hk₂ hvs => ?_
    cases r with
    | error f => exact ⟨hk₂, hc.error _ f⟩
    | ok vs =>
      have hb := Begins.application h₁ he h₂
      exact (hc.kept_call hn v vs ⟨hc.begins hb hm, ⟨hv, hvs vs rfl⟩, hk₂⟩).imp
        fun u => hc.passed hb (by decide) ha

/-- Every activation that a lawful contract allows ends as the contract says. -/
theorem keeps {a : Activation} (hc : c.Lawful settings) (ha : c.Met a) :
    (a.outcome settings).Keeps (Store.Binds c.binds) c.stops (c.gives a) := by
  -- by induction on the budget; only the evaluation of a node spends any of it
  have hn : ∀ n t scope m, c.Kept settings ⟨n, .node t scope, m⟩ := by
    intro n
    induction n with
    | zero => exact fun t scope m hm => ⟨hm.store, hc.tooDeep⟩
    | succ n ih => exact fun t scope m => hc.kept_node ih t scope
  obtain ⟨n, task, m⟩ := a
  cases task with
  | node t scope => exact hn n t scope m ha
  | call f vs => exact hc.kept_call (hn n) f vs ha
  | builtin b vs => exact hc.kept_builtin b vs ha

section

variable {t : Program} {scope : ScopeId} {m₁ : Machine} {v : Value}

/-- After a part of an activation the store is as the contract says. -/
theorem store_of_done {place : Place} {a : Activation} (hc : c.Lawful settings)
    (hb : Begins settings place a ⟨n, .node t scope, m⟩) (ha : c.Met a)
    (hk : m.store.Binds c.binds) (h : eval settings n t scope m = .done v m₁) :
    m₁.store.Binds c.binds := by
  have hkeeps := hc.keeps (hc.met_node hb ha hk)
  rw [Activation.outcome_node, h] at hkeeps
  exact hkeeps.1

/-- After some parts in turn the store is as the contract says. -/
theorem store_of_inTurn {place : Place} {a : Activation} {goesOn : Value → Bool}
    {ts : List Program} (hc : c.Lawful settings) (ha : c.Met a) (hk : m.store.Binds c.binds)
    (ht : InTurn (eval settings n) scope goesOn ts m t m₁)
    (hb : ∀ u m₂, InTurn (eval settings n) scope goesOn ts m u m₂ →
      Begins settings place a ⟨n, .node u scope, m₂⟩) : m₁.store.Binds c.binds :=
  ht.store hk fun u m₂ hu hk₂ => (hc.keeps (hc.met_node (hb u m₂ hu) ha hk₂)).store

end

/-- What is begun where the contract holds meets the contract again. -/
theorem begun {place : Place} {a b : Activation} (hc : c.Lawful settings)
    (hb : Begins settings place a b) (ha : c.Met a) : c.Met b := by
  have hadmits := hc.begins hb ha
  have hk := ha.store
  -- what is left is the store: that of `a`, after the parts of `a` before `b`
  cases hb with
  | expression | letValue | returnValue | prefixOperand | leftOperand | condition | callee =>
    exact ⟨hadmits, trivial, hk⟩
  | programStatement ht =>
    exact ⟨hadmits, trivial, hc.store_of_inTurn ha hk ht fun _ _ => .programStatement⟩
  | blockStatement ht =>
    exact ⟨hadmits, trivial, hc.store_of_inTurn ha hk ht fun _ _ => .blockStatement⟩
  | rightOperand hl hv => exact ⟨hadmits, trivial, hc.store_of_done .leftOperand ha hk hl⟩
  | consequence hb hv hn | alternative hb hv hn =>
    have hk₁ := hc.store_of_done .condition ha hk hb
    exact ⟨hadmits, trivial, by rw [Run.store_of_note hn]; exact hk₁⟩
  | argument hf hv ht =>
    have hk₁ := hc.store_of_done .callee ha hk hf
    exact ⟨hadmits, trivial, hc.store_of_inTurn ha hk₁ ht fun _ _ => .argument hf hv⟩
  | @application n f as scope m m₁ m₂ v vs hf hv hvs =>
    have hkf := hc.keeps (hc.met_node .callee ha hk)
    rw [Activation.outcome_node, hf] at hkf
    have hkvs := hc.keeps_arguments (fun t scope m => hc.keeps) ha hf hv hkf.1
    rw [hvs] at hkvs
    exact ⟨hadmits, ⟨hc.kept .callee (by decide) ha.admits hf hv hkf.2, hkvs.2 vs rfl⟩, hkvs.1⟩
  | @body n ps b scope vs m m₁ m₂ xs hp hn hx =>
    obtain ⟨hf, hvs⟩ := ha.supplied
    have hk₁ : m₁.store.Binds c.binds := by
      rw [Run.store_of_note hn]
      exact hk
    have hkx := keeps_names (S := fun _ => True) (ps.take vs.length) hk₁ fun _ _ _ _ => trivial
    rw [hx] at hkx
    exact ⟨hadmits, trivial, hkx.1.add (Bindings.All.setAll nofun hvs)⟩
  | builtin hb hn =>
    exact ⟨hadmits, ha.supplied.2, by rw [Run.store_of_note hn]; exact hk⟩

/-- An activation that is come to, at any depth, meets the contract again. -/
theorem performs {a b : Activation} (hc : c.Lawful settings) (h : Performs settings a b)
    (ha : c.Met a) : c.Met b := by
  induction h with
  | refl => exact ha
  | tail _ hb ih =>
    obtain ⟨place, hb⟩ := hb
    exact hc.begun hb ih

end Lawful

end Contract

end MonkeyLang
