import Mathlib.Logic.Relation
import MonkeyLang.Proofs.Eval.Run

/-!
# What an evaluation comes to do

An evaluation does other evaluations on its way: of the nodes inside its own, and of the bodies of
the functions that it calls. `Begins settings place a b` says that the activation `a` comes to begin
the activation `b`, which stands at the place `place` of it; `Performs` is the same at any depth.

Main statements: `eval_succ_eq` and `call_eq` say that an activation does nothing beyond what it
begins; `Performs.outcome_eq` says that an activation which ends in a failure or a halt ends all
activations around it, in the same way and at once.
-/

namespace MonkeyLang

/-- Something that evaluation has to do. -/
inductive Task where
  /-- Evaluate a tree in a scope. -/
  | node (t : Program) (scope : ScopeId)
  /-- Call a value. -/
  | call (f : Value) (arguments : List Value)
  /-- Do what a builtin function does. -/
  | builtin (b : Builtin) (arguments : List Value)

/-- A task that is begun, with the budget and the machine that it is begun with. -/
structure Activation where
  budget : Nat
  task : Task
  machine : Machine

/-- How an activation ends. -/
def Activation.outcome (settings : Settings) : Activation → Outcome Value
  | ⟨n, .node t scope, m⟩ => eval settings n t scope m
  | ⟨n, .call f vs, m⟩ => Eval.call settings (eval settings n) f vs m
  | ⟨_, .builtin b vs, m⟩ => Eval.builtin b vs m

namespace Activation

variable (settings : Settings) (n : Nat) (m : Machine)

@[simp]
theorem outcome_node (t : Program) (scope : ScopeId) :
    outcome settings ⟨n, .node t scope, m⟩ = eval settings n t scope m := rfl

@[simp]
theorem outcome_call (f : Value) (vs : List Value) :
    outcome settings ⟨n, .call f vs, m⟩ = Eval.call settings (eval settings n) f vs m := rfl

@[simp]
theorem outcome_builtin (b : Builtin) (vs : List Value) :
    outcome settings ⟨n, .builtin b vs, m⟩ = Eval.builtin b vs m := rfl

end Activation

/-- Where an activation stands in the one that begins it. -/
inductive Place where
  /-- A statement of a program or of a block. -/
  | statement
  /-- The expression of a statement. -/
  | expression
  | letValue
  | returnValue
  | operand
  | condition
  /-- One of the blocks of a conditional. -/
  | branch
  | callee
  | argument
  /-- The call itself, after its parts. -/
  | application
  /-- The body of a function that is called. -/
  | body
  | builtin
  deriving DecidableEq

/-- Trees that are evaluated one after the other from the machine `m`, as long as `goesOn` holds of
their values, come to the tree `t` with the machine `m'`. -/
inductive InTurn (inner : Evaluator) (scope : ScopeId) (goesOn : Value → Bool) :
    List Program → Machine → Program → Machine → Prop where
  | here {t : Program} {ts : List Program} {m : Machine} :
      InTurn inner scope goesOn (t :: ts) m t m
  | later {s t : Program} {ts : List Program} {m m₁ m' : Machine} {v : Value} :
      inner s scope m = .done v m₁ → goesOn v = true → InTurn inner scope goesOn ts m₁ t m' →
      InTurn inner scope goesOn (s :: ts) m t m'

theorem InTurn.mem {inner : Evaluator} {scope : ScopeId} {goesOn : Value → Bool}
    {ts : List Program} {t : Program} {m m' : Machine}
    (h : InTurn inner scope goesOn ts m t m') : t ∈ ts := by
  induction h with
  | here => exact List.mem_cons_self
  | later _ _ _ ih => exact List.mem_cons_of_mem _ ih

/-- The activation on the left begins the one on the right. -/
inductive Begins (settings : Settings) : Place → Activation → Activation → Prop where
  | programStatement {n : Nat} {ss : List Program} {s : Program} {scope : ScopeId}
      {m m₁ : Machine} :
      InTurn (eval settings n) scope Value.completes ss m s m₁ →
      Begins settings .statement ⟨n + 1, .node (.program ss) scope, m⟩ ⟨n, .node s scope, m₁⟩
  | blockStatement {n : Nat} {ss : List Program} {s : Program} {scope : ScopeId}
      {m m₁ : Machine} :
      InTurn (eval settings n) scope Value.completes ss m s m₁ →
      Begins settings .statement ⟨n + 1, .node (.block ss) scope, m⟩ ⟨n, .node s scope, m₁⟩
  | expression {n : Nat} {e : Program} {scope : ScopeId} {m : Machine} :
      Begins settings .expression ⟨n + 1, .node (.expressionStatement e) scope, m⟩
        ⟨n, .node e scope, m⟩
  | letValue {n : Nat} {x : Json} {e : Program} {scope : ScopeId} {m : Machine} :
      Begins settings .letValue ⟨n + 1, .node (.letStatement x e) scope, m⟩ ⟨n, .node e scope, m⟩
  | returnValue {n : Nat} {e : Program} {scope : ScopeId} {m : Machine} :
      e.isMissing = false →
      Begins settings .returnValue ⟨n + 1, .node (.returnStatement e) scope, m⟩
        ⟨n, .node e scope, m⟩
  | prefixOperand {n : Nat} {o : Json} {e : Program} {scope : ScopeId} {m : Machine} :
      Begins settings .operand ⟨n + 1, .node (.prefixed o e) scope, m⟩ ⟨n, .node e scope, m⟩
  | leftOperand {n : Nat} {o : Json} {l r : Program} {scope : ScopeId} {m : Machine} :
      Begins settings .operand ⟨n + 1, .node (.infixed l o r) scope, m⟩ ⟨n, .node l scope, m⟩
  | rightOperand {n : Nat} {o : Json} {l r : Program} {scope : ScopeId} {m m₁ : Machine}
      {v : Value} :
      eval settings n l scope m = .done v m₁ → v.isError = false →
      Begins settings .operand ⟨n + 1, .node (.infixed l o r) scope, m⟩ ⟨n, .node r scope, m₁⟩
  | condition {n : Nat} {c t e : Program} {scope : ScopeId} {m : Machine} :
      Begins settings .condition ⟨n + 1, .node (.conditional c t e) scope, m⟩
        ⟨n, .node c scope, m⟩
  | consequence {n : Nat} {c t e : Program} {scope : ScopeId} {m m₁ m₂ : Machine} {v : Value} :
      eval settings n c scope m = .done v m₁ → v.isError = false →
      Run.note settings (.decided v) m₁ = .done () m₂ → v.truthy = true →
      Begins settings .branch ⟨n + 1, .node (.conditional c t e) scope, m⟩ ⟨n, .node t scope, m₂⟩
  | alternative {n : Nat} {c t e : Program} {scope : ScopeId} {m m₁ m₂ : Machine} {v : Value} :
      eval settings n c scope m = .done v m₁ → v.isError = false →
      Run.note settings (.decided v) m₁ = .done () m₂ → v.truthy = false → e.isMissing = false →
      Begins settings .branch ⟨n + 1, .node (.conditional c t e) scope, m⟩ ⟨n, .node e scope, m₂⟩
  | callee {n : Nat} {f : Program} {as : List Program} {scope : ScopeId} {m : Machine} :
      Begins settings .callee ⟨n + 1, .node (.call f as) scope, m⟩ ⟨n, .node f scope, m⟩
  | argument {n : Nat} {f a : Program} {as : List Program} {scope : ScopeId} {m m₁ m₂ : Machine}
      {v : Value} :
      eval settings n f scope m = .done v m₁ → v.isError = false →
      InTurn (eval settings n) scope (fun v => !v.isError) as m₁ a m₂ →
      Begins settings .argument ⟨n + 1, .node (.call f as) scope, m⟩ ⟨n, .node a scope, m₂⟩
  | application {n : Nat} {f : Program} {as : List Program} {scope : ScopeId}
      {m m₁ m₂ : Machine} {v : Value} {vs : List Value} :
      eval settings n f scope m = .done v m₁ → v.isError = false →
      Eval.expressions (eval settings n) scope as m₁ = .done (.ok vs) m₂ →
      Begins settings .application ⟨n + 1, .node (.call f as) scope, m⟩ ⟨n, .call v vs, m₂⟩
  | body {n : Nat} {ps : List Json} {b : Program} {scope : ScopeId} {vs : List Value}
      {m m₁ m₂ : Machine} {xs : List Name} :
      ¬ (settings.strictArity ∧ vs.length ≠ ps.length) →
      Run.note settings (.called ps vs.length) m = .done () m₁ →
      -- parameters without an argument are not bound, so their labels are not looked at
      Eval.names (ps.take vs.length) m₁ = .done xs m₂ →
      Begins settings .body ⟨n, .call (.function ps b scope) vs, m⟩
        ⟨n, .node b m₂.store.next, { m₂ with store := m₂.store.add (Eval.frame xs vs scope) }⟩
  | builtin {n : Nat} {b : Builtin} {vs : List Value} {m m₁ : Machine} :
      (∀ k, b.arity = some k → vs.length = k) →
      Run.note settings (.calledBuiltin b vs.length) m = .done () m₁ →
      Begins settings .builtin ⟨n, .call (.builtin b) vs, m⟩ ⟨n, .builtin b vs, m₁⟩

/-- The activation on the left comes to the one on the right, at any depth. -/
def Performs (settings : Settings) : Activation → Activation → Prop :=
  Relation.ReflTransGen fun a b => ∃ place, Begins settings place a b

variable {settings : Settings} {place : Place} {a b : Activation}

/-! ## Nothing else is done

An evaluator that agrees with `eval` on what is begun can take its place. -/

section

variable {inner inner' : Evaluator} {scope : ScopeId} {ts : List Program} {m : Machine}

/-- Statements are the same under two evaluators if all those that are come to are. Induction on the
statements. -/
theorem statements_congr {last : Value}
    (hi : ∀ t m₁, InTurn inner scope Value.completes ts m t m₁ →
      inner t scope m₁ = inner' t scope m₁) :
    Eval.statements inner scope last ts m = Eval.statements inner' scope last ts m := by
  induction ts generalizing m last with
  | nil => rfl
  | cons t ts ih =>
    rw [Eval.statements_cons, Eval.statements_cons]
    refine Run.bind_congr (hi t m .here) fun v m₁ hv => ?_
    split
    · next hc => exact ih fun u m₂ hu => hi u m₂ (.later hv hc hu)
    · rfl

/-- The same for the operands and arguments that are come to. -/
theorem expressions_congr
    (hi : ∀ t m₁, InTurn inner scope (fun v => !v.isError) ts m t m₁ →
      inner t scope m₁ = inner' t scope m₁) :
    Eval.expressions inner scope ts m = Eval.expressions inner' scope ts m := by
  induction ts generalizing m with
  | nil => rfl
  | cons t ts ih =>
    refine Run.bind_congr (hi t m .here) fun v m₁ hv => ?_
    have hts (he : v.isError = false) : Eval.expressions inner scope ts m₁ =
        Eval.expressions inner' scope ts m₁ :=
      ih fun u m₂ hu => hi u m₂ (.later hv (by rw [he]; rfl) hu)
    cases v with
    | error f => rfl
    | _ => exact Run.bind_congr (hts rfl) fun _ _ _ => rfl

end

section

variable {inner : Evaluator} {n : Nat} {scope : ScopeId} {m : Machine}

/-- A call evaluates nothing but the body of the function. -/
theorem call_eq {f : Value} {vs : List Value}
    (h : ∀ b scope m₁, Begins settings .body ⟨n, .call f vs, m⟩ ⟨n, .node b scope, m₁⟩ →
      eval settings n b scope m₁ = inner b scope m₁) :
    Eval.call settings (eval settings n) f vs m = Eval.call settings inner f vs m := by
  cases f with
  | function ps b scope =>
    by_cases hp : settings.strictArity ∧ vs.length ≠ ps.length
    · rw [Eval.call_function_of_ne hp, Eval.call_function_of_ne hp]
    · rw [Eval.call_function hp, Eval.call_function hp]
      refine Run.bind_congr rfl fun _ m₁ h₁ => Run.bind_congr rfl fun xs m₂ h₂ => ?_
      refine Run.bind_congr rfl fun i m₃ h₃ => ?_
      cases h₃
      exact Run.bind_congr (h _ _ _ (.body hp h₁ h₂)) fun _ _ _ => rfl
  | _ => rfl

/-- A node evaluates nothing but what it begins. -/
theorem eval_succ_eq {t : Program}
    (hn : ∀ place u m₁, Begins settings place ⟨n + 1, .node t scope, m⟩ ⟨n, .node u scope, m₁⟩ →
      eval settings n u scope m₁ = inner u scope m₁)
    (hc : ∀ f vs m₁,
      Begins settings .application ⟨n + 1, .node t scope, m⟩ ⟨n, .call f vs, m₁⟩ →
      Eval.call settings (eval settings n) f vs m₁ = Eval.call settings inner f vs m₁) :
    eval settings (n + 1) t scope m = Eval.step settings inner t scope m := by
  cases t with
  | missing | identifier | integer | string | boolean | function => rfl
  | program ss =>
    refine Run.bind_congr (statements_congr fun t m₁ ht => ?_) fun _ _ _ => rfl
    exact hn _ t m₁ (.programStatement ht)
  | block ss => exact statements_congr fun t m₁ ht => hn _ t m₁ (.blockStatement ht)
  | expressionStatement e => exact hn _ e m .expression
  | letStatement x e => exact Run.unlessError_congr (hn _ e m .letValue) fun _ _ _ _ => rfl
  | returnStatement e =>
    cases e with
    | missing => rfl
    | _ => exact Run.unlessError_congr (hn _ _ m (.returnValue rfl)) fun _ _ _ _ => rfl
  | prefixed o e => exact Run.unlessError_congr (hn _ e m .prefixOperand) fun _ _ _ _ => rfl
  -- what comes second is begun with the machine that the first part leaves
  | infixed l o r =>
    refine Run.unlessError_congr (hn _ l m .leftOperand) fun v m₁ hv he => ?_
    exact Run.unlessError_congr (hn _ r m₁ (.rightOperand hv he)) fun _ _ _ _ => rfl
  | conditional c t e =>
    refine Run.unlessError_congr (hn _ c m .condition) fun v m₁ hv he => ?_
    refine Run.bind_congr rfl fun _ m₂ h₂ => ?_
    cases ht : v.truthy with
    | true => exact hn _ t m₂ (.consequence hv he h₂ ht)
    | false =>
      cases e with
      | missing => rfl
      | _ => exact hn _ _ m₂ (.alternative hv he h₂ ht rfl)
  | call f as =>
    refine Run.unlessError_congr (hn _ f m .callee) fun v m₁ hv he => ?_
    -- the arguments in turn, and then the call itself
    have has := expressions_congr fun t m₂ ht => hn _ t m₂ (.argument hv he ht)
    refine Run.bind_congr has fun r m₂ hr => ?_
    cases r with
    | error f => rfl
    | ok vs => exact hc v vs m₂ (.application hv he hr)

end

/-! ## Failures and halts -/

/-- Whether an evaluation ended in a failure or a halt. -/
def Outcome.stops : Outcome Value → Bool
  | .done v _ => v.isError
  | .halted .. => true

/-- An evaluation stops with an error or a halt. -/
theorem Outcome.exists_of_stops {o : Outcome Value} (h : o.stops = true) :
    (∃ f m, o = .done (.error f) m) ∨ ∃ r m, o = .halted r m := by
  cases o with
  | done v m =>
    obtain ⟨f, rfl⟩ := Value.exists_eq_error h
    exact .inl ⟨f, m, rfl⟩
  | halted r m => exact .inr ⟨r, m, rfl⟩

namespace Run

variable {r : Run Value} {m : Machine}

theorem unlessError_of_stops {next : Value → Run Value} (h : (r m).stops = true) :
    unlessError r next m = r m := by
  obtain ⟨f, m₁, hr⟩ | ⟨_, m₁, hr⟩ := Outcome.exists_of_stops h
  · rw [unlessError_of_error hr rfl, hr]
  · rw [unlessError_of_halted hr, hr]

/-- Where a `return` would end, a failure stays what it is. -/
theorem unwrapped_of_stops (h : (r m).stops = true) :
    (do return (← r).unwrapped : Run Value) m = r m := by
  obtain ⟨f, m₁, hr⟩ | ⟨_, m₁, hr⟩ := Outcome.exists_of_stops h
  · rw [bind_of_done hr, hr]
    rfl
  · rw [bind_of_halted hr, hr]

end Run

section

variable {inner : Evaluator} {scope : ScopeId} {ss : List Program} {s : Program} {m m₁ : Machine}

/-- A statement that ends in a failure or a halt ends the statements that it is one of. -/
theorem InTurn.statements_eq (h : InTurn inner scope Value.completes ss m s m₁)
    (hs : (inner s scope m₁).stops = true) (last : Value) :
    Eval.statements inner scope last ss m = inner s scope m₁ := by
  induction h generalizing last with
  | here =>
    rw [Eval.statements_cons]
    obtain ⟨f, m', hr⟩ | ⟨_, m', hr⟩ := Outcome.exists_of_stops hs
    · rw [Run.bind_of_done hr, hr]
      rfl
    · rw [Run.bind_of_halted hr, hr]
  | later hv hc _ ih =>
    rw [Eval.statements_cons, Run.bind_of_done hv, hc]
    exact ih hs _

/-- An expression that ends in a failure or a halt ends the expressions that it is one of. -/
theorem InTurn.expressions_eq (h : InTurn inner scope (fun v => !v.isError) ss m s m₁) :
    (∀ f m₂, inner s scope m₁ = .done (.error f) m₂ →
      Eval.expressions inner scope ss m = .done (.error f) m₂) ∧
    ∀ h m₂, inner s scope m₁ = .halted h m₂ →
      Eval.expressions inner scope ss m = .halted h m₂ := by
  induction h with
  | here =>
    exact ⟨fun f m₂ => Eval.expressions_cons_of_error inner scope,
      fun h m₂ => Eval.expressions_cons_of_halted inner scope⟩
  | later hv hc _ ih =>
    rw [Bool.not_eq_true'] at hc
    obtain ⟨ihe, ihh⟩ := ih
    constructor
    · intro f m₂ h
      rw [Eval.expressions_cons_of_done inner scope hv hc, Run.bind_of_done (ihe f m₂ h)]
      rfl
    · intro h m₂ hh
      rw [Eval.expressions_cons_of_done inner scope hv hc, Run.bind_of_halted (ihh h m₂ hh)]

end

/-- Nothing is done after a branch, the call of an application or the expression of a statement, so
an activation ends as they do. -/
theorem Begins.outcome_last (h : Begins settings place a b)
    (hp : place ∈ [.expression, .branch, .application, .builtin]) :
    a.outcome settings = b.outcome settings := by
  cases h with
  | expression => rfl
  -- the condition has a value, and its note was made
  | consequence hc hv hn ht =>
    refine (Run.unlessError_of_done hc hv).trans ?_
    rw [Run.bind_of_done hn, ht]
    rfl
  | @alternative n c t e scope m m₁ m₂ v hc hv hn ht he =>
    refine (Run.unlessError_of_done hc hv).trans ?_
    rw [Run.bind_of_done hn, ht]
    cases e with
    | missing => cases he
    | _ => rfl
  | application hf hv has =>
    refine (Run.unlessError_of_done hf hv).trans ?_
    rw [Run.bind_of_done has]
    rfl
  | builtin hb hn =>
    rw [Activation.outcome_call, Eval.call_builtin hb]
    exact Run.bind_of_done hn
  -- other parts are not the last
  | _ => exact absurd hp (by decide)

/-- An activation that ends in a failure or a halt ends the one that began it. -/
theorem Begins.outcome_eq (h : Begins settings place a b) (hs : (b.outcome settings).stops = true) :
    a.outcome settings = b.outcome settings := by
  have hlast := h.outcome_last
  cases h with
  | programStatement ht =>
    -- taking a `return` off does nothing to a failure
    have he := ht.statements_eq hs .null
    exact (Run.unwrapped_of_stops (by rw [he]; exact hs)).trans he
  | blockStatement ht => exact ht.statements_eq hs .null
  | letValue | prefixOperand | leftOperand | condition | callee => exact Run.unlessError_of_stops hs
  | returnValue hm =>
    rw [Activation.outcome_node, Eval.eval_returnStatement hm]
    exact Run.unlessError_of_stops hs
  | rightOperand hl hv =>
    exact (Run.unlessError_of_done hl hv).trans (Run.unlessError_of_stops hs)
  | argument hf hv ht =>
    refine (Run.unlessError_of_done hf hv).trans ?_
    -- a failure of an argument is passed on without the call, and a halt ends everything
    obtain ⟨f, m', hr⟩ | ⟨_, m', hr⟩ := Outcome.exists_of_stops hs
    · rw [Run.bind_of_done (ht.expressions_eq.1 _ _ hr), hr]
      rfl
    · rw [Run.bind_of_halted (ht.expressions_eq.2 _ _ hr), hr]
  | body hp hn hx =>
    rw [Activation.outcome_call, Eval.call_function hp, Run.bind_of_done hn, Run.bind_of_done hx]
    exact Run.unwrapped_of_stops hs
  | expression | consequence | alternative | application | builtin => exact hlast (by decide)

/-- An activation that ends in a failure or a halt, at any depth, ends all that are around it. -/
theorem Performs.outcome_eq (h : Performs settings a b) (hs : (b.outcome settings).stops = true) :
    a.outcome settings = b.outcome settings := by
  -- from the inside out: what `b` ends, ends the activation around it in turn
  induction h using Relation.ReflTransGen.head_induction_on with
  | refl => rfl
  | head hb _ ih =>
    obtain ⟨place, hb⟩ := hb
    exact (hb.outcome_eq (by rw [ih]; exact hs)).trans ih

end MonkeyLang
