import MonkeyLang.Proofs.Eval.Nesting

/-!
# Evaluations on different stores

Two evaluations of one tree can go on in different stores: with other numbers for the scopes, or
with bindings that none of them looks up. A `Correspondence` says which scopes and which stores
stand for each other, and which names are looked up alike. Functions correspond if they are the same
but for their scopes, and all other values if they are equal. `Correspondence.Lawful` has the
conditions under which that is kept: one for each thing that evaluation does with a store.

Main statements: `Lawful.runs_eval` and `Lawful.runs_call`. What begins in corresponding stores ends
alike: with corresponding values or with the same halt, and with logs that show the same.
-/

namespace MonkeyLang

variable {α β : Type}

/-! ## The names that a tree looks up -/

namespace Tree

mutual

/-- The labels of the identifiers of a tree, those of the functions in it too. -/
def readLabels : Tree α → List α
  | .missing | .integer _ | .string _ | .boolean _ => []
  | .identifier x => [x]
  | .program ss | .block ss => readLabelsAmong ss
  | .letStatement _ e | .returnStatement e | .expressionStatement e | .prefixed _ e => e.readLabels
  | .function _ b => b.readLabels
  | .infixed l _ r => l.readLabels ++ r.readLabels
  | .conditional c t e => c.readLabels ++ t.readLabels ++ e.readLabels
  | .call f as => f.readLabels ++ readLabelsAmong as
termination_by structural t => t

def readLabelsAmong : List (Tree α) → List α
  | [] => []
  | t :: ts => t.readLabels ++ readLabelsAmong ts
termination_by structural ts => ts

end

/-- A tree reads no more names than the trees that it is among. -/
theorem readLabels_subset_among {ts : List (Tree α)} {t : Tree α} (h : t ∈ ts) :
    t.readLabels ⊆ readLabelsAmong ts := by
  induction ts with
  | nil => cases h
  | cons u ts ih =>
    obtain rfl | h := List.mem_cons.1 h
    · exact List.subset_append_left _ _
    · exact List.Subset.trans (ih h) (List.subset_append_right _ _)

end Tree

/-! ## What is shown -/

/-- What is shown of an entry of a log: its text, and whether it was printed. -/
def Entry.shown : Entry → Bool × String
  | .printed line => (true, line)
  | .note n => (false, n.text)

/-- Two notes that are made alike: for the same verbosity, with the same text, or with the same halt
in the way. -/
structure Note.Alike (n n' : Note) : Prop where
  level : n.level = n'.level
  halt? : n.halt? = n'.halt?
  text : n.text = n'.text

/-! ## Correspondences -/

/-- Which scopes of two evaluations stand for each other, and which names are looked up alike. -/
structure Renaming where
  reads : Name → Prop
  scopes : ScopeId → ScopeId → Prop

namespace Renaming

variable (r : Renaming)

/-- Only names that are looked up alike are looked up by the tree. -/
def Admits (t : Program) : Prop :=
  ∀ x ∈ t.readLabels, ∀ name, x.name = .ok name → r.reads name

/-- Values that stand for each other: they are equal but for the scopes of functions. -/
inductive Values : Value → Value → Prop where
  /-- A value that refers to no scope. -/
  | plain {v : Value} : v.Within 0 → Values v v
  | returned {v w : Value} : Values v w → Values (.returned v) (.returned w)
  | function {ps : List Json} {b : Program} {e e' : ScopeId} : r.Admits b → r.scopes e e' →
      Values (.function ps b e) (.function ps b e')

/-- Values of expressions that stand for each other. -/
inductive Results : Except Failure (List Value) → Except Failure (List Value) → Prop where
  | error (f : Failure) : Results (.error f) (.error f)
  | ok {vs ws : List Value} : List.Forall₂ r.Values vs ws → Results (.ok vs) (.ok ws)

end Renaming

/-- Which scopes and which stores of two evaluations stand for each other. -/
structure Correspondence extends Renaming where
  stores : Store → Store → Prop

namespace Correspondence

variable (c : Correspondence)

/-- Machines that stand for each other, with logs that show the same. -/
structure Machines (m m' : Machine) : Prop where
  store : c.stores m.store m'.store
  log : m.log.map Entry.shown = m'.log.map Entry.shown

/-- Runs that end alike. -/
inductive Ends (R : α → α → Prop) : Outcome α → Outcome α → Prop where
  | done {a a' : α} {m m' : Machine} : R a a' → c.Machines m m' → Ends R (.done a m) (.done a' m')
  | halted {h : Halt} {m m' : Machine} : c.Machines m m' → Ends R (.halted h m) (.halted h m')

/-- However runs end alike, the machines at their ends stand for each other. -/
theorem Ends.machines {c : Correspondence} {R : α → α → Prop} {o o' : Outcome α}
    (h : c.Ends R o o') : c.Machines o.machine o'.machine := by
  cases h with
  | done _ hm => exact hm
  | halted hm => exact hm

/-- Runs that end alike from machines that stand for each other. -/
def Runs (R : α → α → Prop) (r r' : Run α) : Prop :=
  ∀ m m', c.Machines m m' → c.Ends R (r m) (r' m')

/-- What evaluation does with stores leads from stores that stand for each other to such stores, and
finds values that stand for each other. -/
structure Lawful (c : Correspondence) : Prop where
  next {s s' : Store} : c.stores s s' → c.scopes s.next s'.next
  add {s s' : Store} {e e' : ScopeId} {vs ws : List Value} (xs : List Name) : c.stores s s' →
    c.scopes e e' → List.Forall₂ c.Values vs ws →
    c.stores (s.add (Eval.frame xs vs e)) (s'.add (Eval.frame xs ws e'))
  bind {s s' : Store} {e e' : ScopeId} {v w : Value} (name : Name) : c.stores s s' →
    c.scopes e e' → c.Values v w → c.stores (s.bind e name v) (s'.bind e' name w)
  lookup {s s' : Store} {e e' : ScopeId} {name : Name} : c.stores s s' → c.scopes e e' →
    c.reads name → Option.Rel c.Values (s.lookup name e) (s'.lookup name e')

end Correspondence

/-! ## Values -/

namespace Renaming

variable {r : Renaming}

theorem Admits.of_subset {t u : Program} (h : r.Admits u) (hs : t.readLabels ⊆ u.readLabels) :
    r.Admits t :=
  fun x hx => h x (hs hx)

namespace Values

variable {v w : Value}

theorem unwrapped (h : r.Values v w) : r.Values v.unwrapped w.unwrapped := by
  cases h with
  | plain hv => exact .plain hv.unwrapped
  | returned h => exact h
  | function hb he => exact .function hb he

/-- Values that stand for each other have one type, which never depends on a scope. -/
theorem type_eq (h : r.Values v w) : v.type = w.type := by
  cases h <;> rfl

theorem truthy_eq (h : r.Values v w) : v.truthy = w.truthy := by
  cases h <;> rfl

theorem isError_eq (h : r.Values v w) : v.isError = w.isError := by
  cases h <;> rfl

theorem completes_eq (h : r.Values v w) : v.completes = w.completes := by
  cases h <;> rfl

theorem isShowable_eq (h : r.Values v w) : v.isShowable = w.isShowable := by
  induction h with
  | returned _ ih => exact ih
  | _ => rfl

/-- Values that stand for each other print alike: no text of a value shows a scope. -/
theorem text_eq (h : r.Values v w) : v.text = w.text := by
  have hcontent : v.content = w.content := by
    induction h with
    | returned _ ih => exact ih
    | _ => rfl
  rw [Value.text, Value.text, hcontent]

theorem inspect_eq (h : r.Values v w) : v.inspect = w.inspect := by
  induction h with
  | returned _ ih => exact congrArg (fun text => "ReturnValue(value=" ++ text ++ ")") ih
  | _ => rfl

/-- The notes on binding them are alike. -/
theorem bound_alike (x : Json) (h : r.Values v w) : (Note.bound x v).Alike (.bound x w) where
  level := rfl
  halt? := by rw [Note.halt?, Note.halt?, h.isShowable_eq]
  text := by
    have htext (v : Value) : (Note.bound x v).text =
        "let " ++ x.display ++ ": " ++ v.type.name ++ " = " ++ v.inspect := rfl
    rw [htext, htext, h.type_eq, h.inspect_eq]

/-- The notes on deciding a condition by them are alike. -/
theorem decided_alike (h : r.Values v w) : (Note.decided v).Alike (.decided w) where
  level := rfl
  halt? := by rw [Note.halt?, Note.halt?, h.isShowable_eq]
  text := by
    have htext (v : Value) : (Note.decided v).text =
        "if condition " ++ v.inspect ++ " -> " ++ (if v.truthy then "True" else "False") := rfl
    rw [htext, htext, h.truthy_eq, h.inspect_eq]

/-- Operations do not look at the scopes of functions. -/
theorem applyPrefix_eq (o : String) (h : r.Values v w) : applyPrefix o v = applyPrefix o w := by
  cases h with
  | plain _ => rfl
  | returned _ | function _ _ => unfold applyPrefix; split <;> rfl

/-- An infix operator asks of a function no more than that it is one. -/
theorem applyInfix_eq (o : String) {v' w' : Value} (h : r.Values v w) (h' : r.Values v' w') :
    applyInfix o v v' = applyInfix o w w' := by
  -- Only two equal plain values can make a result; beside a function every operator fails with the
  -- types.
  cases h with
  | plain _ =>
    cases h' with
    | plain _ => rfl
    | returned _ | function _ _ => cases v <;> rfl
  | returned _ | function _ _ =>
    cases h' with
    | plain _ => cases v' <;> rfl
    | returned _ | function _ _ => rfl

end Values

end Renaming

/-! ## Rules for runs -/

namespace Correspondence

variable {c : Correspondence}

namespace Runs

variable {R : α → α → Prop} {Q : β → β → Prop} {r r' : Run α}

theorem done {a a' : α} (h : R a a') : c.Runs R (pure a) (pure a') :=
  fun _ _ hm => .done h hm

theorem halt (h : Halt) : c.Runs R (Run.halt h) (Run.halt h) :=
  fun _ _ hm => .halted hm

/-- Runs one after the other end alike if their parts do. -/
theorem bind {f f' : α → Run β} (hr : c.Runs R r r')
    (hf : ∀ a a', R a a' → c.Runs Q (f a) (f' a')) : c.Runs Q (r >>= f) (r' >>= f') := by
  intro m m' hm
  have h := hr m m' hm
  -- Both first parts are done or both halt, by the one way in which they end alike.
  generalize ho : r m = o, ho' : r' m' = o' at h
  cases h with
  | done ha hm₁ =>
    rw [Run.bind_of_done ho, Run.bind_of_done ho']
    exact hf _ _ ha _ _ hm₁
  | halted hm₁ =>
    rw [Run.bind_of_halted ho, Run.bind_of_halted ho']
    exact .halted hm₁

/-- Runs that go on with a value unless it is a failure. -/
theorem unlessError {r r' : Run Value} {f f' : Value → Run Value} (hr : c.Runs c.Values r r')
    (hf : ∀ v w, c.Values v w → c.Runs c.Values (f v) (f' w)) :
    c.Runs c.Values (Run.unlessError r f) (Run.unlessError r' f') := by
  refine hr.bind fun v w hv => ?_
  rw [← hv.isError_eq]
  split
  · exact .done hv
  · exact hf v w hv

/-- A result that has nothing to do with stores is the same on both sides. -/
theorem ofExcept {x : Except Halt α} (h : ∀ a, x = .ok a → R a a) :
    c.Runs R (Run.ofExcept x) (Run.ofExcept x) := by
  cases x with
  | ok a => exact .done (h a rfl)
  | error _ => exact .halt _

/-- What a label gives has nothing to do with stores either. -/
theorem ofLabel {x : Except LabelFault α} (h : ∀ a, x = .ok a → R a a) :
    c.Runs R (Run.ofLabel x) (Run.ofLabel x) := by
  cases x with
  | ok a => exact .done (h a rfl)
  | error _ => exact .halt _

theorem record {e e' : Entry} (h : e.shown = e'.shown) : c.Runs Eq (Run.record e) (Run.record e') :=
  fun _ _ hm => .done rfl ⟨hm.store, by rw [Array.map_push, Array.map_push, hm.log, h]⟩

/-- Notes that are alike are made, left out or halt together. -/
theorem note (settings : Settings) {n n' : Note} (h : n.Alike n') :
    c.Runs Eq (Run.note settings n) (Run.note settings n') := by
  unfold Run.note
  rw [← h.level, ← h.halt?]
  split
  · split
    · exact .record (congrArg (Prod.mk false) h.text)
    · exact .halt _
  · exact .done rfl

end Runs

/-! ## Evaluation -/

section

variable {settings : Settings} {inner : Evaluator} {e e' : ScopeId} {ts : List Program}

/-- A sequence stops at the same statement in both runs. -/
theorem runs_statements (hi : ∀ t ∈ ts, c.Runs c.Values (inner t e) (inner t e')) {v w : Value}
    (h : c.Values v w) :
    c.Runs c.Values (Eval.statements inner e v ts) (Eval.statements inner e' w ts) := by
  induction ts generalizing v w with
  | nil => exact .done h
  | cons t ts ih =>
    obtain ⟨ht, hts⟩ := List.forall_mem_cons.1 hi
    rw [Eval.statements_cons, Eval.statements_cons]
    refine ht.bind fun v w hv => ?_
    rw [← hv.completes_eq]
    split
    · exact ih hts hv
    · exact .done hv

/-- A list of expressions stops at the same failure or gives values that stand for each other. -/
theorem runs_expressions (hi : ∀ t ∈ ts, c.Runs c.Values (inner t e) (inner t e')) :
    c.Runs c.Results (Eval.expressions inner e ts) (Eval.expressions inner e' ts) := by
  induction ts with
  | nil => exact .done (.ok .nil)
  | cons t ts ih =>
    obtain ⟨ht, hts⟩ := List.forall_mem_cons.1 hi
    have hcons {v w : Value} (hv : c.Values v w) : c.Runs c.Results
        (do return (← Eval.expressions inner e ts).map (v :: ·))
        (do return (← Eval.expressions inner e' ts).map (w :: ·)) := by
      refine (ih hts).bind fun r r' hr => .done ?_
      cases hr with
      | error f => exact .error f
      | ok hvs => exact .ok (.cons hv hvs)
    refine ht.bind fun v w hv => ?_
    -- only a value that refers to no scope can be a failure
    cases hv with
    | plain hp =>
      cases v with
      | error f => exact .done (.error f)
      | _ => exact hcons (.plain hp)
    | returned hv => exact hcons (.returned hv)
    | function hb he => exact hcons (.function hb he)

/-- Parameters have the same names in both runs. -/
theorem runs_names (js : List Json) : c.Runs Eq (Eval.names js) (Eval.names js) := by
  induction js with
  | nil => exact .done rfl
  | cons j js ih =>
    refine (Runs.ofLabel fun _ _ => rfl).bind fun name _ hname => ih.bind fun xs _ hxs => .done ?_
    rw [hname, hxs]

/-- Values that stand for each other are printed as the same lines. -/
theorem runs_printAll {vs ws : List Value} (h : List.Forall₂ c.Values vs ws) :
    c.Runs Eq (Eval.printAll vs) (Eval.printAll ws) := by
  induction h with
  | nil => exact .done rfl
  | cons hv _ ih =>
    rw [Eval.printAll, Eval.printAll, ← hv.text_eq]
    refine (Runs.ofExcept fun _ _ => rfl).bind fun line _ hline => ?_
    exact (Runs.record (by rw [hline])).bind fun _ _ _ => ih

/-- A builtin function gives values without scopes, and the same ones. -/
theorem runs_builtin (b : Builtin) {vs ws : List Value} (h : List.Forall₂ c.Values vs ws) :
    c.Runs c.Values (Eval.builtin b vs) (Eval.builtin b ws) := by
  cases b with
  | puts => exact (runs_printAll h).bind fun _ _ _ => .done (.plain trivial)
  | len =>
    cases h with
    | nil => exact .halt _
    | @cons v w vs ws hv _ =>
      -- Only a word or a text has a length; of the others just the type is told.
      cases hv with
      | returned | function => exact .done (.plain trivial)
      | plain _ =>
        cases v with
        | datum j =>
          refine (Runs.ofLabel fun _ _ => rfl).bind fun k _ hk => ?_
          rw [hk]
          exact .done (.plain trivial)
        | _ => exact .done (.plain trivial)

namespace Lawful

/-- A call makes a scope for the body of the function, in both stores. -/
theorem runs_call_of (hc : c.Lawful)
    (hi : ∀ t e e', c.Admits t → c.scopes e e' → c.Runs c.Values (inner t e) (inner t e'))
    {f g : Value} {vs ws : List Value} (hf : c.Values f g) (hvs : List.Forall₂ c.Values vs ws) :
    c.Runs c.Values (Eval.call settings inner f vs) (Eval.call settings inner g ws) := by
  have hlen := hvs.length_eq
  have refused (f : Failure) : c.Runs c.Values (pure (.error f)) (pure (.error f)) :=
    .done (.plain trivial)
  cases hf with
  | returned => exact refused _
  | @function ps b e e' hb he =>
    by_cases hp : settings.strictArity ∧ vs.length ≠ ps.length
    · rw [Eval.call_function_of_ne hp, Eval.call_function_of_ne (hlen ▸ hp), hlen]
      exact refused _
    · rw [Eval.call_function hp, Eval.call_function (hlen ▸ hp), hlen]
      refine (Runs.note settings ⟨rfl, rfl, rfl⟩).bind fun _ _ _ => ?_
      refine (runs_names _).bind fun xs _ hxs => ?_
      rw [← hxs]
      -- both frames bind the same names, and their scopes stand for each other from now on
      have hadd : c.Runs c.scopes (Run.addScope (Eval.frame xs vs e))
          (Run.addScope (Eval.frame xs ws e')) :=
        fun m m' hm => .done (hc.next hm.store) ⟨hc.add xs hm.store he hvs, hm.log⟩
      refine hadd.bind fun i i' hscope => (hi b i i' hb hscope).bind fun v w hv => ?_
      exact .done hv.unwrapped
  | plain hp =>
    cases f with
    | function => exact absurd hp (Nat.not_lt_zero _)
    | builtin b =>
      rcases Eval.arity_cases b vs.length with hb | ⟨k, hk, hne⟩
      · rw [Eval.call_builtin hb, Eval.call_builtin (hlen ▸ hb), hlen]
        exact (Runs.note settings ⟨rfl, rfl, rfl⟩).bind fun _ _ _ => runs_builtin b hvs
      · rw [Eval.call_builtin_of_ne hk hne, Eval.call_builtin_of_ne hk (hlen ▸ hne), hlen]
        exact refused _
    | _ => exact refused _

/-- One node more. -/
theorem runs_step (hc : c.Lawful)
    (hi : ∀ t e e', c.Admits t → c.scopes e e' → c.Runs c.Values (inner t e) (inner t e'))
    {t : Program} (ht : c.Admits t) (he : c.scopes e e') :
    c.Runs c.Values (Eval.step settings inner t e) (Eval.step settings inner t e') := by
  -- a part of the node reads no more names than the node
  have part {u : Program} (hs : u.readLabels ⊆ t.readLabels) :
      c.Runs c.Values (inner u e) (inner u e') := hi u e e' (ht.of_subset hs) he
  have hnull : c.Values .null .null := .plain trivial
  cases t with
  | missing => exact .halt _
  | integer | boolean => exact .done (.plain trivial)
  | string x => exact .done (.plain (by cases x <;> trivial))
  | function ps b => exact .done (.function ht he)
  | program ss =>
    have hss := runs_statements (fun t h => part (Tree.readLabels_subset_among h)) hnull
    exact hss.bind fun v w hv => .done hv.unwrapped
  | block ss =>
    exact runs_statements (fun t h => part (Tree.readLabels_subset_among h)) hnull
  | expressionStatement u => exact part fun _ h => h
  | letStatement x u =>
    refine (part (u := u) fun _ h => h).unlessError fun v w hv => ?_
    refine (Runs.ofLabel fun _ _ => rfl).bind fun name _ hname => ?_
    rw [← hname]
    have hbind : c.Runs Eq (Run.bindName e name v) (Run.bindName e' name w) :=
      fun m m' hm => .done rfl ⟨hc.bind name hm.store he hv, hm.log⟩
    refine hbind.bind fun _ _ _ => ?_
    exact (Runs.note settings (hv.bound_alike x)).bind fun _ _ _ => .done hnull
  | returnStatement u =>
    cases hu : u.isMissing with
    | true =>
      obtain rfl := Tree.eq_missing hu
      exact .done (.returned hnull)
    | false =>
      have hpart := (part (u := u) fun _ h => h).unlessError fun v w hv => .done (.returned hv)
      cases u with
      | missing => cases hu
      | _ => exact hpart
  | identifier x =>
    refine (Runs.ofLabel fun name hx => ⟨rfl, ht x List.mem_cons_self name hx⟩).bind
      (R := fun name name' => name = name' ∧ c.reads name) fun name _ ⟨hname, hreads⟩ => ?_
    rw [← hname]
    have hlookup : c.Runs (Option.Rel c.Values) (Run.lookup name e) (Run.lookup name e') :=
      fun m m' hm => .done (hc.lookup hm.store he hreads) hm
    refine hlookup.bind fun o o' ho => ?_
    cases ho with
    | none => exact .done (.plain trivial)
    | some hv => exact .done hv
  | prefixed o u =>
    refine (part (u := u) fun _ h => h).unlessError fun v w hv => ?_
    rw [← hv.applyPrefix_eq]
    exact .done (.plain (within_applyPrefix 0 _ v))
  | infixed l o r =>
    refine (part (List.subset_append_left _ _)).unlessError fun v w hv => ?_
    refine (part (List.subset_append_right _ _)).unlessError fun v' w' hv' => ?_
    rw [← hv.applyInfix_eq o.display hv']
    cases hop : applyInfix o.display v v' with
    | ok u => exact .done (.plain (within_applyInfix 0 hop))
    | error f => exact .halt _
  | conditional k t f =>
    have hk : k.readLabels ⊆ (Tree.conditional k t f).readLabels := by simp [Tree.readLabels]
    have ht : t.readLabels ⊆ (Tree.conditional k t f).readLabels := by simp [Tree.readLabels]
    have hf : f.readLabels ⊆ (Tree.conditional k t f).readLabels := by simp [Tree.readLabels]
    refine (part hk).unlessError fun v w hv => ?_
    refine (Runs.note settings hv.decided_alike).bind fun _ _ _ => ?_
    rw [← hv.truthy_eq]
    -- both conditions hold or neither does, so both runs take the same branch
    split
    · exact part ht
    · cases f with
      | missing => exact .done hnull
      | _ => exact part hf
  | call f as =>
    refine (part (List.subset_append_left _ _)).unlessError fun v w hv => ?_
    refine (runs_expressions fun t h => part ?_).bind fun r r' hr => ?_
    · exact List.Subset.trans (Tree.readLabels_subset_among h) (List.subset_append_right _ _)
    · cases hr with
      | error f => exact .done (.plain trivial)
      | ok hvs => exact hc.runs_call_of hi hv hvs

/-- Evaluations in scopes that stand for each other end alike. -/
theorem runs_eval (hc : c.Lawful) (settings : Settings) (budget : Nat) {t : Program}
    (ht : c.Admits t) (he : c.scopes e e') :
    c.Runs c.Values (eval settings budget t e) (eval settings budget t e') := by
  induction budget generalizing t e e' with
  | zero => exact .halt _
  | succ n ih => exact hc.runs_step (fun t e e' => ih) ht he

/-- Calls of values that stand for each other end alike. -/
theorem runs_call (hc : c.Lawful) (settings : Settings) (budget : Nat) {f g : Value}
    {vs ws : List Value} (hf : c.Values f g) (hvs : List.Forall₂ c.Values vs ws) :
    c.Runs c.Values (Eval.call settings (eval settings budget) f vs)
      (Eval.call settings (eval settings budget) g ws) :=
  hc.runs_call_of (fun _ _ _ => hc.runs_eval settings budget) hf hvs

end Lawful

end

end Correspondence

end MonkeyLang
