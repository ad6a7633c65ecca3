import MonkeyLang.Proofs.Eval.Contract

/-!
# What an evaluation leaves as it was

Scopes are shared: by closures, by the calls that are under way and by the programs of a session.
Main statement: `evaluation_frame` says that an evaluation changes none of them but its own, and
that only at the names of its own `let` statements, and that a call changes none at all.
-/

namespace MonkeyLang

/-! ## Relations between stores -/

namespace Store

variable {s s₁ s₂ : Store} {e : ScopeId} {N N' : Name → Prop}

/-- The store on the right has the scopes of the one on the left, as they were, and maybe more. -/
structure Grows (s s' : Store) : Prop where
  next_le : s.next ≤ s'.next
  scope?_eq : ∀ id < s.next, s'.scope? id = s.scope? id

/-- The store on the right has the scopes of the one on the left, and maybe more. Of those that were
there, only the scope `e` may have changed: it has its parent, and its bindings but for names
in `N`. -/
structure Extends (e : ScopeId) (N : Name → Prop) (s s' : Store) : Prop where
  next_le : s.next ≤ s'.next
  scope?_eq : ∀ id < s.next, id ≠ e → s'.scope? id = s.scope? id
  parent_eq : e < s.next → (s'.scope? e).map Scope.parent = (s.scope? e).map Scope.parent
  get?_eq : e < s.next → ∀ x, ¬ N x → (s'.bindings e).get? x = (s.bindings e).get? x

theorem Grows.refl (s : Store) : s.Grows s :=
  ⟨Nat.le_refl _, fun _ _ => rfl⟩

/-- A scope that is added is new, so what happens to it does not show. -/
theorem Grows.of_add {scope : Scope} (h : (s.add scope).Extends s.next N s₁) : s.Grows s₁ := by
  have hn : s.next ≤ (s.add scope).next := by
    rw [next_add]
    exact Nat.le_succ _
  refine ⟨Nat.le_trans hn h.next_le, fun id hid => ?_⟩
  have hne : id ≠ s.next := Nat.ne_of_lt hid
  rw [h.scope?_eq id (Nat.lt_of_lt_of_le hid hn) hne, scope?_add, if_neg hne]

namespace Extends

theorem of_grows (h : s.Grows s₁) : s.Extends e N s₁ where
  next_le := h.next_le
  scope?_eq id hid _ := h.scope?_eq id hid
  parent_eq he := by rw [h.scope?_eq e he]
  get?_eq he x _ := by rw [bindings, h.scope?_eq e he]; rfl

theorem refl (s : Store) : s.Extends e N s :=
  of_grows (.refl s)

theorem trans (h₁ : s.Extends e N s₁) (h₂ : s₁.Extends e N s₂) : s.Extends e N s₂ := by
  have hlt (id : ScopeId) (hid : id < s.next) : id < s₁.next := Nat.lt_of_lt_of_le hid h₁.next_le
  constructor
  · exact Nat.le_trans h₁.next_le h₂.next_le
  · exact fun id hid hne => (h₂.scope?_eq id (hlt id hid) hne).trans (h₁.scope?_eq id hid hne)
  · exact fun he => (h₂.parent_eq (hlt e he)).trans (h₁.parent_eq he)
  · exact fun he x hx => (h₂.get?_eq (hlt e he) x hx).trans (h₁.get?_eq he x hx)

theorem mono (h : s.Extends e N s₁) (hn : ∀ x, N x → N' x) : s.Extends e N' s₁ :=
  ⟨h.next_le, h.scope?_eq, h.parent_eq, fun he x hx => h.get?_eq he x fun hN => hx (hn x hN)⟩

/-- Binding a name changes the scope that it is bound in, at this name. -/
theorem bind {name : Name} {v : Value} (hn : ∀ x, x.same name = true → N x) :
    s.Extends e N (s.bind e name v) where
  next_le := Nat.le_of_eq (s.next_bind e name v).symm
  scope?_eq id _ hne := by rw [scope?_bind, if_neg hne.symm]
  parent_eq _ := by
    rw [scope?_bind, if_pos rfl, Option.map_map]
    rfl
  get?_eq he x hx := by
    obtain ⟨scope, hs⟩ := exists_scope he
    have hx : ¬ x.same name = true := fun h => hx (hn x h)
    simp only [bindings, scope?_bind, hs, Option.map_some, Option.getD_some, if_true,
      Bindings.get?_set, if_neg hx]

end Extends

end Store

/-! ## The names that a tree binds -/

namespace Tree

variable {α : Type}

mutual

/-- The labels of the `let` statements of a tree, outside of the functions in it. -/
def letLabels : Tree α → List α
  | .missing | .identifier _ | .integer _ | .string _ | .boolean _ | .function .. => []
  | .letStatement x e => x :: e.letLabels
  | .program ss | .block ss => letLabelsAmong ss
  | .returnStatement e | .expressionStatement e | .prefixed _ e => e.letLabels
  | .infixed l _ r => l.letLabels ++ r.letLabels
  | .conditional c t e => c.letLabels ++ t.letLabels ++ e.letLabels
  | .call f as => f.letLabels ++ letLabelsAmong as
termination_by structural t => t

def letLabelsAmong : List (Tree α) → List α
  | [] => []
  | t :: ts => t.letLabels ++ letLabelsAmong ts
termination_by structural ts => ts

end

theorem mem_letLabelsAmong {ts : List (Tree α)} {x : α} :
    x ∈ letLabelsAmong ts ↔ ∃ t ∈ ts, x ∈ t.letLabels := by
  induction ts with
  | nil => simp [letLabelsAmong]
  | cons t ts ih => simp [letLabelsAmong, ih]

/-- The names that a `let` statement of a program can bind, outside of the functions in it. -/
def MayBind (t : Program) (name : Name) : Prop :=
  ∃ x ∈ t.letLabels, ∃ y, x.name = .ok y ∧ name.same y = true

theorem MayBind.of_subset {t u : Program} (h : t.letLabels ⊆ u.letLabels) :
    ∀ x, t.MayBind x → u.MayBind x :=
  fun _ ⟨label, hl, hx⟩ => ⟨label, h hl, hx⟩

end Tree

/-! ## Evaluation -/

/-- A builtin function leaves the scopes alone. -/
theorem keeps_builtin {K : Store → Prop} {m : Machine} (b : Builtin) (vs : List Value)
    (hk : K m.store) : (Eval.builtin b vs m).Keeps K (fun _ => True) fun _ => True := by
  cases b with
  | puts =>
    refine Run.keeps_bind (keeps_printAll hk fun _ _ _ _ => trivial) fun _ m₁ _ hk₁ _ => ?_
    exact ⟨hk₁, trivial⟩
  | len =>
    cases vs with
    | nil => exact ⟨hk, trivial⟩
    | cons v vs =>
      cases v with
      | datum j =>
        refine Run.keeps_bind (R := fun _ => True)
          (Run.keeps_ofLabel hk (fun _ _ => trivial) fun _ _ => trivial) fun k m₁ _ hk₁ _ => ?_
        exact ⟨hk₁, trivial⟩
      | _ => exact ⟨hk, trivial⟩

/-- What an evaluator leaves as it was: all scopes but the one that it is given, and there all names
but those that the tree binds. -/
def Framed (inner : Evaluator) : Prop :=
  ∀ (t : Program) (e : ScopeId) (m : Machine),
    m.store.Extends e t.MayBind (inner t e m).machine.store

namespace Framed

variable {settings : Settings} {inner : Evaluator} {m₀ m : Machine} {e : ScopeId}

/-- A part of a tree leaves as it was what the tree leaves so. -/
theorem keeps_part {t u : Program} (hi : Framed inner) (hs : t.letLabels ⊆ u.letLabels)
    (hk : m₀.store.Extends e u.MayBind m.store) :
    (inner t e m).Keeps (m₀.store.Extends e u.MayBind) (fun _ => True) fun _ => True :=
  .of_store (hk.trans ((hi t e m).mono (Tree.MayBind.of_subset hs)))

/-- A call changes no scope that was there before. -/
theorem keeps_call (hi : Framed inner) (f : Value) (vs : List Value) :
    (Eval.call settings inner f vs m).Keeps m.store.Grows (fun _ => True) fun _ => True := by
  have hnote (n : Note) : (Run.note settings n m).Keeps m.store.Grows (fun _ => True)
      fun _ => True := Run.keeps_note (.refl _) fun _ _ => trivial
  cases f with
  | function ps b scope =>
    by_cases hp : settings.strictArity ∧ vs.length ≠ ps.length
    · rw [Eval.call_function_of_ne hp]
      exact ⟨.refl _, trivial⟩
    · rw [Eval.call_function hp]
      refine Run.keeps_bind (hnote _) fun _ m₁ h₁ hk₁ _ => ?_
      -- up to here no scope was made, so the new one is the next one of the first store
      have hnames := keeps_names (K := (· = m.store)) (S := fun _ => True) (ps.take vs.length)
        (Run.store_of_note h₁) fun _ _ _ _ => trivial
      refine Run.keeps_bind (keeps_names _ hk₁ fun _ _ _ _ => trivial) fun xs m₂ h₂ hk₂ _ => ?_
      rw [h₂] at hnames
      have hbody := hi b m₂.store.next { m₂ with store := m₂.store.add (Eval.frame xs vs scope) }
      have hgrows := Store.Grows.of_add hbody
      rw [show m₂.store = m.store from hnames.1] at hgrows
      have hframe : Run.addScope (Eval.frame xs vs scope) m₂ = .done m.store.next
          { m₂ with store := m.store.add (Eval.frame xs vs scope) } := by
        rw [Run.addScope, show m₂.store = m.store from hnames.1]
      rw [Run.bind_of_done hframe]
      exact Run.keeps_bind (.of_store hgrows) fun v m₃ _ hk₃ _ => ⟨hk₃, trivial⟩
  | builtin b =>
    rcases Eval.arity_cases b vs.length with hb | ⟨k, hk, hne⟩
    · rw [Eval.call_builtin hb]
      exact Run.keeps_bind (hnote _) fun _ m₁ _ hk₁ _ => keeps_builtin b vs hk₁
    · rw [Eval.call_builtin_of_ne hk hne]
      exact ⟨.refl _, trivial⟩
  | _ => exact ⟨.refl _, trivial⟩

/-- One node more. -/
theorem step (hi : Framed inner) : Framed (Eval.step settings inner) := by
  intro t e m
  have hk : m.store.Extends e t.MayBind m.store := .refl _
  -- the parts of `t` are done one after the other, each in `e`, and bind no more than `t` may
  refine Outcome.Keeps.store (S := fun _ => True) (Q := fun _ => True) ?_
  cases t with
  | missing | integer | string | boolean | function => exact ⟨hk, trivial⟩
  | program ss =>
    refine Run.keeps_bind (R := fun _ => True) (keeps_statements hk trivial fun t m₁ ht hk₁ => ?_)
      fun v m₁ _ hk₁ _ => ⟨hk₁, trivial⟩
    exact hi.keeps_part (fun x hx => Tree.mem_letLabelsAmong.2 ⟨t, ht.mem, hx⟩) hk₁
  | block ss =>
    refine keeps_statements hk trivial fun t m₁ ht hk₁ => ?_
    exact hi.keeps_part (fun x hx => Tree.mem_letLabelsAmong.2 ⟨t, ht.mem, hx⟩) hk₁
  | expressionStatement t => exact hi.keeps_part (fun x hx => hx) hk
  | letStatement x t =>
    refine Run.keeps_unlessError (hi.keeps_part (fun y hy => List.mem_cons_of_mem x hy) hk)
      (fun _ _ => trivial) fun v m₁ _ hk₁ _ _ => ?_
    refine Run.keeps_bind (R := fun name => x.name = .ok name)
      (Run.keeps_ofLabel hk₁ (fun _ _ => trivial) fun _ h => h) fun name m₂ _ hk₂ hname => ?_
    have hbind := hk₂.trans (.bind (v := v) fun y hy => ⟨x, List.mem_cons_self, name, hname, hy⟩)
    refine Run.keeps_bind (R := fun _ => True) ⟨hbind, trivial⟩ fun _ m₃ _ hk₃ _ => ?_
    exact Run.keeps_bind (Run.keeps_note hk₃ fun _ _ => trivial) fun _ m₄ _ hk₄ _ => ⟨hk₄, trivial⟩
  | returnStatement t =>
    cases t with
    | missing => exact ⟨hk, trivial⟩
    | _ =>
      exact Run.keeps_unlessError (hi.keeps_part (fun x hx => hx) hk) (fun _ _ => trivial)
        fun v m₁ _ hk₁ _ _ => ⟨hk₁, trivial⟩
  | identifier x =>
    refine Run.keeps_bind (R := fun _ => True)
      (Run.keeps_ofLabel hk (fun _ _ => trivial) fun _ _ => trivial) fun name m₁ _ hk₁ _ => ?_
    refine Run.keeps_bind (r := Run.lookup name e) (R := fun _ => True) ⟨hk₁, trivial⟩
      fun o m₂ _ hk₂ _ => ?_
    cases o with
    | none => exact ⟨hk₂, trivial⟩
    | some v => exact ⟨hk₂, trivial⟩
  | prefixed o t =>
    exact Run.keeps_unlessError (hi.keeps_part (fun x hx => hx) hk) (fun _ _ => trivial)
      fun v m₁ _ hk₁ _ _ => ⟨hk₁, trivial⟩
  | infixed l o r =>
    refine Run.keeps_unlessError (hi.keeps_part (List.subset_append_left _ _) hk)
      (fun _ _ => trivial) fun v m₁ _ hk₁ _ _ => ?_
    refine Run.keeps_unlessError (hi.keeps_part (List.subset_append_right _ _) hk₁)
      (fun _ _ => trivial) fun w m₂ _ hk₂ _ _ => ?_
    exact Run.keeps_ofLabel hk₂ (fun _ _ => trivial) fun _ _ => trivial
  | conditional c t f =>
    have hc : c.letLabels ⊆ (Tree.conditional c t f).letLabels := by simp [Tree.letLabels]
    have ht : t.letLabels ⊆ (Tree.conditional c t f).letLabels := by simp [Tree.letLabels]
    have hf : f.letLabels ⊆ (Tree.conditional c t f).letLabels := by simp [Tree.letLabels]
    refine Run.keeps_unlessError (hi.keeps_part hc hk) (fun _ _ => trivial)
      fun v m₁ _ hk₁ _ _ => ?_
    refine Run.keeps_bind (Run.keeps_note hk₁ fun _ _ => trivial) fun _ m₂ _ hk₂ _ => ?_
    split
    · exact hi.keeps_part ht hk₂
    · cases f with
      | missing => exact ⟨hk₂, trivial⟩
      | _ => exact hi.keeps_part hf hk₂
  | call f as =>
    refine Run.keeps_unlessError (hi.keeps_part (List.subset_append_left _ _) hk)
      (fun _ _ => trivial) fun v m₁ _ hk₁ _ _ => ?_
    refine Run.keeps_bind (keeps_expressions (P := fun _ => True) hk₁ fun t m₂ ht hk₂ => ?_)
      fun r m₂ _ hk₂ _ => ?_
    · have hs : t.letLabels ⊆ (Tree.call f as).letLabels := fun x hx =>
        List.mem_append_right _ (Tree.mem_letLabelsAmong.2 ⟨t, ht.mem, hx⟩)
      exact (hi.keeps_part hs hk₂).imp fun _ _ _ => trivial
    · cases r with
      | error _ => exact ⟨hk₂, trivial⟩
      | ok vs =>
        exact (hi.keeps_call v vs).mono (fun s hs => hk₂.trans (.of_grows hs)) (fun _ => id)
          fun _ => id

end Framed

/-- Evaluation changes only the scope that it is done in. -/
theorem framed_eval (settings : Settings) (budget : Nat) : Framed (eval settings budget) := by
  induction budget with
  | zero => exact fun t e m => .refl _
  | succ n ih => exact ih.step

/-- The frame law. However an evaluation ends, it leaves all scopes that were there as they were but
the one that it was done in, and that one but for the names of its own `let` statements; a call
leaves all of them as they were. -/
theorem evaluation_frame (settings : Settings) (budget : Nat) (m : Machine) :
    (∀ (t : Program) (e : ScopeId),
      m.store.Extends e t.MayBind (eval settings budget t e m).machine.store) ∧
    ∀ (f : Value) (vs : List Value),
      m.store.Grows (Eval.call settings (eval settings budget) f vs m).machine.store := by
  have hi := framed_eval settings budget
  exact ⟨fun t e => hi t e m, fun f vs => (hi.keeps_call f vs).store⟩

end MonkeyLang
