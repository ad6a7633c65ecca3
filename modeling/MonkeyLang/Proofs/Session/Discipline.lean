import MonkeyLang.Proofs.Eval.Shape
import MonkeyLang.Proofs.Session.Runs

/-!
# Programs that return only from statements

A conditional is an expression, and a `return` in one of its blocks becomes its value. In a
disciplined program such a conditional is always a statement of its own, so that nothing else meets
that value: `disciplineContract.lawful` says that it is never bound, an argument, an operand or a
condition.
-/

namespace MonkeyLang

namespace Tree

variable {α : Type}

mutual

/-- Whether a `return` stands in a tree, outside of the functions in it. -/
def holdsReturn : Tree α → Bool
  | .missing | .identifier _ | .integer _ | .string _ | .boolean _ | .function .. => false
  | .returnStatement _ => true
  | .program ss | .block ss => holdsReturnAmong ss
  | .letStatement _ e | .expressionStatement e | .prefixed _ e => e.holdsReturn
  | .infixed l _ r => l.holdsReturn || r.holdsReturn
  | .conditional c t e => c.holdsReturn || t.holdsReturn || e.holdsReturn
  | .call f as => f.holdsReturn || holdsReturnAmong as
termination_by structural t => t

def holdsReturnAmong : List (Tree α) → Bool
  | [] => false
  | t :: ts => t.holdsReturn || holdsReturnAmong ts
termination_by structural ts => ts

end

mutual

/-- Whether every conditional of a tree that holds a `return` is the whole expression of a
statement, the tree itself being such an expression if `whole` is true. -/
def disciplinedAs : (whole : Bool) → Tree α → Bool
  | _, .missing | _, .identifier _ | _, .integer _ | _, .string _ | _, .boolean _ => true
  | _, .program ss | _, .block ss => disciplinedEach ss
  | _, .expressionStatement e => disciplinedAs true e
  | _, .letStatement _ e | _, .returnStatement e | _, .prefixed _ e | _, .function _ e =>
    disciplinedAs false e
  | _, .infixed l _ r => disciplinedAs false l && disciplinedAs false r
  | whole, .conditional c t e =>
    (whole || !(c.holdsReturn || t.holdsReturn || e.holdsReturn)) &&
      disciplinedAs false c && disciplinedAs false t && disciplinedAs false e
  | _, .call f as => disciplinedAs false f && disciplinedEach as
termination_by structural _ t => t

def disciplinedEach : List (Tree α) → Bool
  | [] => true
  | t :: ts => disciplinedAs false t && disciplinedEach ts
termination_by structural ts => ts

end

/-- Whether every conditional of a tree that holds a `return` is the whole expression of a
statement. -/
def isDisciplined (t : Tree α) : Bool :=
  t.disciplinedAs false

theorem holdsReturnAmong_iff {ts : List (Tree α)} :
    holdsReturnAmong ts = true ↔ ∃ t ∈ ts, t.holdsReturn = true := by
  induction ts with
  | nil => simp [holdsReturnAmong]
  | cons t ts ih => simp [holdsReturnAmong, ih]

theorem disciplinedEach_iff {ts : List (Tree α)} :
    disciplinedEach ts = true ↔ ∀ t ∈ ts, t.isDisciplined = true := by
  induction ts with
  | nil => simp [disciplinedEach]
  | cons t ts ih => simp [disciplinedEach, isDisciplined, ih]

mutual

/-- An expression that is not a statement of its own holds no `return`. -/
theorem holdsReturn_eq_false : (t : Tree α) → t.fitsRole .expression = true →
    t.isDisciplined = true → t.holdsReturn = false
  | .missing, _, _ | .identifier _, _, _ | .integer _, _, _ | .string _, _, _ | .boolean _, _, _
  | .function .., _, _ => rfl
  | .prefixed _ e, hf, hd => holdsReturn_eq_false e hf hd
  | .infixed l _ r, hf, hd => by
    simp only [fitsRole, meets, isDisciplined, disciplinedAs, Bool.and_eq_true] at hf hd
    simp only [holdsReturn, holdsReturn_eq_false l hf.1.2 hd.1, holdsReturn_eq_false r hf.2 hd.2,
      Bool.or_self]
  -- here the discipline is needed: a block may hold a `return`, and it is in an expression
  | .conditional c t e, _, hd => by
    simp only [isDisciplined, disciplinedAs, Bool.false_or, Bool.and_eq_true,
      Bool.not_eq_true'] at hd
    exact hd.1.1.1
  | .call f as, hf, hd => by
    simp only [fitsRole, meets, isDisciplined, disciplinedAs, Bool.and_eq_true] at hf hd
    simp only [holdsReturn, holdsReturn_eq_false f hf.1 hd.1,
      holdsReturnAmong_eq_false as hf.2 hd.2, Bool.or_self]

theorem holdsReturnAmong_eq_false : (ts : List (Tree α)) → meetsEach {} .expression ts = true →
    disciplinedEach ts = true → holdsReturnAmong ts = false
  | [], _, _ => rfl
  | t :: ts, hf, hd => by
    simp only [meetsEach, disciplinedEach, Bool.and_eq_true] at hf hd
    simp only [holdsReturnAmong, holdsReturn_eq_false t hf.1 hd.1,
      holdsReturnAmong_eq_false ts hf.2 hd.2, Bool.or_self]

end

end Tree

/-! ## The contract -/

/-- A value that is no `return` on its way out, nor a function that is not disciplined. -/
def Value.IsDisciplined : Value → Prop
  | .returned _ => False
  | .function _ b _ => b.fitsRole .block = true ∧ b.isDisciplined = true
  | _ => True

namespace Task

/-- A tree that is evaluated is part of a disciplined program. -/
def IsDisciplined : Task → Prop
  | .node t _ => ∃ role whole, t.fitsRole role = true ∧ t.disciplinedAs whole = true
  | _ => True

/-- Whether a task can end with a `return` on its way out. -/
def holdsReturn : Task → Bool
  | .node (.program _) _ => false
  | .node t _ => t.holdsReturn
  | _ => false

theorem tree_holdsReturn {t : Program} {scope : ScopeId}
    (h : (Task.node t scope).holdsReturn = true) : t.holdsReturn = true := by
  cases t with
  | program ss => cases h
  | _ => exact h

end Task

/-- The places whose values are put together, as opposed to those whose values are handed on. -/
def Place.isValue (place : Place) : Bool :=
  place ∈ [.letValue, .returnValue, .operand, .condition, .callee, .argument]

variable {settings : Settings} {place : Place} {a b : Activation}

/-- The parts of a disciplined tree are disciplined. Only the expression of a statement is the whole
of it. -/
theorem Begins.disciplinedAs {n : Nat} {t u : Program} {scope scope' : ScopeId} {m : Machine}
    {whole : Bool} (h : Begins settings place ⟨n, .node t scope, m⟩ b)
    (ht : t.disciplinedAs whole = true) (hu : b.task = .node u scope') :
    u.disciplinedAs (place = .expression) = true := by
  cases h with
  | application => cases hu
  | programStatement hs | blockStatement hs =>
    cases hu
    exact Tree.disciplinedEach_iff.1 ht _ hs.mem
  | argument _ _ ha =>
    cases hu
    exact Tree.disciplinedEach_iff.1 (Bool.and_eq_true_iff.1 ht).2 _ ha.mem
  | expression | letValue | returnValue | prefixOperand =>
    cases hu
    exact ht
  -- one of the parts of a node, which are all disciplined
  | leftOperand | rightOperand | condition | consequence | alternative | callee =>
    cases hu
    simp only [Tree.disciplinedAs, Bool.and_eq_true] at ht
    simp only [reduceCtorEq, decide_false, ht]

/-- What stands in the place of a value is an expression that is not a statement of its own. -/
theorem Begins.exists_expression (h : Begins settings place a b) (hp : place.isValue = true)
    (ha : a.task.IsDisciplined) : ∃ e scope, b.task = .node e scope ∧
      e.fitsRole .expression = true ∧ e.isDisciplined = true := by
  have hrole : place.role = .expression := by
    cases place <;> first | rfl | cases hp
  -- a value is put together from parts that are no whole statement
  have hne : place ≠ .application ∧ place ≠ .expression := by
    revert hp
    cases place <;> decide
  obtain ⟨n, task, m⟩ := a
  cases task with
  | node t scope =>
    obtain ⟨role, whole, hf, hd⟩ := ha
    obtain ⟨e, he, hf⟩ := h.meets hf hne.1
    have hd := h.disciplinedAs hd he
    rw [hrole] at hf
    rw [decide_eq_false hne.2] at hd
    exact ⟨e, scope, he, hf, hd⟩
  | call f vs => cases h <;> cases hp
  | builtin b vs => cases h

/-- The parts of a disciplined program are so, and the bodies of its functions. -/
theorem Begins.isDisciplined (h : Begins settings place a b) (ha : a.task.IsDisciplined)
    (hf : ∀ ps body scope vs, a.task = .call (.function ps body scope) vs →
      body.fitsRole .block = true ∧ body.isDisciplined = true) : b.task.IsDisciplined := by
  obtain ⟨n, task, m⟩ := a
  cases task with
  | node t scope =>
    -- a node begins parts of itself, or a call
    by_cases hp : place = .application
    · subst hp
      cases h
      trivial
    · obtain ⟨role, whole, hf, hd⟩ := ha
      obtain ⟨u, hu, hf⟩ := h.meets hf hp
      have hd := h.disciplinedAs hd hu
      rw [hu]
      exact ⟨_, _, hf, hd⟩
  | call f vs =>
    cases h with
    | body => exact ⟨.block, false, hf _ _ _ _ rfl⟩
    | builtin => trivial
  | builtin b vs => cases h

/-- A `return` that is handed on is one of the activation that it is handed on by. -/
theorem Begins.holdsReturn (h : Begins settings place a b) (hp : place.isValue = false)
    (hb : b.task.holdsReturn = true) (ha : a.endsReturn = false) : a.task.holdsReturn = true := by
  cases h with
  | blockStatement ht =>
    exact Tree.holdsReturnAmong_iff.2 ⟨_, ht.mem, Task.tree_holdsReturn hb⟩
  | @expression n e scope m => exact Task.tree_holdsReturn (t := e) hb
  | consequence | alternative =>
    have hr := Task.tree_holdsReturn hb
    simp only [Task.holdsReturn, Tree.holdsReturn, hr, Bool.or_true, Bool.true_or]
  | programStatement | body => cases ha
  | application | builtin => cases hb
  | _ => cases hp

/-- Nothing but a statement has a `return` on its way out as its value, and only disciplined
functions are made. -/
def disciplineContract : Contract where
  admits a := a.task.IsDisciplined
  gives a v := v.unwrapped.IsDisciplined ∧ (v.isReturned = true → a.task.holdsReturn = true)
  binds v := v.IsDisciplined

namespace disciplineContract

theorem isReturned_eq_false {v : Value} (h : v.IsDisciplined) : v.isReturned = false := by
  cases v with
  | returned w => exact h.elim
  | _ => rfl

/-- The value of an expression that is not a statement of its own is no `return`. -/
theorem isReturned_of_gives {v : Value} (h : Begins settings place a b)
    (hp : place.isValue = true) (ha : a.task.IsDisciplined) (hg : disciplineContract.gives b v) :
    v.isReturned = false := by
  obtain ⟨e, scope, he, hf, hd⟩ := h.exists_expression hp ha
  cases hv : v.isReturned with
  | false => rfl
  | true =>
    have hb := hg.2 hv
    rw [he] at hb
    exact (Task.tree_holdsReturn hb).symm.trans (Tree.holdsReturn_eq_false e hf hd)

theorem isDisciplined_of_gives {v : Value} (h : Begins settings place a b)
    (hp : place.isValue = true) (ha : a.task.IsDisciplined) (hg : disciplineContract.gives b v) :
    v.IsDisciplined := by
  have hv := isReturned_of_gives h hp ha hg
  rw [← Value.unwrapped_of_not_returned hv]
  exact hg.1

/-- A disciplined value is no `return`, so every task may have it. -/
theorem gives_of_isDisciplined {v : Value} (h : v.IsDisciplined) : disciplineContract.gives a v := by
  have hv := isReturned_eq_false h
  refine ⟨?_, fun hr => absurd (hv.symm.trans hr) Bool.false_ne_true⟩
  rw [Value.unwrapped_of_not_returned hv]
  exact h

theorem lawful (settings : Settings) : disciplineContract.Lawful settings where
  begins h hm := h.isDisciplined hm.admits fun ps body scope vs hc => hm.callee hc
  kept h hp ha _ _ hg := by
    -- whatever keeps a value begins an expression for it
    refine isDisciplined_of_gives h ?_ ha hg
    revert hp
    cases ‹Place› <;> decide
  passed {place a b v} h hp ha hg := by
    have hp : place.isValue = false := by
      revert hp
      cases place <;> decide
    rw [Activation.received]
    split
    · -- where a `return` ends, its value goes on
      exact gives_of_isDisciplined hg.1
    · next he => exact ⟨hg.1, fun hv => h.holdsReturn hp (hg.2 hv) (Bool.eq_false_iff.2 he)⟩
  returned h ha _ _ hg := by
    refine ⟨isDisciplined_of_gives h rfl ha hg, fun _ => ?_⟩
    cases h
    rfl
  bareReturn _ := ⟨trivial, fun _ => rfl⟩
  found _ hb := gives_of_isDisciplined hb
  integer _ := gives_of_isDisciplined trivial
  string {n s scope m} _ := by cases s <;> exact gives_of_isDisciplined trivial
  function ha := by
    obtain ⟨role, whole, hf, hd⟩ := ha
    refine gives_of_isDisciplined ?_
    cases role <;> simp_all [Tree.fitsRole, Tree.meets, Tree.disciplinedAs, Value.IsDisciplined,
      Tree.isDisciplined]
  length _ _ := gives_of_isDisciplined trivial
  error _ _ := gives_of_isDisciplined trivial
  null _ := gives_of_isDisciplined trivial
  boolean _ _ := gives_of_isDisciplined trivial
  word _ _ := gives_of_isDisciplined trivial
  text _ _ := gives_of_isDisciplined trivial
  datum _ _ := gives_of_isDisciplined trivial

/-- Disciplined programs that are run one after the other keep to the contract. -/
theorem allRuns {s : Session} {budget : Nat} {ps : List Program}
    (hs : s.store.Binds Value.IsDisciplined)
    (hps : ∀ p ∈ ps, p.fitsRole .program = true ∧ p.isDisciplined = true) :
    s.AllRuns budget (fun s p => disciplineContract.Met (s.opening s.globals p budget)) ps :=
  (lawful s.settings).allRuns hs (.of_forall fun p hp _ => ⟨.program, false, hps p hp⟩)

end disciplineContract

end MonkeyLang
