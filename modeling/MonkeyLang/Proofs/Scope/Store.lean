import MonkeyLang.Scope.Store

/-!
# Stores by their scopes

What making a scope and binding a name do to the scopes of a store, and what holds of all values
that a store binds. Main statement: `Store.Binds.lookup` says that what is found was bound.
-/

namespace MonkeyLang

namespace Store

variable (s : Store) (id i : ScopeId)

@[simp]
theorem scope?_add (scope : Scope) :
    (s.add scope).scope? id = if id = s.next then some scope else s.scope? id :=
  Array.getElem?_push

@[simp]
theorem scope?_modify (f : Scope → Scope) :
    (s.modify i f).scope? id = if i = id then (s.scope? id).map f else s.scope? id :=
  Array.getElem?_modify

@[simp]
theorem next_add (scope : Scope) : (s.add scope).next = s.next + 1 :=
  Array.size_push scope

theorem next_lt_add (scope : Scope) : s.next < (s.add scope).next := by
  rw [next_add]
  exact Nat.lt_succ_self _

@[simp]
theorem next_modify (f : Scope → Scope) : (s.modify i f).next = s.next :=
  Array.size_modify

@[simp]
theorem next_bind (name : Name) (v : Value) : (s.bind i name v).next = s.next :=
  next_modify s i _

/-- Binding a name changes the bindings of its scope and nothing else. -/
theorem scope?_bind (name : Name) (v : Value) :
    (s.bind i name v).scope? id = if i = id then
        (s.scope? id).map fun scope => { scope with bindings := scope.bindings.set name v }
      else s.scope? id :=
  scope?_modify s id i _

variable {s id}

theorem exists_scope (h : id < s.next) : ∃ scope, s.scope? id = some scope :=
  ⟨_, Array.getElem?_eq_getElem h⟩

end Store

/-! ## What is bound -/

namespace Bindings

/-- Every bound value satisfies `P`. -/
def All (P : Value → Prop) (b : Bindings) : Prop :=
  ∀ p ∈ b, P p.2

variable {P : Value → Prop} {b : Bindings} {name : Name} {v : Value}

/-- Binding a name to such a value, whether it was bound before or not. -/
theorem All.set (h : b.All P) (hv : P v) : All P (Bindings.set name v b) := by
  induction b with
  | nil => exact List.forall_mem_singleton.2 hv
  | cons p b ih =>
    obtain ⟨hp, hb⟩ := List.forall_mem_cons.1 h
    rw [Bindings.set]
    split
    · exact List.forall_mem_cons.2 ⟨hv, hb⟩
    · exact List.forall_mem_cons.2 ⟨hp, ih hb⟩

/-- Binding several names; where there are fewer values than names the others stay unbound. -/
theorem All.setAll {names : List Name} {vs : List Value} (h : b.All P) (hv : ∀ v ∈ vs, P v) :
    All P (Bindings.setAll names vs b) := by
  unfold Bindings.setAll
  induction names generalizing vs b with
  | nil => exact h
  | cons x names ih =>
    cases vs with
    | nil => exact h
    | cons v vs =>
      obtain ⟨hv, hvs⟩ := List.forall_mem_cons.1 hv
      exact ih (h.set hv) hvs

/-- What is found in some bindings is bound in them. -/
theorem All.get? (h : b.All P) (hg : b.get? name = some v) : P v := by
  induction b with
  | nil => cases hg
  | cons p b ih =>
    obtain ⟨hp, hb⟩ := List.forall_mem_cons.1 h
    rw [Bindings.get?] at hg
    split at hg
    · cases hg
      exact hp
    · exact ih hb hg

end Bindings

namespace Store

/-- Every value that a scope binds satisfies `P`. -/
def Binds (P : Value → Prop) (s : Store) : Prop :=
  ∀ id scope, s.scope? id = some scope → scope.bindings.All P

namespace Binds

variable {P : Value → Prop} {s : Store} {id : ScopeId} {name : Name} {v : Value}

theorem empty : Binds P {} := by
  intro id scope h
  cases h

/-- A new scope with such bindings. -/
theorem add {scope : Scope} (h : s.Binds P) (hb : scope.bindings.All P) :
    (s.add scope).Binds P := by
  intro id scope' hs
  rw [scope?_add] at hs
  split at hs
  · cases hs
    exact hb
  · exact h id scope' hs

/-- Binding a name to such a value in any scope. -/
theorem bind (h : s.Binds P) (hv : P v) : (s.bind id name v).Binds P := by
  intro i scope hs
  rw [scope?_bind] at hs
  split at hs
  · obtain ⟨scope', hs', rfl⟩ := Option.map_eq_some_iff.1 hs
    exact (h i scope' hs').set hv
  · exact h i scope hs

/-- What is found on the way outwards is bound in one of the scopes. -/
theorem lookupWithin {fuel : Nat} (h : s.Binds P) (hl : s.lookupWithin name fuel id = some v) :
    P v := by
  induction fuel generalizing id with
  | zero => cases hl
  | succ fuel ih =>
    rw [Store.lookupWithin] at hl
    cases hs : s.scope? id with
    | none => simp only [hs, reduceCtorEq] at hl
    | some scope =>
      simp only [hs] at hl
      cases hg : scope.bindings.get? name with
      | some w =>
        simp only [hg, Option.some.injEq] at hl
        exact hl ▸ (h id scope hs).get? hg
      -- the name is not bound here, so the scope around decides
      | none =>
        simp only [hg] at hl
        cases hp : scope.parent with
        | none => simp only [hp, reduceCtorEq] at hl
        | some parent =>
          simp only [hp] at hl
          exact ih hl

theorem lookup (h : s.Binds P) (hl : s.lookup name id = some v) : P v :=
  h.lookupWithin hl

theorem mono {P' : Value → Prop} (h : s.Binds P) (hp : ∀ v, P v → P' v) : s.Binds P' :=
  fun id scope hs p hm => hp _ (h id scope hs p hm)

end Binds

end Store

end MonkeyLang
