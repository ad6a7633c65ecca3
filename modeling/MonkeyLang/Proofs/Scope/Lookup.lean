import Mathlib.Data.Fintype.Card
import MonkeyLang.Proofs.Scope.Forest

/-!
# Look-ups take enough steps

A look-up goes outwards through as many scopes as the store has. Whatever is found within any number
of steps is found within these: a shortest way to a binding does not come to a scope twice. Nothing
is asked of the store, which may have scopes that are around themselves. Main statement: `lookup_eq`
says what a look-up does in one scope, and has no count of steps any more.
-/

namespace MonkeyLang.Store

variable {s : Store} {name : Name} {id : ScopeId} {v : Value} {fuel fuel' : Nat}

theorem lookupWithin_succ (s : Store) (name : Name) (fuel : Nat) (id : ScopeId) :
    s.lookupWithin name (fuel + 1) id = (s.scope? id).bind fun scope =>
      (scope.bindings.get? name).or (scope.parent.bind (s.lookupWithin name fuel)) := by
  rw [lookupWithin]
  cases s.scope? id with
  | none => rfl
  | some scope =>
    simp only [Option.bind_some]
    cases scope.bindings.get? name with
    | some v => rfl
    | none => cases scope.parent <;> rfl

/-- One scope of a way to a binding: the binding itself, or the scope around it. -/
theorem lookupWithin_succ_eq_some (h : s.lookupWithin name (fuel + 1) id = some v) :
    ∃ scope, s.scope? id = some scope ∧
      (scope.bindings.get? name = some v ∨ scope.bindings.get? name = none ∧
        ∃ p, scope.parent = some p ∧ s.lookupWithin name fuel p = some v) := by
  rw [lookupWithin_succ] at h
  obtain ⟨scope, hs, h⟩ := Option.bind_eq_some_iff.1 h
  obtain h | ⟨hg, h⟩ := Option.or_eq_some_iff.1 h
  · exact ⟨scope, hs, .inl h⟩
  · exact ⟨scope, hs, .inr ⟨hg, Option.bind_eq_some_iff.1 h⟩⟩

theorem lookupWithin_mono (h : s.lookupWithin name fuel id = some v) (hf : fuel ≤ fuel') :
    s.lookupWithin name fuel' id = some v := by
  induction fuel generalizing id fuel' with
  | zero => cases h
  | succ fuel ih =>
    obtain _ | fuel' := fuel'
    · cases hf
    · obtain ⟨scope, hs, hg | ⟨hg, p, hp, h⟩⟩ := lookupWithin_succ_eq_some h
      · rw [lookupWithin_succ, hs, Option.bind_some, hg, Option.some_or]
      · rw [lookupWithin_succ, hs, Option.bind_some, hg, Option.none_or, hp, Option.bind_some]
        exact ih h (Nat.le_of_succ_le_succ hf)

/-- A binding that takes all the steps has scopes before it that take each smaller number. -/
theorem exists_of_lookupWithin (h : s.lookupWithin name (fuel + 1) id = some v)
    (hn : s.lookupWithin name fuel id = none) {k : Nat} (hk : k ≤ fuel) :
    ∃ i < s.next, s.lookupWithin name (k + 1) i = some v ∧ s.lookupWithin name k i = none := by
  induction fuel generalizing id with
  | zero =>
    obtain rfl := Nat.le_zero.1 hk
    obtain ⟨scope, hs, -⟩ := lookupWithin_succ_eq_some h
    exact ⟨id, lt_of_scope? hs, h, hn⟩
  | succ fuel ih =>
    obtain ⟨scope, hs, hbound⟩ := lookupWithin_succ_eq_some h
    obtain rfl | hk := Nat.eq_or_lt_of_le hk
    · exact ⟨id, lt_of_scope? hs, h, hn⟩
    -- the scope itself does not bind the name, or one step would have been enough
    rw [lookupWithin_succ, hs, Option.bind_some] at hn
    obtain ⟨hnot, hn⟩ := Option.or_eq_none_iff.1 hn
    obtain hg | ⟨-, p, hp, h⟩ := hbound
    · cases hnot.symm.trans hg
    · rw [hp, Option.bind_some] at hn
      exact ih h hn (Nat.le_of_lt_succ hk)

/-- So there are as many scopes as a binding takes steps: no two numbers belong to one scope. -/
theorem lt_next_of_lookupWithin (h : s.lookupWithin name (fuel + 1) id = some v)
    (hn : s.lookupWithin name fuel id = none) : fuel < s.next := by
  have hscopes : ∀ k : Fin (fuel + 1), ∃ i : Fin s.next,
      s.lookupWithin name (k + 1) i = some v ∧ s.lookupWithin name k i = none := fun k =>
    have ⟨i, hi, hk⟩ := exists_of_lookupWithin h hn (Nat.le_of_lt_succ k.isLt)
    ⟨⟨i, hi⟩, hk⟩
  choose scopeAt hfinds hmisses using hscopes
  -- what is found within `j + 1` steps is not missed within more of them
  have hle (j k : Fin (fuel + 1)) (hjk : scopeAt j = scopeAt k) : k ≤ j := by
    refine Nat.le_of_not_lt fun hlt => ?_
    have hfound := lookupWithin_mono (hfinds j) hlt
    rw [hjk, hmisses k] at hfound
    cases hfound
  have hinj : Function.Injective scopeAt :=
    fun j k hjk => Fin.le_antisymm (hle k j hjk.symm) (hle j k hjk)
  have hcard := Fintype.card_le_of_injective scopeAt hinj
  rwa [Fintype.card_fin, Fintype.card_fin] at hcard

/-- More steps than there are scopes find nothing more. -/
theorem lookupWithin_eq_lookup (name : Name) (id : ScopeId) (h : s.next ≤ fuel) :
    s.lookupWithin name fuel id = s.lookup name id := by
  induction fuel, h using Nat.le_induction with
  | base => rfl
  | succ fuel hf ih =>
    rw [← ih]
    cases hl : s.lookupWithin name fuel id with
    | some v => exact lookupWithin_mono hl (Nat.le_succ _)
    | none =>
      refine Option.eq_none_iff_forall_ne_some.2 fun v hv => ?_
      exact Nat.not_lt.2 hf (lt_next_of_lookupWithin hv hl)

/-- What a name has in a scope is what the scope binds it to, or else what it has in the scope
around it. -/
theorem lookup_eq (s : Store) (name : Name) (id : ScopeId) :
    s.lookup name id = (s.scope? id).bind fun scope =>
      (scope.bindings.get? name).or (scope.parent.bind (s.lookup name)) := by
  have hl : s.lookupWithin name s.next = s.lookup name := rfl
  rw [← lookupWithin_eq_lookup name id (Nat.le_succ s.next), lookupWithin_succ, hl]

/-- A name has the value that it was bound to last, in the scope that it was bound in. -/
theorem lookup_bind (name : Name) (v : Value) (h : id < s.next) :
    (s.bind id name v).lookup name id = some v := by
  obtain ⟨scope, hs⟩ := exists_scope h
  have hsame : name.same name = true := decide_eq_true rfl
  rw [lookup_eq, scope?_bind, if_pos rfl, hs, Option.map_some, Option.bind_some,
    Bindings.get?_set, if_pos hsame, Option.some_or]

end MonkeyLang.Store
