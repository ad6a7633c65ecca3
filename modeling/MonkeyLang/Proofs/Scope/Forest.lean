import Mathlib.Data.List.Perm.Subperm
import MonkeyLang.Proofs.Scope.Store

/-!
# Chains of scopes

A look-up and the search for the outermost scope go from scope to scope outwards, and the store gives
them as many steps as it has scopes. `Store.Chain` has the scopes that they come to. Main statements:
if the chain of a scope ends, then the search finds its end (`Chain.getLast?_eq`), and a look-up finds
the first binding along it (`Chain.lookup_eq`), so the steps are always enough.

`Store.Nests` says how the scopes of a store may change without a chain getting longer or turning back:
scopes are only added inside of older ones.
-/

namespace MonkeyLang

namespace Store

variable {s s₁ s₂ : Store} {id p : ScopeId} {ids : List ScopeId}

def parent? (s : Store) (id : ScopeId) : Option ScopeId :=
  (s.scope? id).bind Scope.parent

/-- A scope that is there has a number below the next one. -/
theorem lt_of_scope? {scope : Scope} (h : s.scope? id = some scope) : id < s.next := by
  obtain ⟨hlt, -⟩ := Array.getElem?_eq_some_iff.1 h
  exact hlt

theorem lt_of_parent? (h : s.parent? id = some p) : id < s.next := by
  obtain ⟨scope, hs, -⟩ := Option.bind_eq_some_iff.1 h
  exact lt_of_scope? hs

theorem parent?_of_le (h : s.next ≤ id) : s.parent? id = none := by
  rw [parent?, scope?, Array.getElem?_eq_none h]
  rfl

/-- A new scope has its parent, and the others keep theirs. -/
theorem parent?_add (scope : Scope) (id : ScopeId) :
    (s.add scope).parent? id = if id = s.next then scope.parent else s.parent? id := by
  rw [parent?, scope?_add]
  split <;> rfl

/-- Binding a name changes no parent. -/
theorem parent?_bind (i : ScopeId) (name : Name) (v : Value) (id : ScopeId) :
    (s.bind i name v).parent? id = s.parent? id := by
  rw [parent?, scope?_bind]
  split
  · rw [parent?]
    cases s.scope? id <;> rfl
  · rfl

/-! ## Chains -/

/-- The scopes from a scope outwards, up to one that no scope is around. -/
inductive Chain (s : Store) : ScopeId → List ScopeId → Prop where
  | outermost {id : ScopeId} : id < s.next → s.parent? id = none → Chain s id [id]
  | inside {id p : ScopeId} {ids : List ScopeId} : s.parent? id = some p → Chain s p ids →
      Chain s id (id :: ids)

namespace Chain

/-- There is one chain from a scope outwards. -/
theorem unique {ids' : List ScopeId} (h : s.Chain id ids) (h' : s.Chain id ids') : ids = ids' := by
  induction h generalizing ids' with
  | outermost _ hp =>
    cases h' with
    | outermost _ _ => rfl
    | inside hp' _ => cases hp.symm.trans hp'
  | inside hp _ ih =>
    cases h' with
    | outermost _ hp' => cases hp.symm.trans hp'
    | inside hp' h' =>
      cases hp.symm.trans hp'
      rw [ih h']

theorem lt_next (h : s.Chain id ids) : ∀ i ∈ ids, i < s.next := by
  induction h with
  | outermost hlt _ => exact List.forall_mem_singleton.2 hlt
  | inside hp _ ih => exact List.forall_mem_cons.2 ⟨lt_of_parent? hp, ih⟩

/-- A scope of a chain has the rest of it for its own chain. -/
theorem of_mem {i : ScopeId} (h : s.Chain id ids) (hi : i ∈ ids) :
    ∃ js, s.Chain i js ∧ js.length ≤ ids.length := by
  induction h with
  | outermost hlt hp =>
    obtain rfl := List.mem_singleton.1 hi
    exact ⟨_, .outermost hlt hp, Nat.le_refl _⟩
  | inside hp h ih =>
    obtain rfl | hi := List.mem_cons.1 hi
    · exact ⟨_, .inside hp h, Nat.le_refl _⟩
    · obtain ⟨js, hjs, hle⟩ := ih hi
      exact ⟨js, hjs, Nat.le_succ_of_le hle⟩

/-- A chain that ends does not come to a scope twice. -/
theorem nodup (h : s.Chain id ids) : ids.Nodup := by
  induction h with
  | outermost _ _ => exact List.pairwise_singleton _ _
  | @inside id p ids hp h ih =>
    refine List.nodup_cons.2 ⟨fun hmem => ?_, ih⟩
    -- the chain of `id` would be one of its own proper parts
    obtain ⟨js, hjs, hle⟩ := h.of_mem hmem
    rw [hjs.unique (.inside hp h)] at hle
    exact Nat.not_succ_le_self _ hle

/-- A chain has no more scopes than the store. -/
theorem length_le (h : s.Chain id ids) : ids.length ≤ s.next := by
  -- The numbers of the chain are different ones below that of the next scope.
  have hsub : ids ⊆ List.range s.next := fun i hi => List.mem_range.2 (h.lt_next i hi)
  have hle := (List.subperm_of_subset h.nodup hsub).length_le
  rwa [List.length_range] at hle

/-- The search ends at the end of the chain, if it has a step for each scope of it. -/
theorem getLast?_eq_rootWithin {fuel : Nat} (h : s.Chain id ids) (hf : ids.length ≤ fuel) :
    ids.getLast? = some (s.rootWithin fuel id) ∧ s.parent? (s.rootWithin fuel id) = none := by
  induction h generalizing fuel with
  | @outermost id _ hp =>
    cases fuel with
    | zero => cases hf
    | succ fuel =>
      have hr : s.rootWithin (fuel + 1) id = id := by
        rw [rootWithin, show (s.scope? id).bind Scope.parent = none from hp]
      rw [hr]
      exact ⟨rfl, hp⟩
  | @inside id p ids hp h ih =>
    cases fuel with
    | zero => cases hf
    | succ fuel =>
      -- the root of a scope is that of the one around it
      have hr : s.rootWithin (fuel + 1) id = s.rootWithin fuel p := by
        rw [rootWithin, show (s.scope? id).bind Scope.parent = some p from hp]
      obtain ⟨hlast, hroot⟩ := ih (Nat.le_of_succ_le_succ hf)
      rw [hr]
      refine ⟨?_, hroot⟩
      rw [List.getLast?_cons, hlast, Option.getD_some]

/-- The search for the outermost scope ends at the end of the chain. -/
theorem getLast?_eq (h : s.Chain id ids) : ids.getLast? = some (s.root id) :=
  (h.getLast?_eq_rootWithin h.length_le).1

theorem parent?_root (h : s.Chain id ids) : s.parent? (s.root id) = none :=
  (h.getLast?_eq_rootWithin h.length_le).2

/-- A look-up finds the first binding along the chain, if it has a step for each scope of it. -/
theorem lookupWithin_eq {fuel : Nat} (h : s.Chain id ids) (hf : ids.length ≤ fuel) (name : Name) :
    s.lookupWithin name fuel id = ids.findSome? fun i => (s.bindings i).get? name := by
  induction h generalizing fuel with
  | @outermost id hlt hp =>
    obtain ⟨scope, hs⟩ := exists_scope hlt
    cases fuel with
    | zero => cases hf
    | succ fuel =>
      have hparent : scope.parent = none := by rwa [parent?, hs] at hp
      simp only [lookupWithin, bindings, hs, hparent, Option.map_some, Option.getD_some,
        List.findSome?_cons, List.findSome?_nil]
      -- A binding in this scope hides those further out.
      cases scope.bindings.get? name <;> rfl
  | @inside id p ids hp h ih =>
    obtain ⟨scope, hs⟩ := exists_scope (lt_of_parent? hp)
    cases fuel with
    | zero => cases hf
    | succ fuel =>
      have hparent : scope.parent = some p := by rwa [parent?, hs] at hp
      have hfind := ih (Nat.le_of_succ_le_succ hf)
      simp only [lookupWithin, hs, hparent, List.findSome?_cons, hfind]
      rw [bindings, hs, Option.map_some, Option.getD_some]
      cases scope.bindings.get? name <;> rfl

/-- A look-up finds the first binding along the chain, wherever that is. -/
theorem lookup_eq (h : s.Chain id ids) (name : Name) :
    s.lookup name id = ids.findSome? fun i => (s.bindings i).get? name :=
  h.lookupWithin_eq h.length_le name

end Chain

end Store

/-! ## Scopes that are added inside of older ones -/

/-- The scopes that a value refers to are below `n`. -/
def Value.Within (n : Nat) : Value → Prop
  | .returned v => v.Within n
  | .function _ _ scope => scope < n
  | _ => True

instance Value.decidableWithin (n : Nat) : (v : Value) → Decidable (v.Within n)
  | .returned v => decidableWithin n v
  | .function _ _ scope => inferInstanceAs (Decidable (scope < n))
  | .integer _ | .string _ | .datum _ | .boolean _ | .null | .builtin _ | .error _ =>
    inferInstanceAs (Decidable True)

/-- A value that refers to scopes below a number refers to scopes below a greater one. -/
theorem Value.Within.mono {n k : Nat} {v : Value} (h : v.Within n) (hn : n ≤ k) : v.Within k := by
  induction v with
  | returned v ih => exact ih h
  | function ps b scope => exact Nat.lt_of_lt_of_le h hn
  | _ => trivial

theorem Value.Within.unwrapped {n : Nat} {v : Value} (h : v.Within n) : v.unwrapped.Within n := by
  cases v <;> exact h

namespace Store

variable {s s₁ s₂ : Store} {id : ScopeId}

/-- What is bound refers to scopes that are there. -/
def Closed (s : Store) : Prop :=
  s.Binds (Value.Within s.next)

/-- The store on the right has the scopes of the one on the left inside of the same ones, and maybe
more, each of them inside of an older one. -/
structure Nests (s s' : Store) : Prop where
  next_le : s.next ≤ s'.next
  parent?_eq : ∀ id < s.next, s'.parent? id = s.parent? id
  parent?_lt : ∀ id p, s.next ≤ id → s'.parent? id = some p → p < id
  closed : s'.Closed

namespace Nests

theorem refl (h : s.Closed) : s.Nests s where
  next_le := Nat.le_refl _
  parent?_eq _ _ := rfl
  parent?_lt _ _ hid hp := absurd (lt_of_parent? hp) (Nat.not_lt.2 hid)
  closed := h

/-- Scopes that are added in two parts are inside of older ones all the same. -/
theorem trans (h₁ : s.Nests s₁) (h₂ : s₁.Nests s₂) : s.Nests s₂ where
  next_le := Nat.le_trans h₁.next_le h₂.next_le
  parent?_eq id hid :=
    (h₂.parent?_eq id (Nat.lt_of_lt_of_le hid h₁.next_le)).trans (h₁.parent?_eq id hid)
  parent?_lt id p hid hp := by
    -- A scope of the last store is from the first addition or from the second.
    by_cases hlt : id < s₁.next
    · rw [h₂.parent?_eq id hlt] at hp
      exact h₁.parent?_lt id p hid hp
    · exact h₂.parent?_lt id p (Nat.not_lt.1 hlt) hp
  closed := h₂.closed

/-- Binding a name to a value whose scopes are there. -/
theorem bind {name : Name} {v : Value} (h : s.Closed) (hv : v.Within s.next) :
    s.Nests (s.bind id name v) where
  next_le := Nat.le_of_eq (s.next_bind id name v).symm
  parent?_eq i _ := parent?_bind id name v i
  parent?_lt i p hi hp := by
    rw [parent?_bind] at hp
    exact (refl h).parent?_lt i p hi hp
  closed := by
    rw [Closed, next_bind]
    exact Binds.bind h hv

/-- Adding a scope inside of one that is there. -/
theorem add {scope : Scope} (h : s.Closed) (hp : ∀ p, scope.parent = some p → p < s.next)
    (hb : scope.bindings.All (Value.Within s.next)) : s.Nests (s.add scope) where
  next_le := Nat.le_of_lt (by rw [next_add]; exact Nat.lt_succ_self _)
  parent?_eq i hi := by rw [parent?_add, if_neg (Nat.ne_of_lt hi)]
  parent?_lt i p hi hp' := by
    rw [parent?_add] at hp'
    split at hp'
    · next he => exact he ▸ hp p hp'
    · exact (refl h).parent?_lt i p hi hp'
  closed := by
    rw [Closed, next_add]
    exact (Binds.add h hb).mono fun v hv => hv.mono (Nat.le_succ _)

end Nests

end Store

end MonkeyLang
