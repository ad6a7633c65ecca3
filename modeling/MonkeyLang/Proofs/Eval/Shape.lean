import MonkeyLang.Proofs.Eval.Activation
import MonkeyLang.Proofs.Syntax.Shape

/-!
# The parts of a tree that its evaluation comes to

An evaluation begins others of parts of its tree, and of nothing else but calls. What is asked of a
tree is asked of its parts: `Begins.meets`.
-/

namespace MonkeyLang

/-- What stands in a place. -/
def Place.role : Place → Role
  | .statement => .statement
  | .branch | .body => .block
  | _ => .expression

variable {settings : Settings} {place : Place} {n : Nat} {t : Program} {scope : ScopeId}
  {m : Machine} {b : Activation}

/-- What a node begins is a call, or a part that stands where it belongs. -/
theorem Begins.meets {d : Demands Json} {role : Role}
    (h : Begins settings place ⟨n, .node t scope, m⟩ b) (ht : t.meets d role = true)
    (hp : place ≠ .application) :
    ∃ u, b.task = .node u scope ∧ u.meets d place.role = true := by
  cases h with
  | application => exact absurd rfl hp
  -- a node that is none for the role is ruled out by its own demand
  | programStatement hs | blockStatement hs =>
    cases role <;> first | exact ⟨_, rfl, Tree.meetsEach_iff.1 ht _ hs.mem⟩ | cases ht
  | expression => cases role <;> first | exact ⟨_, rfl, ht⟩ | cases ht
  | returnValue hm =>
    cases role <;> simp only [Tree.meets, hm, Bool.false_or, Bool.false_eq_true] at ht
    exact ⟨_, rfl, ht⟩
  | letValue | prefixOperand | leftOperand | rightOperand | condition | consequence | callee =>
    refine ⟨_, rfl, ?_⟩
    cases role <;> simp only [Tree.meets, Bool.and_eq_true, Bool.false_eq_true] at ht
    simp only [Place.role, ht]
  -- the part that is begun is there, so its demand is not waived
  | alternative _ _ _ _ hm =>
    cases role <;> simp only [Tree.meets, hm, Bool.false_or, Bool.and_eq_true,
      Bool.false_eq_true] at ht
    exact ⟨_, rfl, ht.2⟩
  | argument _ _ ha =>
    cases role <;> simp only [Tree.meets, Bool.and_eq_true, Bool.false_eq_true] at ht
    exact ⟨_, rfl, Tree.meetsEach_iff.1 ht.2 _ ha.mem⟩

end MonkeyLang
