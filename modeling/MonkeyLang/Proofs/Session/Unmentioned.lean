import MonkeyLang.Proofs.Session.Failure
import MonkeyLang.Proofs.Session.Repeat

/-!
# Names that are not mentioned

A name matters to a run only if an identifier asks for it: one of the program, or one in the body of
a function that the program can get hold of. Which functions these are is told by `Store.Reaches`:
from the global scope outwards, and from a function that is bound to the scope that it was made in.

The run with a binding more and the run without it do the same things to their stores, which are
equal but for that binding (`Store.without`). The functions that are made on the way are parts of the
program or of functions that were there, so they do not ask for the name either. Main statement:
`Session.run_bindGlobal`.
-/

namespace MonkeyLang

namespace Tree

variable {α β : Type}

/-- An identifier of the tree is the name; it may be inside of a function. -/
def Mentions (t : Program) (x : Name) : Prop :=
  ∃ label ∈ t.readLabels, ∃ y, label.name = .ok y ∧ x.same y = true

mutual

theorem readLabels_mapLabels (f : α → β) :
    (t : Tree α) → (t.mapLabels f).readLabels = t.readLabels.map f
  | .missing | .integer _ | .string _ | .boolean _ | .identifier _ => rfl
  | .program ss | .block ss => by
    simp only [mapLabels, readLabels, readLabelsAmong_mapLabelsEach f ss]
  | .letStatement _ t | .returnStatement t | .expressionStatement t | .prefixed _ t
  | .function _ t => by simp only [mapLabels, readLabels, readLabels_mapLabels f t]
  | .infixed l _ r => by
    simp only [mapLabels, readLabels, readLabels_mapLabels f l, readLabels_mapLabels f r,
      List.map_append]
  | .conditional c t e => by
    simp only [mapLabels, readLabels, readLabels_mapLabels f c, readLabels_mapLabels f t,
      readLabels_mapLabels f e, List.map_append]
  | .call t as => by
    simp only [mapLabels, readLabels, readLabels_mapLabels f t,
      readLabelsAmong_mapLabelsEach f as, List.map_append]

theorem readLabelsAmong_mapLabelsEach (f : α → β) :
    (ts : List (Tree α)) → readLabelsAmong (mapLabelsEach f ts) = (readLabelsAmong ts).map f
  | [] => rfl
  | t :: ts => by
    simp only [mapLabelsEach, readLabelsAmong, readLabels_mapLabels f t,
      readLabelsAmong_mapLabelsEach f ts, List.map_append]

end

/-- Program text mentions a name if it has an identifier that is spelled like it. -/
theorem mentions_toProgram (t : Code) (x : String) :
    t.toProgram.Mentions (.text x) ↔ x ∈ t.readLabels := by
  simp [Mentions, toProgram, readLabels_mapLabels, Json.name]

end Tree

/-! ## Bindings and stores without a name -/

namespace Bindings

variable {b : Bindings} {x y : Name} {v : Value}

/-- The bindings of the other names. -/
def without (x : Name) (b : Bindings) : Bindings :=
  b.filter fun q => !x.same q.1

theorem same_congr {x y z : Name} (h : y.same z = true) : x.same y = x.same z := by
  simp only [Name.same, decide_eq_true_eq] at h ⊢
  rw [h]

/-- Other names are found as before. -/
theorem get?_without (h : x.same y = false) : (b.without x).get? y = b.get? y := by
  induction b with
  | nil => rfl
  | cons q b ih =>
    obtain ⟨z, w⟩ := q
    cases hz : x.same z with
    | true =>
      -- the entry is gone, but it was not the one that is asked for
      have hyz : y.same z = false := by
        refine Bool.eq_false_iff.2 fun hyz => ?_
        rw [same_congr hyz, hz] at h
        cases h
      simp only [without, List.filter_cons, hz, Bool.not_true, Bool.false_eq_true, if_false, get?,
        hyz]
      exact ih
    | false =>
      simp only [without, List.filter_cons, hz, Bool.not_false, if_true, get?]
      split
      · rfl
      · exact ih

/-- Binding a name is binding it among the other names, or nothing at all. -/
theorem without_set (x y : Name) (v : Value) (b : Bindings) :
    (set y v b).without x = if x.same y then b.without x else set y v (b.without x) := by
  induction b with
  | nil =>
    cases h : x.same y <;> simp [set, without, h]
  | cons q b ih =>
    obtain ⟨z, w⟩ := q
    simp only [without] at ih ⊢
    cases hzy : z.same y with
    | true =>
      have hz : x.same z = x.same y := same_congr hzy
      cases h : x.same y <;> simp [set, hzy, hz, h]
    | false =>
      cases hz : x.same z <;> cases h : x.same y <;> simp [set, hzy, hz, h, ih]

end Bindings

namespace Store

variable {s s' : Store} {g e : ScopeId} {x y : Name}

/-- A store is known by its scopes. -/
theorem ext_scope? (h : ∀ id, s.scope? id = s'.scope? id) : s = s' := by
  obtain ⟨a⟩ := s
  obtain ⟨a'⟩ := s'
  exact congrArg Store.mk (Array.ext_getElem? h)

/-- The store without the binding of `x` in the scope `g`. -/
def without (s : Store) (g : ScopeId) (x : Name) : Store :=
  s.modify g fun a => { a with bindings := a.bindings.without x }

theorem next_without (s : Store) (g : ScopeId) (x : Name) : (s.without g x).next = s.next :=
  next_modify s g _

/-- Stores that are equal but for the binding have as many scopes. -/
theorem next_eq_of_without (h : s.without g x = s'.without g x) : s.next = s'.next := by
  rw [← next_without s g x, h, next_without]

theorem scope?_without (s : Store) (g : ScopeId) (x : Name) (id : ScopeId) :
    (s.without g x).scope? id = if g = id then
        (s.scope? id).map fun a => { a with bindings := a.bindings.without x }
      else s.scope? id :=
  scope?_modify s id g _

/-- A scope without the binding has the parent that it has with it. -/
theorem parent?_of_scope?_without {id p : ScopeId} {a : Scope}
    (ha : (s.without g x).scope? id = some a) (hp : a.parent = some p) : s.parent? id = some p := by
  rw [scope?_without] at ha
  split at ha
  · obtain ⟨a', ha', rfl⟩ := Option.map_eq_some_iff.1 ha
    rw [parent?, ha']
    exact hp
  · rw [parent?, ha]
    exact hp

/-- What a scope binds without the binding, it binds with it. -/
theorem mem_bindings_of_scope?_without {id : ScopeId} {a : Scope} {q : Name × Value}
    (ha : (s.without g x).scope? id = some a) (hq : q ∈ a.bindings) : q ∈ s.bindings id := by
  rw [scope?_without] at ha
  split at ha
  · obtain ⟨a', ha', rfl⟩ := Option.map_eq_some_iff.1 ha
    rw [bindings, ha']
    exact (List.mem_filter.1 hq).1
  · rw [bindings, ha]
    exact hq

/-- A scope that is added is without the name only if it is the one the name is taken out of. -/
theorem without_add (s : Store) (g : ScopeId) (x : Name) (a : Scope) :
    (s.add a).without g x = (s.without g x).add
      (if g = s.next then { a with bindings := a.bindings.without x } else a) := by
  refine ext_scope? fun id => ?_
  rw [scope?_without, scope?_add, scope?_add, scope?_without, next_without]
  by_cases hid : id = s.next
  · subst hid
    by_cases hg : g = s.next <;> simp [hg]
  · simp [hid]

/-- Binding the name itself does not show. -/
theorem without_bind_same (s : Store) (g : ScopeId) (v : Value) (h : x.same y = true) :
    (s.bind g y v).without g x = s.without g x := by
  refine ext_scope? fun id => ?_
  rw [scope?_without, scope?_bind, scope?_without]
  split
  · simp [Bindings.without_set, h, Function.comp_def]
  · rfl

/-- Every other binding shows. -/
theorem without_bind_other (s : Store) (v : Value) (h : e = g → x.same y = false) :
    (s.bind e y v).without g x = (s.without g x).bind e y v := by
  refine ext_scope? fun id => ?_
  rw [scope?_without, scope?_bind, scope?_bind, scope?_without]
  by_cases he : e = id
  · by_cases hg : g = id
    · have hxy : x.same y = false := h (he.trans hg.symm)
      simp [he, hg, Bindings.without_set, hxy, Function.comp_def]
    · simp [he, hg]
  · simp [he]

/-- Other names are looked up as before. -/
theorem lookup_without (h : x.same y = false) (g e : ScopeId) :
    (s.without g x).lookup y e = s.lookup y e := by
  have hfuel (fuel : Nat) : (s.without g x).lookupWithin y fuel e = s.lookupWithin y fuel e := by
    induction fuel generalizing e with
    | zero => rfl
    | succ fuel ih =>
      rw [lookupWithin_succ, lookupWithin_succ, scope?_without]
      split
      · cases s.scope? e with
        | none => rfl
        | some a => simp [Bindings.get?_without h, funext ih]
      · simp [funext ih]
  show (s.without g x).lookupWithin y (s.without g x).next e = s.lookupWithin y s.next e
  rw [next_without, hfuel]

/-! ## Reachable scopes -/

/-- The scope on the right can be come to from the one on the left: outwards, and through functions
that are bound. -/
inductive Reaches (s : Store) (e : ScopeId) : ScopeId → Prop where
  | here : Reaches s e e
  | outwards {i p : ScopeId} : Reaches s e i → s.parent? i = some p → Reaches s e p
  | function {i j : ScopeId} {q : Name × Value} {ps : List Json} {b : Program} :
      Reaches s e i → q ∈ s.bindings i → q.2.core = .function ps b j → Reaches s e j

end Store

/-! ## Runs that do not ask for a name -/

/-- All names but `x` are looked up alike, and the scopes in `R` stand for themselves. -/
def Renaming.except (x : Name) (R : ScopeId → Prop) : Renaming where
  reads y := x.same y = false
  scopes e e' := e = e' ∧ R e

namespace Renaming

variable {x : Name} {R : ScopeId → Prop} {v w : Value}

/-- Related values are equal: the scopes of functions stand for themselves. -/
theorem except_values_eq (h : (Renaming.except x R).Values v w) : v = w := by
  induction h with
  | plain _ => rfl
  | returned _ ih => rw [ih]
  | function _ he => rw [he.1]

/-- A value stands for itself if a function in it does not ask for the name and was made in a scope
that stands for itself. -/
theorem except_values_self
    (h : ∀ ps b e, v.core = .function ps b e → (Renaming.except x R).Admits b ∧ R e) :
    (Renaming.except x R).Values v v := by
  induction v with
  | returned v ih => exact .returned (ih h)
  | function ps b e =>
    obtain ⟨hb, he⟩ := h ps b e rfl
    exact .function hb ⟨rfl, he⟩
  | _ => exact .plain trivial

/-- A tree that does not mention the name reads only names that are looked up alike. -/
theorem except_admits {t : Program} (h : ¬ t.Mentions x) : (Renaming.except x R).Admits t :=
  fun label hl y hy => Bool.eq_false_iff.2 fun hxy => h ⟨label, hl, y, hy, hxy⟩

end Renaming

/-- The scopes in `R` lead to scopes in `R` only, and bind no function that asks for `x`. All scopes
that are still to be made are in `R`. -/
structure Store.Contained (x : Name) (R : ScopeId → Prop) (s : Store) : Prop where
  fresh : ∀ id, s.next ≤ id → R id
  parent : ∀ id a p, R id → s.scope? id = some a → a.parent = some p → R p
  bound : ∀ id a, R id → s.scope? id = some a →
    a.bindings.All fun v => (Renaming.except x R).Values v v

namespace Store.Contained

variable {x y : Name} {R : ScopeId → Prop} {s : Store} {e : ScopeId} {v : Value}

/-- What is added may be one of the scopes in `R`, so its parent and its bindings have to be fit for
that. -/
theorem add {a : Scope} (h : s.Contained x R) (hp : ∀ p, a.parent = some p → R p)
    (hb : a.bindings.All fun v => (Renaming.except x R).Values v v) : (s.add a).Contained x R where
  fresh id hid := by
    rw [next_add] at hid
    exact h.fresh id (Nat.le_of_succ_le hid)
  parent id a' p hid ha hp' := by
    rw [scope?_add] at ha
    split at ha
    · cases ha
      exact hp p hp'
    · exact h.parent id a' p hid ha hp'
  bound id a' hid ha := by
    rw [scope?_add] at ha
    split at ha
    · cases ha
      exact hb
    · exact h.bound id a' hid ha

theorem bind (h : s.Contained x R) (hv : (Renaming.except x R).Values v v) :
    (s.bind e y v).Contained x R where
  fresh id hid := h.fresh id (by rwa [next_bind] at hid)
  parent id a p hid ha hp := by
    rw [scope?_bind] at ha
    split at ha
    · obtain ⟨a', ha', rfl⟩ := Option.map_eq_some_iff.1 ha
      exact h.parent id a' p hid ha' hp
    · exact h.parent id a p hid ha hp
  bound id a hid ha := by
    rw [scope?_bind] at ha
    split at ha
    · obtain ⟨a', ha', rfl⟩ := Option.map_eq_some_iff.1 ha
      exact (h.bound id a' hid ha').set hv
    · exact h.bound id a hid ha

/-- A look-up from a scope in `R` stays in `R`. -/
theorem lookupWithin {fuel : Nat} (h : s.Contained x R) (he : R e)
    (hl : s.lookupWithin y fuel e = some v) : (Renaming.except x R).Values v v := by
  induction fuel generalizing e with
  | zero => cases hl
  | succ fuel ih =>
    obtain ⟨a, ha, hg | ⟨-, p, hp, hl⟩⟩ := lookupWithin_succ_eq_some hl
    · exact (h.bound e a he ha).get? hg
    · exact ih (h.parent e a p he ha hp) hl

end Store.Contained

/-- Evaluations on stores that are equal but for the binding of `x` in the scope `g`. -/
def Correspondence.except (g : ScopeId) (x : Name) (R : ScopeId → Prop) : Correspondence where
  toRenaming := Renaming.except x R
  stores s s' := s.without g x = s'.without g x ∧ (s.without g x).Contained x R

namespace Correspondence

/-- Each operation on stores does the same on both, and keeps the scopes in `R` among themselves. -/
theorem except_lawful (g : ScopeId) (x : Name) (R : ScopeId → Prop) :
    (Correspondence.except g x R).Lawful where
  next {s s'} := by
    rintro ⟨heq, hc⟩
    refine ⟨Store.next_eq_of_without heq, hc.fresh _ ?_⟩
    rw [Store.next_without]
  add {s s' e e' vs ws} xs := by
    rintro ⟨heq, hc⟩ ⟨rfl, he⟩ hvs
    obtain rfl : vs = ws := by
      rw [← List.forall₂_eq_eq_eq]
      exact hvs.imp fun _ _ => Renaming.except_values_eq
    show _ = _ ∧ _
    rw [Store.without_add, Store.without_add, heq, Store.next_eq_of_without heq]
    refine ⟨rfl, ?_⟩
    have hvalues : (Eval.frame xs vs e).bindings.All fun v => (Renaming.except x R).Values v v :=
      Bindings.All.setAll nofun fun v hv => by
        exact List.forall₂_same.1 hvs v hv
    rw [← heq]
    refine hc.add (fun p hp => ?_) ?_
    · -- the frame is inside of the scope of the function, with or without the name in it
      have hparent : (Eval.frame xs vs e).parent = some p := by
        split at hp <;> exact hp
      cases hparent
      exact he
    · split
      · exact fun q hq => hvalues q (List.mem_filter.1 hq).1
      · exact hvalues
  bind {s s' e e' v w} y := by
    rintro ⟨heq, hc⟩ ⟨rfl, he⟩ hv
    obtain rfl := Renaming.except_values_eq hv
    show _ = _ ∧ Store.Contained _ _ _
    by_cases hxy : e = g ∧ x.same y = true
    · -- the program binds the name itself in the scope
      obtain ⟨rfl, hxy⟩ := hxy
      rw [Store.without_bind_same s e v hxy, Store.without_bind_same s' e v hxy]
      exact ⟨heq, hc⟩
    · have hother : e = g → x.same y = false := fun he =>
        Bool.eq_false_iff.2 fun hsame => hxy ⟨he, hsame⟩
      rw [Store.without_bind_other s v hother, Store.without_bind_other s' v hother, heq]
      exact ⟨rfl, heq ▸ hc.bind hv⟩
  lookup {s s' e e' y} := by
    rintro ⟨heq, hc⟩ ⟨rfl, he⟩ (hy : x.same y = false)
    rw [← Store.lookup_without hy g e, ← Store.lookup_without (s := s') hy g e, ← heq]
    cases hl : (s.without g x).lookup y e with
    | none => exact .none
    | some v => exact .some (hc.lookupWithin he hl)

/-- The note about a failure that comes out is made alike, too. -/
theorem Lawful.runs_evaluate {c : Correspondence} (hc : c.Lawful) (settings : Settings)
    (budget : Nat) {t : Program} {e e' : ScopeId} (ht : c.Admits t) (he : c.scopes e e') :
    c.Runs c.Values (Session.evaluate settings t e budget)
      (Session.evaluate settings t e' budget) := by
  refine (hc.runs_eval settings budget ht he).bind fun v w hv => ?_
  cases hv with
  | plain hp =>
    cases v with
    | error f => exact (Runs.note settings ⟨rfl, rfl, rfl⟩).bind fun _ _ _ => .done (.plain hp)
    | _ => exact .done (.plain hp)
  | returned hv => exact .done (.returned hv)
  | function hb he => exact .done (.function hb he)

end Correspondence

/-! ## Runs of a session -/

namespace Session

variable {s : Session} {x : Name} {v : Value} {p : Program} {budget : Nat}

/-- The session with one more global binding, or another value for a name that was bound. -/
def bindGlobal (s : Session) (x : Name) (v : Value) : Session :=
  { s with store := s.store.bind s.globals x v }

/-- What a session can get hold of does not ask for the name. -/
def Avoids (s : Session) (x : Name) : Prop :=
  ∀ i, s.store.Reaches s.globals i → ∀ q ∈ s.store.bindings i, ∀ ps b j,
    q.2.core = .function ps b j → ¬ b.Mentions x

/-- The scopes that the run can come to: those that are reached now, and those that it makes. -/
theorem Avoids.contained (h : s.Avoids x) :
    (s.store.without s.globals x).Contained x fun i =>
      s.store.Reaches s.globals i ∨ s.store.next ≤ i where
  fresh id hid := by
    rw [Store.next_without] at hid
    exact .inr hid
  parent id a p hid ha hp := by
    have hparent := Store.parent?_of_scope?_without ha hp
    obtain hid | hid := hid
    · exact .inl (hid.outwards hparent)
    · exact absurd (Store.lt_of_parent? hparent) (Nat.not_lt.2 hid)
  bound id a hid ha q hq := by
    have hmem := Store.mem_bindings_of_scope?_without ha hq
    obtain hid | hid := hid
    · refine Renaming.except_values_self fun ps b e hv => ?_
      exact ⟨Renaming.except_admits (h id hid q hmem ps b e hv), .inl (hid.function hmem hv)⟩
    · -- there is no such scope yet
      rw [Store.scope?_without, Store.scope?, Array.getElem?_eq_none hid] at ha
      split at ha <;> cases ha

theorem finish_congr {c : Correspondence} {o o' : Outcome Value} {s s' : Session}
    (h : c.Ends c.Values o o') (ht : s.tracing = s'.tracing)
    (hvalues : ∀ v w, c.Values v w → v = w) : (s.finish o).1 = (s'.finish o').1 := by
  have halike := finish_alike h ht
  have hresult : (s.finish o).1.result = (s'.finish o').1.result := by
    cases h with
    | done hv _ => exact congrArg Except.ok (hvalues _ _ hv)
    | halted _ => rfl
  generalize (s.finish o).1 = r, (s'.finish o').1 = r' at halike hresult
  cases r
  cases r'
  cases hresult
  cases halike.out
  cases halike.trace
  rfl

/-- A name that neither the program asks for nor any function that the session can get hold of can be
bound to anything in the global scope. The run has the same result, prints the same and adds the same
to the trace, or halts alike; and it leaves the same scopes with the same bindings, but for that one
name in the global scope. -/
theorem run_bindGlobal (s : Session) (p : Program) (x : Name) (v : Value) (budget : Nat)
    (hp : ¬ p.Mentions x) (hs : s.Avoids x) :
    ((s.bindGlobal x v).run p budget).1 = (s.run p budget).1 ∧
      ((s.bindGlobal x v).run p budget).2.store.without s.globals x =
        (s.run p budget).2.store.without s.globals x := by
  -- the scopes that the run can come to, in which nothing asks for `x`
  let R : ScopeId → Prop := fun i => s.store.Reaches s.globals i ∨ s.store.next ≤ i
  let c := Correspondence.except s.globals x R
  have hx : x.same x = true := by simp [Name.same]
  have hstores : (s.bindGlobal x v).store.without s.globals x = s.store.without s.globals x :=
    Store.without_bind_same s.store s.globals v hx
  have hm : c.Machines { store := s.store } { store := (s.bindGlobal x v).store } :=
    ⟨⟨hstores.symm, hs.contained⟩, rfl⟩
  have hends := (Correspondence.except_lawful s.globals x R).runs_evaluate s.settings budget
    (Renaming.except_admits hp) ⟨rfl, .inl .here⟩ _ _ hm
  constructor
  · exact (finish_congr hends rfl fun v w => Renaming.except_values_eq).symm
  · exact hends.machines.store.1.symm

/-- The program binds `x` itself, and so does a function that it calls, but nothing asks for it: the
global `x` could as well be a function that does. -/
theorem run_bindGlobal_closure :
    let sum : Code := .block
      [.expressionStatement (.infixed (.identifier "k") "+" (.identifier "n"))]
    let body : Code := .block
      [.letStatement "x" (.identifier "k"), .expressionStatement (.function [] sum)]
    let first : Code := .program [.letStatement "n" (.integer 1),
      .letStatement "f" (.function ["k"] body),
      .letStatement "g" (.call (.identifier "f") [.integer 2])]
    let next : Code := .program [.letStatement "x" (.call (.identifier "g") []),
      .expressionStatement (.infixed (.call (.identifier "g") []) "+" (.identifier "n"))]
    let x : Name := .text "x"
    let v : Value := .function [] (Tree.block [.expressionStatement (.identifier "x")]).toProgram 1
    let s := ((start { verbosity := 3 }).run first.toProgram 20).2
    ¬ next.toProgram.Mentions x ∧ s.Avoids x ∧ s.store.Reaches s.globals 2 ∧
      ((s.run next.toProgram 20).1.result = .ok (.integer 4)) ∧
      ((s.bindGlobal x v).run next.toProgram 20).1 = (s.run next.toProgram 20).1 := by
  intro sum body first next x v s
  have hnext : ¬ next.toProgram.Mentions x := (Tree.mentions_toProgram next "x").not.2 (by decide)
  have hbody : ¬ body.toProgram.Mentions x := (Tree.mentions_toProgram body "x").not.2 (by decide)
  have hsum : ¬ sum.toProgram.Mentions x := (Tree.mentions_toProgram sum "x").not.2 (by decide)
  have hglobals : s.store.bindings s.globals = [(.text "n", .integer 1),
      (.text "f", .function [.string "k"] body.toProgram 1),
      (.text "g", .function [] sum.toProgram 2)] := rfl
  have hframe : s.store.bindings 2 = [(.text "k", .integer 2), (.text "x", .integer 2)] := rfl
  -- three scopes are there: the one of the builtin functions, the globals and the frame of `f`
  have hs : s.Avoids x := by
    intro i _ q hq ps b j hv
    obtain _ | _ | _ | i := i
    · -- the builtin functions have no body
      obtain ⟨_, -, rfl⟩ := List.mem_map.1 hq
      cases hv
    · have hq : q ∈ s.store.bindings s.globals := hq
      rw [hglobals] at hq
      simp only [List.mem_cons, List.not_mem_nil, or_false] at hq
      obtain rfl | rfl | rfl := hq
      · cases hv
      · cases hv
        exact hbody
      · cases hv
        exact hsum
    · have hq : q ∈ s.store.bindings 2 := hq
      rw [hframe] at hq
      simp only [List.mem_cons, List.not_mem_nil, or_false] at hq
      obtain rfl | rfl := hq <;> cases hv
    · cases hq
  have hg : (.text "g", .function [] sum.toProgram 2) ∈ s.store.bindings s.globals := by
    rw [hglobals]
    simp
  have hreach : s.store.Reaches s.globals 2 := .function .here hg rfl
  have hresult : (s.run next.toProgram 20).1.result = .ok (.integer 4) := by
    dsimp only [s, next, first, body, sum]
    rfl
  exact ⟨hnext, hs, hreach, hresult, (run_bindGlobal s next.toProgram x v 20 hnext hs).1⟩

end Session

end MonkeyLang
