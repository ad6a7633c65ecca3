import MonkeyLang.Proofs.Eval.Correspondence
import MonkeyLang.Proofs.Eval.Logging
import MonkeyLang.Proofs.Scope.Lookup
import MonkeyLang.Proofs.Session.Runs

/-!
# Calls can be repeated

A call changes no scope that was there, but leaves the scopes that it made behind. So the same call
finds the same bindings when it is made again, and only its own scopes get other numbers: those
after the ones that the first call left (`Store.Shifted`). Main statement: `call_again` says that
the two calls show the same.
-/

namespace MonkeyLang

/-! ## Scopes that stand for each other -/

namespace Renaming

variable {r : Renaming} {b b' : Bindings} {v w : Value}

/-- Bindings of the same names to values that stand for each other, in the same order. -/
def Bound (r : Renaming) : Bindings → Bindings → Prop :=
  List.Forall₂ fun p q => p.1 = q.1 ∧ r.Values p.2 q.2

/-- The same name has values that stand for each other, or none on either side. -/
theorem Bound.get? (h : r.Bound b b') (name : Name) :
    Option.Rel r.Values (b.get? name) (b'.get? name) := by
  induction h with
  | nil => exact .none
  | @cons p q _ _ hpq _ ih =>
    obtain ⟨x, v⟩ := p
    obtain ⟨y, w⟩ := q
    obtain ⟨rfl, hv⟩ : x = y ∧ r.Values v w := hpq
    rw [Bindings.get?, Bindings.get?]
    split
    · exact .some hv
    · exact ih

/-- Binding one name more to such values keeps the bindings so. -/
theorem Bound.set (h : r.Bound b b') (name : Name) (hv : r.Values v w) :
    r.Bound (b.set name v) (b'.set name w) := by
  induction h with
  | nil => exact .cons ⟨rfl, hv⟩ .nil
  | @cons p q _ _ hpq hb ih =>
    obtain ⟨x, u⟩ := p
    obtain ⟨y, u'⟩ := q
    obtain ⟨rfl, hu⟩ : x = y ∧ r.Values u u' := hpq
    rw [Bindings.set, Bindings.set]
    split
    · exact .cons ⟨rfl, hv⟩ hb
    · exact .cons ⟨rfl, hu⟩ ih

/-- So does binding several names. -/
theorem Bound.setAll {vs ws : List Value} (h : r.Bound b b') (names : List Name)
    (hvs : List.Forall₂ r.Values vs ws) :
    r.Bound (Bindings.setAll names vs b) (Bindings.setAll names ws b') := by
  unfold Bindings.setAll
  induction hvs generalizing names b b' with
  | nil =>
    rw [List.zip_nil_right]
    exact h
  | cons hv _ ih =>
    cases names with
    | nil => exact h
    | cons x names => exact ih (h.set x hv) names

/-- Scopes that stand for each other, and the ones around them too. -/
structure Alike (r : Renaming) (a a' : Scope) : Prop where
  parent : Option.Rel r.scopes a.parent a'.parent
  bindings : r.Bound a.bindings a'.bindings

end Renaming

/-! ## Stores with other scopes in between -/

/-- The number of a scope after `d` scopes were put in front of the scope `k`. -/
def shifted (k d id : Nat) : Nat :=
  if id < k then id else id + d

theorem shifted_of_lt {k d id : Nat} (h : id < k) : shifted k d id = id :=
  if_pos h

theorem shifted_of_le {k d id : Nat} (h : k ≤ id) : shifted k d id = id + d :=
  if_neg (Nat.not_lt.2 h)

theorem shifted_inj {k d i j : Nat} : shifted k d i = shifted k d j ↔ i = j := by
  unfold shifted
  split <;> split <;> omega

/-- Every scope keeps its number, or has the one that it is shifted to. All names are looked up. -/
def Renaming.shift (k d : Nat) : Renaming where
  reads _ := True
  scopes e e' := e' = shifted k d e

/-- A value that refers to no shifted scope stands for itself. -/
theorem Renaming.shift_self {k d : Nat} {v : Value} (h : v.Within k) :
    (Renaming.shift k d).Values v v := by
  induction v with
  | returned v ih => exact .returned (ih h)
  | function ps b e => exact .function (fun _ _ _ _ => trivial) (shifted_of_lt h).symm
  | _ => exact .plain trivial

namespace Store

variable {s s' : Store} {k d : Nat} {e : ScopeId} {v w : Value}

/-- The store on the right is the one on the left with `d` scopes put in front of the scope `k`. -/
structure Shifted (k d : Nat) (s s' : Store) : Prop where
  le_next : k ≤ s.next
  next_eq : s'.next = s.next + d
  scope?_rel : ∀ id, Option.Rel (Renaming.shift k d).Alike (s.scope? id)
    (s'.scope? (shifted k d id))

namespace Shifted

/-- The next scope on the left is shifted to the next one on the right. -/
theorem shifted_next (h : s.Shifted k d s') : shifted k d s.next = s'.next := by
  rw [shifted_of_le h.le_next, h.next_eq]

/-- A scope that is added on both sides is shifted like the others. -/
theorem add {a a' : Scope} (h : s.Shifted k d s') (ha : (Renaming.shift k d).Alike a a') :
    (s.add a).Shifted k d (s'.add a') where
  le_next := by
    rw [next_add]
    exact Nat.le_succ_of_le h.le_next
  next_eq := by
    rw [next_add, next_add, h.next_eq, Nat.add_right_comm]
  scope?_rel id := by
    rw [scope?_add, scope?_add, ← h.shifted_next]
    by_cases hid : id = s.next
    · rw [if_pos hid, if_pos (shifted_inj.2 hid)]
      exact .some ha
    · rw [if_neg hid, if_neg (mt shifted_inj.1 hid)]
      exact h.scope?_rel id

/-- Binding a name in a scope and in the one it is shifted to. -/
theorem bind (h : s.Shifted k d s') (name : Name) (hv : (Renaming.shift k d).Values v w) :
    (s.bind e name v).Shifted k d (s'.bind (shifted k d e) name w) where
  le_next := by
    rw [next_bind]
    exact h.le_next
  next_eq := by
    rw [next_bind, next_bind, h.next_eq]
  scope?_rel id := by
    have hid := h.scope?_rel id
    rw [scope?_bind, scope?_bind]
    -- The scope that is bound in has its counterpart bound in, and all others are as they were.
    by_cases he : e = id
    · rw [if_pos he, if_pos (shifted_inj.2 he)]
      generalize s.scope? id = o, s'.scope? (shifted k d id) = o' at hid
      cases hid with
      | none => exact .none
      | some ha => exact .some ⟨ha.parent, ha.bindings.set name hv⟩
    · rw [if_neg he, if_neg (mt shifted_inj.1 he)]
      exact hid

/-- Steps outwards lead through scopes that stand for each other. -/
theorem lookupWithin (h : s.Shifted k d s') (name : Name) (fuel : Nat) (e : ScopeId) :
    Option.Rel (Renaming.shift k d).Values (s.lookupWithin name fuel e)
      (s'.lookupWithin name fuel (shifted k d e)) := by
  induction fuel generalizing e with
  | zero => exact .none
  | succ fuel ih =>
    have he := h.scope?_rel e
    -- scopes that stand for each other bind the same names and have such scopes around them
    rw [lookupWithin_succ, lookupWithin_succ]
    generalize s.scope? e = o, s'.scope? (shifted k d e) = o' at he
    cases he with
    | none => exact .none
    | @some a a' ha =>
      have hbound := ha.bindings.get? name
      rw [Option.bind_some, Option.bind_some]
      generalize a.bindings.get? name = o, a'.bindings.get? name = o' at hbound
      cases hbound with
      | some hv => exact .some hv
      | none =>
        have hparent := ha.parent
        rw [Option.none_or, Option.none_or]
        generalize a.parent = o, a'.parent = o' at hparent
        cases hparent with
        | none => exact .none
        | some hp =>
          obtain rfl := hp
          exact ih _

/-- The store on the right has more scopes, but a look-up in the one on the left is given enough
steps anyway. -/
theorem lookup (h : s.Shifted k d s') (name : Name) (e : ScopeId) :
    Option.Rel (Renaming.shift k d).Values (s.lookup name e) (s'.lookup name (shifted k d e)) := by
  have hle : s.next ≤ s'.next := by
    rw [h.next_eq]
    exact Nat.le_add_right _ _
  rw [← lookupWithin_eq_lookup name e hle]
  exact h.lookupWithin name s'.next e

end Shifted

/-- Every scope that is referred to is there: those around other scopes, and those of functions. -/
structure Whole (s : Store) : Prop where
  closed : s.Closed
  parent?_lt : ∀ id p, s.parent? id = some p → p < s.next

namespace Whole

theorem empty : Whole {} where
  closed := .empty
  parent?_lt _ _ h := by cases h

/-- A store stays whole where scopes are only added inside of older ones. -/
theorem of_nests (h : s.Whole) (hn : s.Nests s') : s'.Whole where
  closed := hn.closed
  parent?_lt id p hp := by
    by_cases hid : id < s.next
    · rw [hn.parent?_eq id hid] at hp
      exact Nat.lt_of_lt_of_le (h.parent?_lt id p hp) hn.next_le
    · exact Nat.lt_trans (hn.parent?_lt id p (Nat.not_lt.1 hid) hp) (lt_of_parent? hp)

/-- A new scope inside of one that is there. -/
theorem nests_add {p : ScopeId} (h : s.Whole) (hp : p < s.next) :
    s.Nests (s.add { parent := some p }) := by
  refine .add h.closed (fun q hq => ?_) nofun
  cases hq
  exact hp

/-- The scopes that are there stand for themselves in a store that has more of them. -/
theorem shifted_of_grows (h : s.Whole) (hg : s.Grows s') :
    s.Shifted s.next (s'.next - s.next) s' where
  le_next := Nat.le_refl _
  next_eq := (Nat.add_sub_cancel' hg.next_le).symm
  scope?_rel id := by
    by_cases hid : id < s.next
    · obtain ⟨a, ha⟩ := exists_scope hid
      rw [shifted_of_lt hid, hg.scope?_eq id hid, ha]
      refine .some ⟨?_, ?_⟩
      · cases hp : a.parent with
        | none => exact .none
        | some p =>
          have hlt : p < s.next := h.parent?_lt id p (by rw [parent?, ha]; exact hp)
          exact .some (shifted_of_lt hlt).symm
      · exact List.forall₂_same.2 fun q hq => ⟨rfl, Renaming.shift_self (h.closed id a ha q hq)⟩
    · -- neither store has the scope
      have hle := Nat.not_lt.1 hid
      have hle' : s'.next ≤ id + (s'.next - s.next) := Nat.le_add_of_sub_le (by omega)
      rw [shifted_of_le hle, Store.scope?, Store.scope?, Array.getElem?_eq_none hle,
        Array.getElem?_eq_none hle']
      exact .none

end Whole

end Store

/-- Evaluations on a store and on a store that has more scopes in between. -/
def Correspondence.shift (k d : Nat) : Correspondence where
  toRenaming := Renaming.shift k d
  stores := Store.Shifted k d

/-- Whatever evaluation does with a store, it does the same with the shifted one. -/
theorem Correspondence.shift_lawful (k d : Nat) : (Correspondence.shift k d).Lawful where
  next h := h.shifted_next.symm
  add xs h he hvs := h.add ⟨.some he, Renaming.Bound.setAll .nil xs hvs⟩
  bind name h he hv := by
    obtain rfl := he
    exact h.bind name hv
  lookup h he _ := by
    obtain rfl := he
    exact h.lookup _ _

/-! ## Calls of a session -/

namespace Log

/-- The text of what is shown of an entry, of which only the printed lines or only the notes may
count. -/
def shownText (lines notes : Bool) (shown : Bool × String) : String :=
  if bif shown.1 then lines else notes then lineOf shown.2 else ""

/-- The text of an entry is made of what is shown of it. -/
theorem entryText_eq (lines notes : Bool) (e : Entry) :
    entryText lines notes e = shownText lines notes e.shown := by
  cases e <;> rfl

/-- Logs that show the same have the same texts. -/
theorem foldl_entryText_eq {log log' : Log} (h : log.map Entry.shown = log'.map Entry.shown)
    (lines notes : Bool) :
    log.foldl (fun out e => out ++ entryText lines notes e) "" =
      log'.foldl (fun out e => out ++ entryText lines notes e) "" := by
  simp only [entryText_eq]
  rw [← Array.foldl_map (f := Entry.shown) (g := fun out t => out ++ shownText lines notes t), h,
    Array.foldl_map]

end Log

/-- What two executions left behind looks the same: what was printed, what was added to the trace,
and the values, which may differ in the scopes of functions. -/
structure Execution.Alike (e e' : Execution) : Prop where
  out : e.out = e'.out
  trace : e.trace = e'.trace
  result : (∃ v w, e.result = .ok v ∧ e'.result = .ok w ∧ v.type = w.type ∧ v.text = w.text) ∨
    ∃ h, e.result = .error h ∧ e'.result = .error h

namespace Session

/-- Calls a value, with evaluations nesting below `budget` levels. -/
def call (s : Session) (f : Value) (arguments : List Value) (budget : Nat) : Execution × Session :=
  s.finish (Eval.call s.settings (eval s.settings budget) f arguments { store := s.store })

/-- The sessions that are come to by running programs, and by calling values that refer to scopes of
the session. -/
inductive Reached : Session → Prop where
  | start (settings : Settings) {store : Store} : store.Whole → Reached (start settings store)
  | runIn {s : Session} {scope : ScopeId} (tree : Program) (budget : Nat) : Reached s →
      scope < s.store.next → Reached (s.runIn scope tree budget).2
  | runFresh {s : Session} (tree : Program) (budget : Nat) : Reached s →
      Reached (s.runFresh tree budget).2
  | call {s : Session} {f : Value} {vs : List Value} (budget : Nat) : Reached s →
      f.Within s.store.next → (∀ v ∈ vs, v.Within s.store.next) → Reached (s.call f vs budget).2
  | close {s : Session} : Reached s → Reached s.close

/-- All scopes that a session refers to are there. -/
structure Sound (s : Session) : Prop where
  whole : s.store.Whole
  globals_lt : s.globals < s.store.next

/-- A session stays sound while scopes are only added inside of older ones. -/
theorem Sound.of_nests {s s' : Session} (h : s.Sound) (hn : s.store.Nests s'.store)
    (hg : s'.globals = s.globals) : s'.Sound where
  whole := h.whole.of_nests hn
  globals_lt := hg ▸ Nat.lt_of_lt_of_le h.globals_lt hn.next_le

/-- A session begins with the builtin functions and inside of them its globals. -/
theorem Sound.start (settings : Settings) {store : Store} (h : store.Whole) :
    (Session.start settings store).Sound := by
  have hbuiltins : store.Nests (store.add Scope.standard) := by
    refine .add h.closed nofun fun q hq => ?_
    obtain ⟨b, -, rfl⟩ := List.mem_map.1 hq
    trivial
  have hwhole := h.of_nests hbuiltins
  exact ⟨hwhole.of_nests (hwhole.nests_add (store.next_lt_add _)), Store.next_lt_add _ _⟩

/-- A run makes its scopes inside of older ones. -/
theorem Sound.runIn {s : Session} {scope : ScopeId} (h : s.Sound) (hscope : scope < s.store.next)
    (tree : Program) (budget : Nat) : (s.runIn scope tree budget).2.Sound := by
  refine h.of_nests ?_ rfl
  rw [runIn_store]
  exact (nesting_eval s.settings budget tree scope { store := s.store } h.whole.closed hscope).store

/-- Every session that is come to is sound. -/
theorem Reached.sound {s : Session} (h : Reached s) : s.Sound := by
  induction h with
  | start settings hw => exact .start settings hw
  | runIn tree budget _ hscope ih => exact ih.runIn hscope tree budget
  | @runFresh s tree budget _ ih =>
    -- The fresh scope is inside of the globals, which are there.
    have hfresh : { s with store := s.store.add { parent := some s.globals } }.Sound :=
      ih.of_nests (ih.whole.nests_add ih.globals_lt) rfl
    exact hfresh.runIn (s.store.next_lt_add _) tree budget
  | @call s f vs budget _ hf hvs ih =>
    have hcall : (Eval.call s.settings (eval s.settings budget) f vs { store := s.store }).Nests
        s.store Value.Within :=
      (nesting_eval s.settings budget).call (.refl ih.whole.closed) hf hvs
    exact ih.of_nests hcall.store rfl
  | close _ ih => exact ⟨ih.whole, ih.globals_lt⟩

/-- Executions look the same where the runs in them end alike. -/
theorem finish_alike {c : Correspondence} {o o' : Outcome Value} {s s' : Session}
    (h : c.Ends c.Values o o') (ht : s.tracing = s'.tracing) :
    (s.finish o).1.Alike (s'.finish o').1 := by
  have htext := Log.foldl_entryText_eq h.machines.log
  -- The texts of both logs are equal, so only the results are left.
  constructor
  · simp only [finish, ht, Log.printed_eq, Log.everything_eq, htext]
  · simp only [finish, ht, Log.notes_eq, htext]
  · cases h with
    | done hv _ => exact .inl ⟨_, _, rfl, rfl, hv.type_eq, hv.text_eq⟩
    | halted _ => exact .inr ⟨_, rfl, rfl⟩

/-- A call that is made again, in the session that the first one left, shows the same as the first
one: it has a value of the same type and text or the same halt, prints the same and makes the same
notes. -/
theorem call_again {s : Session} (hs : Reached s) {f : Value} {vs : List Value} (budget : Nat)
    (hf : f.Within s.store.next) (hvs : ∀ v ∈ vs, v.Within s.store.next) :
    (s.call f vs budget).1.Alike ((s.call f vs budget).2.call f vs budget).1 := by
  have hgrows : s.store.Grows (s.call f vs budget).2.store :=
    ((framed_eval s.settings budget).keeps_call (m := { store := s.store }) f vs).store
  -- the first call found the scopes of `s`, the second one finds those that the first one made too
  have hm : (Correspondence.shift s.store.next _).Machines { store := s.store }
      { store := (s.call f vs budget).2.store } := ⟨hs.sound.whole.shifted_of_grows hgrows, rfl⟩
  have hcalls (d : Nat) := (Correspondence.shift_lawful s.store.next d).runs_call s.settings budget
    (Renaming.shift_self hf) (List.forall₂_same.2 fun v hv => Renaming.shift_self (hvs v hv))
  exact finish_alike (hcalls _ _ _ hm) rfl

/-- A function that prints its argument and gives a function, which refers to the scope of the call.
That is the third scope of the session for the first call, and is there already for the second. -/
theorem call_again_closure :
    let constant : Program := .block [.expressionStatement (.identifier (.string "x"))]
    let body : Program := .block [
      .expressionStatement (.call (.identifier (.string "puts")) [.identifier (.string "x")]),
      .expressionStatement (.function [] constant)]
    let p : Program := .program [.letStatement (.string "make") (.function [.string "x"] body)]
    let s := ((start { verbosity := 3 }).run p 20).2
    let f : Value := .function [.string "x"] body 1
    let first := s.call f [.integer 7] 20
    s.store.lookup (.text "make") s.globals = some f ∧ s.Reached ∧ f.Within s.store.next ∧
      first.1.result = .ok (.function [] constant 2) ∧ 2 < first.2.store.next ∧
      first.1.Alike (first.2.call f [.integer 7] 20).1 := by
  intro constant body p s f first
  have hs : s.Reached := .runIn p 20 (.start _ .empty) (by decide)
  have hf : f.Within s.store.next := by decide
  refine ⟨rfl, hs, hf, rfl, by decide, ?_⟩
  exact call_again hs 20 hf (List.forall_mem_singleton.2 trivial)

end Session

end MonkeyLang
