import MonkeyLang.Proofs.Eval.Nesting
import MonkeyLang.ScopeTable

/-!
# The scopes of a table stay a forest

Scopes are made inside of older ones, with one exception: where a program is evaluated and the
outermost scope around has no builtin function, a new scope is put around that one. Such a scope can
not be meant by a command, binds the builtin functions and has no scope around it, and it stays so
(`Installed`). So every scope is inside of an older one or of an installed one: `IsForest`. Main
statement: `after_isForest` says so of all sequences of commands.
-/

namespace MonkeyLang

/-! ## Putting the builtin functions around a chain -/

namespace Store

variable {s : Store} {id i p root : ScopeId} {ids : List ScopeId}

/-- The store with a new scope of the builtin functions around a scope. -/
def surround (s : Store) (root : ScopeId) : Store :=
  (s.modify root fun scope => { scope with parent := some s.next }).add Scope.standard

theorem next_surround : (s.surround root).next = s.next + 1 := by
  rw [surround, next_add, next_modify]

theorem scope?_surround_next : (s.surround root).scope? s.next = some Scope.standard := by
  rw [surround, scope?_add, next_modify, if_pos rfl]

/-- Of the others only the surrounded one is changed, in what is around it. -/
theorem scope?_surround (h : i < s.next) :
    (s.surround root).scope? i = if root = i then
        (s.scope? i).map fun scope => { scope with parent := some s.next }
      else s.scope? i := by
  rw [surround, scope?_add, next_modify, if_neg (Nat.ne_of_lt h), scope?_modify]

/-- Either the outermost scope has a builtin function and nothing is done, or it has none and is
surrounded. -/
theorem withBuiltins_cases (s : Store) (id : ScopeId) :
    s.withBuiltins id = s ∨
      (s.bindings (s.root id)).any (fun q => q.2.isBuiltin) = false ∧
        s.withBuiltins id = s.surround (s.root id) := by
  unfold withBuiltins
  cases h : (s.bindings (s.root id)).any fun q => q.2.isBuiltin with
  | true => exact .inl (if_pos h)
  | false => exact .inr ⟨rfl, if_neg (by rw [h]; exact Bool.false_ne_true)⟩

theorem next_le_withBuiltins : s.next ≤ (s.withBuiltins id).next := by
  obtain h | ⟨-, h⟩ := s.withBuiltins_cases id
  · exact Nat.le_of_eq (congrArg next h).symm
  · rw [h, next_surround]
    exact Nat.le_succ _

/-- A scope of the builtin functions is left alone. -/
theorem scope?_withBuiltins (h : s.scope? p = some Scope.standard) :
    (s.withBuiltins id).scope? p = some Scope.standard := by
  obtain hw | ⟨hb, hw⟩ := s.withBuiltins_cases id <;> rw [hw]
  · exact h
  -- A scope of the builtin functions is never surrounded, for it has one of them.
  · have hroot : s.root id ≠ p := by
      rintro rfl
      rw [bindings, h] at hb
      cases hb
    rw [scope?_surround (lt_of_scope? h), if_neg hroot, h]

/-- The builtin functions refer to no scope, so all that is bound still refers to scopes that are
there. -/
theorem Closed.withBuiltins (h : s.Closed) : (s.withBuiltins id).Closed := by
  obtain hw | ⟨-, hw⟩ := s.withBuiltins_cases id <;> rw [hw]
  · exact h
  · intro i scope hs
    rw [next_surround]
    by_cases hi : i < s.next
    · -- the bindings of a scope that was there are as they were
      have hbindings : ∃ scope', s.scope? i = some scope' ∧ scope'.bindings = scope.bindings := by
        rw [scope?_surround hi] at hs
        split at hs
        · obtain ⟨scope', hs', rfl⟩ := Option.map_eq_some_iff.1 hs
          exact ⟨scope', hs', rfl⟩
        · exact ⟨scope, hs, rfl⟩
      obtain ⟨scope', hs', hb⟩ := hbindings
      rw [← hb]
      exact fun q hq => (h i scope' hs' q hq).mono (Nat.le_succ _)
    · have hlt := lt_of_scope? hs
      rw [next_surround] at hlt
      obtain rfl : i = s.next := Nat.le_antisymm (Nat.le_of_lt_succ hlt) (Nat.not_lt.1 hi)
      rw [scope?_surround_next] at hs
      cases hs
      intro q hq
      obtain ⟨b, -, rfl⟩ := List.mem_map.1 hq
      trivial

/-- Only the outermost scope may get a parent, which is a new scope of the builtin functions. -/
theorem parent?_withBuiltins (h : s.Chain id ids) (hi : i < s.next) :
    (s.withBuiltins id).parent? i = s.parent? i ∨
      s.parent? i = none ∧ (s.withBuiltins id).parent? i = some s.next ∧
        (s.withBuiltins id).scope? s.next = some Scope.standard := by
  obtain hw | ⟨-, hw⟩ := s.withBuiltins_cases id <;> rw [hw]
  · exact .inl rfl
  · obtain ⟨scope, hs⟩ := exists_scope hi
    by_cases hr : s.root id = i
    · refine .inr ⟨hr ▸ h.parent?_root, ?_, scope?_surround_next⟩
      rw [parent?, scope?_surround hi, if_pos hr, hs]
      rfl
    · refine .inl ?_
      rw [parent?, scope?_surround hi, if_neg hr]
      rfl

/-- A scope that is new has no scope around it. -/
theorem parent?_withBuiltins_of_le (hi : s.next ≤ i) : (s.withBuiltins id).parent? i = none := by
  obtain hw | ⟨-, hw⟩ := s.withBuiltins_cases id <;> rw [hw]
  · exact parent?_of_le hi
  · by_cases he : i = s.next
    · rw [he, parent?, scope?_surround_next]
      rfl
    · refine parent?_of_le ?_
      rw [next_surround]
      exact Nat.lt_of_le_of_ne hi (Ne.symm he)

end Store

/-! ## What a command does to a table -/

namespace ScopeTable

variable {t t' : ScopeTable} {c : Command} {id p : ScopeId} {cs : List Command}

/-- What a command can make of a table. -/
inductive Changes (t : ScopeTable) : Command → ScopeTable → Prop where
  /-- It only looks, or the table has no such scope. -/
  | nothing {c : Command} : Changes t c t
  | add {c : Command} {scope : Scope} : (∀ p, scope.parent = some p → p ∈ t.scopes) →
      (∀ q ∈ scope.bindings, q.2.isBuiltin = true) → Changes t c (t.add scope).2
  | bind {i : Nat} {name : String} {v : Value} {id : ScopeId} : id ∈ t.scopes →
      Changes t (.set i name v) { t with store := t.store.bind id (.text name) v }
  | evaluate {i : Nat} {program : Program} {id : ScopeId} : id ∈ t.scopes →
      Changes t (.evaluate i program)
        { t with store := (evaluateIn t.store id program).machine.store }

/-- An action on a scope of the table makes one of these changes. -/
theorem changes_act (hid : ∀ i, c.scope? = some i → id ∈ t.scopes) :
    Changes t c (t.act id c).2 := by
  cases c with
  | fresh => exact .add nofun nofun
  | standard => exact .add nofun (by decide)
  | enclose i =>
    refine .add (fun p hp => ?_) nofun
    cases hp
    exact hid i rfl
  | set i name v => exact .bind (hid i rfl)
  | evaluate i program =>
    have hact : (t.act id (.evaluate i program)).2 =
        { t with store := (evaluateIn t.store id program).machine.store } := by
      simp only [act]
      cases evaluateIn t.store id program <;> rfl
    rw [hact]
    exact .evaluate (hid i rfl)
  | get | contains | describe | parent => exact .nothing

/-- So does every command, also one for a scope that the table does not have. -/
theorem changes_step (t : ScopeTable) (c : Command) : Changes t c (t.step c).2 := by
  unfold step
  split
  · next hc => exact changes_act fun i hi => by cases hc.symm.trans hi
  · split
    -- A command for a number beyond the table changes nothing.
    · next hid => exact changes_act fun _ _ => Array.mem_of_getElem? hid
    · exact .nothing

/-! ## Scopes that were put around others -/

/-- A scope of the builtin functions that no command can mean. -/
structure Installed (t : ScopeTable) (p : ScopeId) : Prop where
  unlisted : p ∉ t.scopes
  scope?_eq : t.store.scope? p = some Scope.standard

/-- No command changes it. -/
theorem Changes.installed (h : Changes t c t') (hp : t.Installed p) : t'.Installed p := by
  have hlt := Store.lt_of_scope? hp.scope?_eq
  cases h with
  | nothing => exact hp
  | add =>
    refine ⟨fun hmem => ?_, ?_⟩
    · obtain hmem | rfl := Array.mem_push.1 hmem
      · exact hp.unlisted hmem
      · exact Nat.lt_irrefl _ hlt
    · exact (Store.scope?_add _ _ _).trans ((if_neg (Nat.ne_of_lt hlt)).trans hp.scope?_eq)
  | bind hid =>
    refine ⟨hp.unlisted, ?_⟩
    rw [Store.scope?_bind, if_neg (ne_of_mem_of_not_mem hid hp.unlisted), hp.scope?_eq]
  | @evaluate i program id hid =>
    refine ⟨hp.unlisted, ?_⟩
    -- the evaluation itself changes the scope of the table that it is done in and no other
    have hframe := framed_eval {} nestingLimit program id { store := t.store.withBuiltins id }
    exact (hframe.scope?_eq p (Nat.lt_of_lt_of_le hlt Store.next_le_withBuiltins)
      (ne_of_mem_of_not_mem hid hp.unlisted).symm).trans (Store.scope?_withBuiltins hp.scope?_eq)

/-! ## Forests -/

/-- Every scope is inside of an older one, or of one that was put around it, or of none. -/
structure IsForest (t : ScopeTable) : Prop where
  listed : ∀ id ∈ t.scopes, id < t.store.next
  closed : t.store.Closed
  outward : ∀ id p, t.store.parent? id = some p → p < id ∨ t.Installed p

theorem IsForest.empty : IsForest {} where
  listed := nofun
  closed := .empty
  outward _ _ h := absurd (Store.lt_of_parent? h) (Nat.not_lt_zero _)

/-- Going outwards from a scope comes to an end. -/
theorem IsForest.exists_chain (h : t.IsForest) (hid : id < t.store.next) :
    ∃ ids, t.store.Chain id ids := by
  -- every step goes to an older scope, but for a last one to a scope that has no parent
  induction id using Nat.strongRecOn with
  | ind id ih =>
    cases hp : t.store.parent? id with
    | none => exact ⟨_, .outermost hid hp⟩
    | some p =>
      obtain hlt | hin := h.outward id p hp
      · obtain ⟨ids, hids⟩ := ih p hlt (Nat.lt_trans hlt hid)
        exact ⟨_, .inside hp hids⟩
      · have hnone : t.store.parent? p = none := by
          rw [Store.parent?, hin.scope?_eq]
          rfl
        exact ⟨_, .inside hp (.outermost (Store.lt_of_scope? hin.scope?_eq) hnone)⟩

/-- A value that is bound from outside refers to scopes that are there. -/
def Command.IsProper (t : ScopeTable) : Command → Prop
  | .set _ _ v => v.Within t.store.next
  | _ => True

instance Command.decidableIsProper (t : ScopeTable) : (c : Command) → Decidable (c.IsProper t)
  | .set _ _ v => inferInstanceAs (Decidable (v.Within t.store.next))
  | .fresh | .standard | .enclose _ | .get .. | .contains .. | .describe _ | .parent _
  | .evaluate .. => inferInstanceAs (Decidable True)

/-- The evaluation itself adds scopes inside of older ones, whatever was put around before. -/
theorem nests_evaluateIn (program : Program) (h : t.IsForest) (hid : id < t.store.next) :
    (t.store.withBuiltins id).Nests (evaluateIn t.store id program).machine.store :=
  (nesting_eval {} nestingLimit program id { store := t.store.withBuiltins id } h.closed.withBuiltins
    (Nat.lt_of_lt_of_le hid Store.next_le_withBuiltins)).store

/-- A command leaves the scope around a scope as it is, unless it evaluates a program: then a scope
without one may get a new scope of the builtin functions. -/
theorem Changes.parent?_cases (h : Changes t c t') (ht : t.IsForest) (hid : id < t.store.next) :
    t'.store.parent? id = t.store.parent? id ∨
      t.store.parent? id = none ∧ (∃ i program, c = .evaluate i program) ∧
        t'.store.parent? id = some t.store.next ∧ t'.Installed t.store.next := by
  cases h with
  | nothing => exact .inl rfl
  | add => exact .inl ((Store.parent?_add _ _).trans (if_neg (Nat.ne_of_lt hid)))
  | bind => exact .inl (Store.parent?_bind _ _ _ _)
  | @evaluate i program e he =>
    have hlt := ht.listed e he
    obtain ⟨ids, hids⟩ := ht.exists_chain hlt
    have hn := nests_evaluateIn program ht hlt
    -- the evaluation itself leaves the parents alone, so all is decided before it begins
    have hparent := hn.parent?_eq id (Nat.lt_of_lt_of_le hid Store.next_le_withBuiltins)
    obtain hw | ⟨hnone, hsome, hnew⟩ := Store.parent?_withBuiltins hids hid
    · exact .inl (hparent.trans hw)
    · have hframe := framed_eval {} nestingLimit program e { store := t.store.withBuiltins e }
      refine .inr ⟨hnone, ⟨i, program, rfl⟩, hparent.trans hsome, fun hmem => ?_, ?_⟩
      · exact Nat.lt_irrefl _ (ht.listed _ hmem)
      · exact (hframe.scope?_eq _ (Store.lt_of_scope? hnew) (Nat.ne_of_gt hlt)).trans hnew

/-- Scopes that a command makes are inside of older ones. -/
theorem Changes.parent?_lt (h : Changes t c t') (ht : t.IsForest) (hid : t.store.next ≤ id)
    (hp : t'.store.parent? id = some p) : p < id := by
  have hold (s : Store) (hs : s.next = t.store.next) (hp : s.parent? id = some p) : p < id :=
    absurd (Store.lt_of_parent? hp) (Nat.not_lt.2 (hs ▸ hid))
  cases h with
  | nothing => exact hold _ rfl hp
  | @add _ scope hparent _ =>
    have hp := (Store.parent?_add _ _).symm.trans hp
    split at hp
    · exact Nat.lt_of_lt_of_le (ht.listed p (hparent p hp)) hid
    · exact hold _ rfl hp
  | bind => exact hold _ (Store.next_bind _ _ _ _) hp
  | @evaluate i program e he =>
    have hn := nests_evaluateIn program ht (ht.listed e he)
    -- the scope that is put around has no parent, and all other new ones are made by calls
    by_cases hlt : id < (t.store.withBuiltins e).next
    · have hnone := (hn.parent?_eq id hlt).trans (Store.parent?_withBuiltins_of_le hid)
      cases hnone.symm.trans hp
    · exact hn.parent?_lt id p (Nat.not_lt.1 hlt) hp

/-- No command takes a scope away. -/
theorem Changes.next_le (h : Changes t c t') (ht : t.IsForest) : t.store.next ≤ t'.store.next := by
  cases h with
  | nothing => exact Nat.le_refl _
  | add => exact Nat.le_of_lt (Nat.lt_of_lt_of_eq (Nat.lt_succ_self _) (Store.next_add _ _).symm)
  | bind => exact Nat.le_of_eq (Store.next_bind _ _ _ _).symm
  | evaluate he =>
    exact Nat.le_trans Store.next_le_withBuiltins (nests_evaluateIn _ ht (ht.listed _ he)).next_le

/-- Every command binds only what refers to scopes that are there. -/
theorem Changes.closed (h : Changes t c t') (ht : t.IsForest) (hc : c.IsProper t) :
    t'.store.Closed := by
  cases h with
  | nothing => exact ht.closed
  | @add _ scope hparent hb =>
    refine (Store.Nests.add ht.closed (fun p hp => ht.listed p (hparent p hp)) fun q hq => ?_).closed
    have hq := hb q hq
    -- A new scope binds builtin functions alone.
    cases hv : q.2 with
    | function => rw [hv] at hq; cases hq
    | returned => rw [hv] at hq; cases hq
    | _ => trivial
  | bind => exact (Store.Nests.bind ht.closed hc).closed
  | evaluate he => exact (nests_evaluateIn _ ht (ht.listed _ he)).closed

/-- One command keeps the forest. -/
theorem Changes.isForest (h : Changes t c t') (ht : t.IsForest) (hc : c.IsProper t) :
    t'.IsForest where
  listed id hid := by
    have hle := h.next_le ht
    have hold (hid : id ∈ t.scopes) : id < t'.store.next := Nat.lt_of_lt_of_le (ht.listed id hid) hle
    cases h with
    | add =>
      obtain hid | rfl := Array.mem_push.1 hid
      · exact hold hid
      · exact Nat.lt_of_lt_of_eq (Nat.lt_succ_self _) (Store.next_add _ _).symm
    | nothing | bind | evaluate => exact hold hid
  closed := h.closed ht hc
  outward id p hp := by
    by_cases hid : id < t.store.next
    -- An old scope keeps its parent, or gets one that is installed from then on.
    · obtain he | ⟨-, -, he, hin⟩ := h.parent?_cases ht hid
      · obtain hlt | hin := ht.outward id p (he.symm.trans hp)
        · exact .inl hlt
        · exact .inr (h.installed hin)
      · cases he.symm.trans hp
        exact .inr hin
    · exact .inl (h.parent?_lt ht (Nat.not_lt.1 hid) hp)

/-! ## Sequences of commands -/

/-- The table after commands, one after the other. -/
def after (t : ScopeTable) : List Command → ScopeTable
  | [] => t
  | c :: cs => (t.step c).2.after cs

/-- Every value that is bound from outside refers to scopes that are there by then. -/
def AllProper (t : ScopeTable) : List Command → Prop
  | [] => True
  | c :: cs => c.IsProper t ∧ (t.step c).2.AllProper cs

instance decidableAllProper (t : ScopeTable) : (cs : List Command) → Decidable (t.AllProper cs)
  | [] => inferInstanceAs (Decidable True)
  | c :: cs =>
    let _ := decidableAllProper (t.step c).2 cs
    inferInstanceAs (Decidable (c.IsProper t ∧ (t.step c).2.AllProper cs))

/-- How often commands change the scope around a scope that is there. -/
def parentChanges (id : ScopeId) (t : ScopeTable) : List Command → Nat
  | [] => 0
  | c :: cs =>
    (if id < t.store.next ∧ (t.step c).2.store.parent? id ≠ t.store.parent? id then 1 else 0) +
      (t.step c).2.parentChanges id cs

/-- A step keeps the forest. -/
theorem IsForest.step (ht : t.IsForest) (hc : c.IsProper t) : (t.step c).2.IsForest :=
  (changes_step t c).isForest ht hc

/-- No sequence of commands changes an installed scope. -/
theorem Installed.after (h : t.Installed p) (cs : List Command) : (t.after cs).Installed p := by
  induction cs generalizing t with
  | nil => exact h
  | cons c cs ih => exact ih ((changes_step t c).installed h)

/-- A sequence of commands keeps the forest. -/
theorem IsForest.after (ht : t.IsForest) (h : t.AllProper cs) : (t.after cs).IsForest := by
  induction cs generalizing t with
  | nil => exact ht
  | cons c cs ih => exact ih (ht.step h.1) h.2

/-- The first commands of a proper sequence are proper. -/
theorem AllProper.of_append {cs' : List Command} (h : t.AllProper (cs ++ cs')) : t.AllProper cs := by
  induction cs generalizing t with
  | nil => trivial
  | cons c cs ih => exact ⟨h.1, ih h.2⟩

/-- A scope that has a scope around it keeps it. -/
theorem parentChanges_eq_zero (ht : t.IsForest) (h : t.AllProper cs)
    (hp : t.store.parent? id = some p) : t.parentChanges id cs = 0 := by
  induction cs generalizing t with
  | nil => rfl
  | cons c cs ih =>
    have hid := Store.lt_of_parent? hp
    obtain he | ⟨hnone, -⟩ := (changes_step t c).parent?_cases ht hid
    · rw [parentChanges, if_neg fun hc => hc.2 he, Nat.zero_add]
      exact ih (ht.step h.1) h.2 (he.trans hp)
    · cases hnone.symm.trans hp

/-- The scope around a scope changes at most once. -/
theorem parentChanges_le_one (ht : t.IsForest) (h : t.AllProper cs) (id : ScopeId) :
    t.parentChanges id cs ≤ 1 := by
  induction cs generalizing t with
  | nil => exact Nat.zero_le _
  | cons c cs ih =>
    have hrest := ih (ht.step h.1) h.2
    rw [parentChanges]
    split
    · next hc =>
      -- from here on the scope has a parent, so nothing is left to change
      obtain he | ⟨-, -, hsome, -⟩ := (changes_step t c).parent?_cases ht hc.1
      · exact absurd he hc.2
      · exact Nat.le_of_eq (congrArg (1 + ·) (parentChanges_eq_zero (ht.step h.1) h.2 hsome))
    · rwa [Nat.zero_add]

/-- Commands in any order keep the scopes a forest: from every scope the way outwards ends, and a
look-up and the search for the outermost scope follow it to the end. The scope around a scope changes
at most once, where there was none, where a program is evaluated and to a new scope of the builtin
functions, and that scope stays as it is for ever. -/
theorem after_isForest (cs : List Command) (h : AllProper {} cs) :
    (∀ id < (after {} cs).store.next, ∃ ids, (after {} cs).store.Chain id ids ∧ ids.Nodup ∧
      ids.getLast? = some ((after {} cs).store.root id) ∧
      ∀ name, (after {} cs).store.lookup name id =
        ids.findSome? fun i => ((after {} cs).store.bindings i).get? name) ∧
    (∀ id, parentChanges id {} cs ≤ 1) ∧
    ∀ before c later, cs = before ++ c :: later →
      let t := after {} before
      let t' := (t.step c).2
      ∀ id < t.store.next, t'.store.parent? id ≠ t.store.parent? id →
        t.store.parent? id = none ∧ (∃ i program, c = .evaluate i program) ∧
        ∃ p, t.store.next ≤ p ∧ t'.store.parent? id = some p ∧
          ∀ more, (t'.after more).store.scope? p = some Scope.standard := by
  refine ⟨fun id hid => ?_, parentChanges_le_one .empty h, ?_⟩
  · obtain ⟨ids, hids⟩ := (IsForest.empty.after h).exists_chain hid
    exact ⟨ids, hids, hids.nodup, hids.getLast?_eq, hids.lookup_eq⟩
  · rintro before c later rfl t t' id hid hne
    -- the commands up to there leave a forest, and the one behind them changes it as a step can
    have ht : t.IsForest := IsForest.empty.after h.of_append
    obtain he | ⟨hnone, hc, hsome, hin⟩ := (changes_step t c).parent?_cases ht hid
    · exact absurd he hne
    · exact ⟨hnone, hc, _, Nat.le_refl _, hsome, fun more => (hin.after more).scope?_eq⟩

/-- A program leaves a function behind that was made in a call, and all builtin functions of another
scope are overwritten. A program that is evaluated there gets a new scope of them around that one. -/
theorem after_isForest_overwritten :
    let call (f : String) (es : List Program) : Program := .call (.identifier (.string f)) es
    let first : Program := .program
      [.letStatement (.string "f") (.function [.string "x"] (.block [.expressionStatement
        (.function [] (.block [.expressionStatement (call "len" [.identifier (.string "x")])]))])),
        .letStatement (.string "g") (call "f" [.string (.string "ab")])]
    let before : List Command :=
      [.fresh, .enclose 0, .evaluate 1 first, .standard, .set 2 "len" (.integer 1),
        .set 2 "puts" .null, .set 2 "h" (.function [] (.block []) 3)]
    let last : Command := .evaluate 2 (.program [.expressionStatement (call "h" [])])
    let t := after {} (before ++ [last])
    AllProper {} (before ++ [last]) ∧
      (after {} before).store.parent? 4 = none ∧ t.store.parent? 4 = some 5 ∧
      (∀ more, (t.after more).store.scope? 5 = some Scope.standard) ∧
      parentChanges 4 {} (before ++ [last]) ≤ 1 ∧
      t.store.next = 7 ∧ ∃ ids, t.store.Chain 6 ids ∧ ids.getLast? = some (t.store.root 6) := by
  intro call first before last t
  have hproper : AllProper {} (before ++ [last]) := by decide +kernel
  have hnone : (after {} before).store.parent? 4 = none := by decide +kernel
  have hsome : t.store.parent? 4 = some 5 := by decide +kernel
  have hnext : t.store.next = 7 := by decide +kernel
  have hlt : 4 < (after {} before).store.next := by decide +kernel
  obtain ⟨hchains, hchanges, hmoments⟩ := after_isForest (before ++ [last]) hproper
  obtain ⟨ids, hids, -, hlast, -⟩ := hchains 6 (by rw [hnext]; decide)
  -- the last command puts a scope around the one with the number 4
  have hstep : ((after {} before).step last).2.store.parent? 4 = some 5 := by decide +kernel
  obtain ⟨-, -, p, -, hp, hstays⟩ := hmoments before last [] rfl 4 hlt
    (by rw [hnone, hstep]; exact nofun)
  cases hp.symm.trans hstep
  exact ⟨hproper, hnone, hsome, hstays, hchanges 4, hnext, ids, hids, hlast⟩

end ScopeTable

end MonkeyLang
