import MonkeyLang.Proofs.Eval.Frame
import MonkeyLang.Proofs.Scope.Lookup

/-!
# What a name has inside of a call

A call makes one scope for its body, the frame: parameters are bound to arguments from left to right,
as far as there are both, inside of the scope that the function was made in. Nothing is copied from
there, so a name that no parameter binds has what it has outside at the moment when it is looked up.

Main statement: `Eval.lookup_enter` says what every name has in a frame, in every store that came
about without anything being bound in the frame itself (`Store.Spares`).
-/

namespace MonkeyLang

/-- The label is the name. -/
def Json.Names (label : Json) (x : Name) : Prop :=
  ∃ y, label.name = .ok y ∧ x.same y = true

theorem Json.names_string {s t : String} : (Json.string s).Names (.text t) ↔ t = s := by
  simp [Names, Json.name]

/-! ## Names that are bound one after the other -/

namespace Bindings

variable {names : List Name} {vs : List Value} {b : Bindings} {x : Name}

/-- A name that is not among those that are bound keeps its value. -/
theorem get?_setAll_of_not_same
    (h : ∀ j y, names[j]? = some y → j < vs.length → x.same y = false) :
    (setAll names vs b).get? x = b.get? x := by
  induction names generalizing vs b with
  | nil => rfl
  | cons y names ih =>
    cases vs with
    | nil => rfl
    | cons v vs =>
      have hy : x.same y = false := h 0 y rfl (by simp)
      have hrest : ∀ j z, names[j]? = some z → j < vs.length → x.same z = false := by
        intro j z hz hj
        exact h (j + 1) z (by simpa using hz) (by simpa using hj)
      show (setAll names vs (b.set y v)).get? x = b.get? x
      rw [ih hrest, get?_set, hy]
      rfl

/-- A name that is bound several times has the value that it was bound to last. -/
theorem get?_setAll_of_last {i : Nat} {y : Name} {v : Value} (hy : names[i]? = some y)
    (hv : vs[i]? = some v) (hx : x.same y = true)
    (hlast : ∀ j z, i < j → names[j]? = some z → j < vs.length → x.same z = false) :
    (setAll names vs b).get? x = some v := by
  induction names generalizing vs b i with
  | nil => simp at hy
  | cons y' names ih =>
    cases vs with
    | nil => simp at hv
    | cons v' vs =>
      show (setAll names vs (b.set y' v')).get? x = some v
      cases i with
      | zero =>
        -- this is the last time: what comes behind binds other names
        obtain rfl : y' = y := by simpa using hy
        obtain rfl : v' = v := by simpa using hv
        have hrest : ∀ j z, names[j]? = some z → j < vs.length → x.same z = false := by
          intro j z hz hj
          exact hlast (j + 1) z (by omega) (by simpa using hz) (by simpa using hj)
        rw [get?_setAll_of_not_same hrest, get?_set, if_pos hx]
      | succ i =>
        apply ih (by simpa using hy) (by simpa using hv)
        intro j z hj hz hlt
        exact hlast (j + 1) z (by omega) (by simpa using hz) (by simpa using hlt)

end Bindings

/-! ## Frames -/

namespace Eval

variable {settings : Settings} {inner : Evaluator} {ps : List Json} {vs : List Value} {e : ScopeId}
  {m : Machine}

/-- Makes the frame of a call and gives its number. -/
def enter (parameters : List Json) (arguments : List Value) (scope : ScopeId) : Run ScopeId := do
  let xs ← names (parameters.take arguments.length)
  Run.addScope (frame xs arguments scope)

/-- The labels of parameters are their names, or one of them is none. -/
theorem names_cases (js : List Json) (m : Machine) :
    (∃ xs, js.map Json.name = xs.map .ok ∧ names js m = .done xs m) ∨
      ∃ f, (∃ j ∈ js, j.name = .error f) ∧ names js m = .halted (.label f) m := by
  induction js with
  | nil => exact .inl ⟨[], rfl, rfl⟩
  | cons j js ih =>
    cases hj : j.name with
    | error f =>
      refine .inr ⟨f, ⟨j, List.mem_cons_self, hj⟩, ?_⟩
      apply Run.bind_of_halted
      rw [hj]
      rfl
    | ok x =>
      -- the first label has a name, and the others decide
      have hlabel : Run.ofLabel j.name m = .done x m := by
        rw [hj]
        rfl
      have hcons : names (j :: js) m = (names js >>= fun xs => pure (x :: xs)) m :=
        Run.bind_of_done hlabel
      obtain ⟨xs, hxs, hrun⟩ | ⟨f, ⟨j', hj', hf⟩, hrun⟩ := ih
      · refine .inl ⟨x :: xs, by simp [hj, hxs], ?_⟩
        rw [hcons, Run.bind_of_done hrun]
        rfl
      · refine .inr ⟨f, ⟨j', List.mem_cons_of_mem j hj', hf⟩, ?_⟩
        rw [hcons, Run.bind_of_halted hrun]

/-- Entering a call adds the frame to the scopes, unless a parameter that has an argument is no
name. -/
theorem enter_cases (ps : List Json) (vs : List Value) (e : ScopeId) (m : Machine) :
    (∃ xs, (ps.take vs.length).map Json.name = xs.map .ok ∧
      enter ps vs e m = .done m.store.next { m with store := m.store.add (frame xs vs e) }) ∨
      ∃ f, (∃ p ∈ ps.take vs.length, p.name = .error f) ∧
        enter ps vs e m = .halted (.label f) m := by
  obtain ⟨xs, hxs, hrun⟩ | ⟨f, hf, hrun⟩ := names_cases (ps.take vs.length) m
  · refine .inl ⟨xs, hxs, ?_⟩
    rw [enter, Run.bind_of_done hrun]
    rfl
  · exact .inr ⟨f, hf, Run.bind_of_halted hrun⟩

/-- The body of a function is evaluated in the frame of the call. -/
theorem call_function_enter {b : Program} (h : ¬ (settings.strictArity ∧ vs.length ≠ ps.length)) :
    call settings inner (.function ps b e) vs = (do
      Run.note settings (.called ps vs.length)
      let i ← enter ps vs e
      return (← inner b i).unwrapped) := by
  rw [call_function h]
  refine funext fun m => Run.bind_congr rfl fun _ m₁ _ => ?_
  cases hx : names (ps.take vs.length) m₁ with
  | done xs m₂ =>
    have hadd : Run.addScope (frame xs vs e) m₂ = .done m₂.store.next _ := rfl
    have henter : enter ps vs e m₁ = Run.addScope (frame xs vs e) m₂ := Run.bind_of_done hx
    rw [Run.bind_of_done hx, Run.bind_of_done hadd, Run.bind_of_done (henter.trans hadd)]
  | halted f m₂ =>
    have henter : enter ps vs e m₁ = .halted f m₂ := Run.bind_of_halted hx
    rw [Run.bind_of_halted hx, Run.bind_of_halted henter]

end Eval

/-! ## Later stores -/

namespace Store

variable {i : ScopeId} {s s' : Store}

/-- The store on the right came about from the one on the left, and nothing was done in the scope
`i`: scopes were added, names were bound in other scopes, programs were evaluated in other scopes and
values were called. -/
inductive Spares (i : ScopeId) (s : Store) : Store → Prop where
  | refl : Spares i s s
  | add {s' : Store} (scope : Scope) : Spares i s s' → Spares i s (s'.add scope)
  | bind {s' : Store} {j : ScopeId} (x : Name) (v : Value) : Spares i s s' → j ≠ i →
      Spares i s (s'.bind j x v)
  | eval {m : Machine} {j : ScopeId} (settings : Settings) (budget : Nat) (t : Program) :
      Spares i s m.store → j ≠ i →
      Spares i s (MonkeyLang.eval settings budget t j m).machine.store
  | call {m : Machine} (settings : Settings) (budget : Nat) (f : Value) (vs : List Value) :
      Spares i s m.store →
      Spares i s (Eval.call settings (MonkeyLang.eval settings budget) f vs m).machine.store

/-- A scope that is spared is as it was. -/
theorem Spares.scope?_eq (h : s.Spares i s') (hi : i < s.next) :
    i < s'.next ∧ s'.scope? i = s.scope? i := by
  induction h with
  | refl => exact ⟨hi, rfl⟩
  | @add s' scope _ ih =>
    obtain ⟨hlt, hs⟩ := ih
    rw [next_add, scope?_add, if_neg (Nat.ne_of_lt hlt)]
    exact ⟨Nat.lt_succ_of_lt hlt, hs⟩
  | bind x v _ hj ih =>
    rw [next_bind, scope?_bind, if_neg hj]
    exact ih
  | @eval m j settings budget t _ hj ih =>
    -- an evaluation changes no scope but the one that it is done in
    obtain ⟨hlt, hs⟩ := ih
    have hframe := framed_eval settings budget t j m
    refine ⟨Nat.lt_of_lt_of_le hlt hframe.next_le, ?_⟩
    rw [hframe.scope?_eq i hlt hj.symm, hs]
  | @call m settings budget f vs _ ih =>
    obtain ⟨hlt, hs⟩ := ih
    have hgrows : m.store.Grows
        (Eval.call settings (MonkeyLang.eval settings budget) f vs m).machine.store :=
      ((framed_eval settings budget).keeps_call f vs).store
    refine ⟨Nat.lt_of_lt_of_le hlt hgrows.next_le, ?_⟩
    rw [hgrows.scope?_eq i hlt, hs]

/-- What a name has in a frame: what the frame binds it to, or what it has outside. -/
theorem lookup_of_frame {xs : List Name} {vs : List Value} {e : ScopeId}
    (h : s.scope? i = some (Eval.frame xs vs e)) (x : Name) :
    s.lookup x i = ((Bindings.setAll xs vs []).get? x).or (s.lookup x e) := by
  rw [lookup_eq, h]
  rfl

end Store

namespace Eval

/-- A parameter that is a name is bound under that name. -/
theorem exists_name_of_parameter {ps : List Json} {vs : List Value} {xs : List Name} {j : Nat}
    (hxs : (ps.take vs.length).map Json.name = xs.map .ok) (hj : j < vs.length) :
    (∀ p, ps[j]? = some p → ∃ y, xs[j]? = some y ∧ p.name = .ok y) ∧
      ∀ y, xs[j]? = some y → ∃ p, ps[j]? = some p ∧ p.name = .ok y := by
  -- both lists have an entry here, or none of them has
  have hentry : (ps[j]?).map Json.name = (xs[j]?).map .ok := by
    have h := congrArg (·[j]?) hxs
    simpa only [List.map_take, List.getElem?_take_of_lt hj, List.getElem?_map] using h
  constructor
  · intro p hp
    rw [hp, Option.map_some, eq_comm] at hentry
    obtain ⟨y, hy, hname⟩ := Option.map_eq_some_iff.1 hentry
    exact ⟨y, hy, hname.symm⟩
  · intro y hy
    rw [hy, Option.map_some] at hentry
    exact Option.map_eq_some_iff.1 hentry

/-- What a name has inside of a call. The body is evaluated in the frame that `enter` makes. Of the
parameters that are the name and have an argument the last one counts, and the name has its argument;
a name that is no such parameter has what it has in the scope of the function, at the moment when it
is looked up. Only a parameter that is no name can keep a frame from being made. -/
theorem lookup_enter (settings : Settings) (inner : Evaluator) (ps : List Json) (vs : List Value)
    (b : Program) (e : ScopeId) (m : Machine) :
    (¬ (settings.strictArity ∧ vs.length ≠ ps.length) →
      call settings inner (.function ps b e) vs = (do
        Run.note settings (.called ps vs.length)
        let i ← enter ps vs e
        return (← inner b i).unwrapped)) ∧
    ((∃ f, (∃ p ∈ ps.take vs.length, p.name = .error f) ∧
        enter ps vs e m = .halted (.label f) m) ∨
      ∃ m', enter ps vs e m = .done m.store.next m' ∧
        ∀ s', m'.store.Spares m.store.next s' → ∀ x,
          (∀ i p v, ps[i]? = some p → vs[i]? = some v → p.Names x →
            (∀ j q, i < j → j < vs.length → ps[j]? = some q → ¬ q.Names x) →
            s'.lookup x m.store.next = some v) ∧
          ((∀ j q, j < vs.length → ps[j]? = some q → ¬ q.Names x) →
            s'.lookup x m.store.next = s'.lookup x e)) := by
  refine ⟨call_function_enter, ?_⟩
  obtain ⟨xs, hxs, henter⟩ | hfault := enter_cases ps vs e m
  swap
  · exact .inl hfault
  refine .inr ⟨_, henter, fun s' hs x => ?_⟩
  -- the frame is still there, with the bindings that it was made with
  have hscope : s'.scope? m.store.next = some (frame xs vs e) := by
    rw [(hs.scope?_eq (m.store.next_lt_add _)).2, Store.scope?_add, if_pos rfl]
  rw [Store.lookup_of_frame hscope]
  -- a parameter that is another name binds another name
  have hother {j : Nat} {y : Name} (hj : j < vs.length) (hy : xs[j]? = some y)
      (hq : ∀ q, ps[j]? = some q → ¬ q.Names x) : x.same y = false := by
    obtain ⟨q, hget, hname⟩ := (exists_name_of_parameter hxs hj).2 y hy
    exact Bool.eq_false_iff.2 fun hsame => hq q hget ⟨y, hname, hsame⟩
  constructor
  · intro i p v hp hv hx hlast
    obtain ⟨hlt, -⟩ := List.getElem?_eq_some_iff.1 hv
    obtain ⟨y, hy, hname⟩ := (exists_name_of_parameter hxs hlt).1 p hp
    obtain ⟨z, hz, hsame⟩ := hx
    obtain rfl : y = z := by simpa [hname] using hz
    have hbound := Bindings.get?_setAll_of_last (b := []) hy hv hsame fun j z hj hz hlt =>
      hother hlt hz fun q hq => hlast j q hj hlt hq
    rw [hbound, Option.some_or]
  · intro h
    have hunbound := Bindings.get?_setAll_of_not_same (b := []) fun j z hz hlt =>
      hother hlt hz fun q hq => h j q hlt hq
    rw [hunbound]
    rfl

/-- Four parameters and three arguments: `x` is bound twice, and `z` is not bound, so it has what it
has outside, where it is bound once more behind the call. -/
theorem lookup_enter_repeated :
    let ps : List Json := [.string "x", .string "y", .string "x", .string "z"]
    let vs : List Value := [.integer 1, .integer 2, .integer 3]
    let m : Machine :=
      { store := (((({} : Store).add Scope.standard).add { parent := some 0 }).bind 1 (.text "x")
          .null).bind 1 (.text "z") (.integer 10) }
    ∃ m', enter ps vs 1 m = .done 2 m' ∧
      let s' := (eval {} 5 (.letStatement (.string "z") (.integer 20)) 1 m').machine.store
      m'.store.Spares 2 s' ∧ m'.store.lookup (.text "z") 1 = some (.integer 10) ∧
        s'.lookup (.text "x") 2 = some (.integer 3) ∧ s'.lookup (.text "y") 2 = some (.integer 2) ∧
        s'.lookup (.text "z") 2 = some (.integer 20) := by
  intro ps vs m
  obtain ⟨-, ⟨f, ⟨p, hp, hf⟩, -⟩ | ⟨m', henter, h⟩⟩ :=
    lookup_enter {} (eval {} 5) ps vs (.block []) 1 m
  · -- all parameters are texts
    have htext : ∃ t, p = .string t := by
      simp only [ps, vs, List.length_cons, List.length_nil, List.take_succ_cons, List.take_zero,
        List.mem_cons, List.not_mem_nil, or_false] at hp
      rcases hp with rfl | rfl | rfl <;> exact ⟨_, rfl⟩
    obtain ⟨t, rfl⟩ := htext
    cases hf
  obtain rfl : m' = { m with store := m.store.add (frame (["x", "y", "x"].map .text) vs 1) } := by
    cases henter
    rfl
  refine ⟨_, henter, ?_⟩
  intro s'
  -- `z` is bound again outside of the frame, which spares it
  have hs : Store.Spares 2 _ s' := .eval {} 5 _ .refl (by decide)
  have hx := (h s' hs (.text "x")).1 2 _ _ rfl rfl (Json.names_string.2 rfl) fun j q hj hlt _ => by
    exact absurd hlt (by simp [vs]; omega)
  have hy := (h s' hs (.text "y")).1 1 _ _ rfl rfl (Json.names_string.2 rfl) fun j q hj hlt hq => by
    obtain rfl : j = 2 := by
      simp [vs] at hlt
      omega
    obtain rfl : .string "x" = q := by simpa [ps] using hq
    simp [Json.names_string]
  have hz := (h s' hs (.text "z")).2 fun j q hlt hq => by
    obtain rfl | rfl | rfl : j = 0 ∨ j = 1 ∨ j = 2 := by
      simp [vs] at hlt
      omega
    all_goals
      obtain rfl := Option.some.inj hq
      simp [Json.names_string]
  exact ⟨hs, rfl, hx, hy, hz.trans rfl⟩

end Eval

end MonkeyLang
