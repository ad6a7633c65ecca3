import MonkeyLang.Label.Name
import MonkeyLang.Value.Basic

/-!
The names of one scope with their values, in the order in which they were first bound. Main
statement: `get?_set` says what every name has after one of them is bound.
-/

namespace MonkeyLang

/-- The bindings of one scope: names with their values, each name once. -/
abbrev Bindings := List (Name × Value)

namespace Bindings

def get? : Bindings → Name → Option Value
  | [], _ => none
  | (x, v) :: b, name => if name.same x then some v else get? b name

/-- Binds a name; a binding that it has already gets the new value. -/
def set (name : Name) (value : Value) : Bindings → Bindings
  | [] => [(name, value)]
  | (x, v) :: b => if x.same name then (x, value) :: b else (x, v) :: set name value b

/-- Binds names to values one after the other, as far as there are both. -/
def setAll (names : List Name) (values : List Value) (b : Bindings) : Bindings :=
  (names.zip values).foldl (fun b p => b.set p.1 p.2) b

/-- The names that are bound and are texts. -/
def textNames (b : Bindings) : List String :=
  b.filterMap fun p => p.1.text?

/-- After binding a name, it has its new value and the other names have their old ones. -/
theorem get?_set (name other : Name) (value : Value) (b : Bindings) :
    get? (set name value b) other = if other.same name then some value else get? b other := by
  induction b with
  | nil => rfl
  | cons p b ih =>
    obtain ⟨x, v⟩ := p
    simp only [Name.same, decide_eq_true_eq] at ih
    by_cases hx : x.key = name.key
    · simp only [set, get?, Name.same, hx, decide_true, if_true]
      split <;> rfl
    · simp only [set, get?, Name.same, hx, decide_eq_true_eq, if_false, ih]
      by_cases h : other.key = name.key
      · rw [if_pos h, if_pos h, if_neg fun e => hx (e.symm.trans h)]
      · rw [if_neg h, if_neg h]

end Bindings

end MonkeyLang
