import MonkeyLang.Proofs.Session.Discipline

/-!
# Where a `return` ends

A program and a call of a function take one `return` off their value. That is all of them as long as
no `return` is given a value that is a `return` itself (`ReturnsOnce`): main statement
`allRuns_isReturned_eq_false`. Disciplined programs are of this kind; `runText_nestedReturn` has
some that are not, and they let a `return` out.
-/

namespace MonkeyLang

/-- How many `return`s are around a value. -/
def Value.layers : Value → Nat
  | .returned v => v.layers + 1
  | _ => 0

/-- No `return` that is come to has a value that is itself on its way out. -/
def ReturnsOnce (settings : Settings) (a : Activation) : Prop :=
  ∀ b c v m, Performs settings a b → Begins settings .returnValue b c →
    c.outcome settings = .done v m → v.isReturned = false

variable {settings : Settings} {place : Place} {a b : Activation}

theorem ReturnsOnce.begun (ha : ReturnsOnce settings a) (h : Begins settings place a b) :
    ReturnsOnce settings b :=
  fun c d v m hc => ha c d v m (.head ⟨place, h⟩ hc)

/-- A `return` of a disciplined program is given a value of its own. -/
theorem disciplineContract.returnsOnce (ha : disciplineContract.Met a) : ReturnsOnce settings a := by
  have hc := disciplineContract.lawful settings
  intro b c v m hp hb hv
  have hm := hc.performs hp ha
  have hg := hc.keeps (hc.begun hb hm)
  rw [hv] at hg
  exact disciplineContract.isReturned_of_gives hb rfl hm.admits hg.2

/-! ## The contract -/

theorem Value.isReturned_eq_false_iff {v : Value} : v.isReturned = false ↔ v.layers = 0 := by
  cases v <;> simp [isReturned, layers]

theorem Value.layers_unwrapped (v : Value) : v.unwrapped.layers = v.layers - 1 := by
  cases v <;> simp [unwrapped, layers]

/-- There is at most one `return` around a value, and none where a `return` ends. -/
def returnContract (settings : Settings) : Contract where
  admits a := ReturnsOnce settings a
  gives a v := v.layers ≤ 1 ∧ (a.endsReturn = true → v.layers = 0)
  binds v := v.layers ≤ 1

theorem returnContract_lawful (settings : Settings) :
    (returnContract settings).Lawful settings where
  begins h hm := ReturnsOnce.begun hm.admits h
  kept _ _ _ _ _ hg := hg.1
  passed {place a b v} _ _ _ hg := by
    have hl : v.layers ≤ 1 := hg.1
    rw [Activation.received]
    split
    · -- one is taken off, and there is at most one
      have hu := v.layers_unwrapped
      exact ⟨by omega, fun _ => by omega⟩
    · next he => exact ⟨hl, fun h => (he h).elim⟩
  -- the only place that puts a `return` around a value: by `ReturnsOnce` it has none yet
  returned {a b v m} h ha hv _ _ := by
    have hl := Value.isReturned_eq_false_iff.1 (ha _ _ _ _ .refl h hv)
    refine ⟨by simp only [Value.layers, hl]; omega, fun he => ?_⟩
    cases h
    cases he
  bareReturn _ := ⟨Nat.le_refl 1, nofun⟩
  found _ hb := ⟨hb, nofun⟩
  integer _ := ⟨Nat.zero_le 1, fun _ => rfl⟩
  string {n s scope m} _ := by cases s <;> exact ⟨Nat.zero_le 1, fun _ => rfl⟩
  function _ := ⟨Nat.zero_le 1, fun _ => rfl⟩
  length _ _ := ⟨Nat.zero_le 1, fun _ => rfl⟩
  error _ _ := ⟨Nat.zero_le 1, fun _ => rfl⟩
  null _ := ⟨Nat.zero_le 1, fun _ => rfl⟩
  boolean _ _ := ⟨Nat.zero_le 1, fun _ => rfl⟩
  word _ _ := ⟨Nat.zero_le 1, fun _ => rfl⟩
  text _ _ := ⟨Nat.zero_le 1, fun _ => rfl⟩
  datum _ _ := ⟨Nat.zero_le 1, fun _ => rfl⟩

/-- Where a `return` ends, the value is none. -/
theorem returnContract.isReturned_eq_false {v : Value} {m : Machine}
    (ha : (returnContract settings).Met a) (hb : Performs settings a b)
    (he : b.endsReturn = true) (hv : b.outcome settings = .done v m) : v.isReturned = false := by
  have hc := returnContract_lawful settings
  have hg := hc.keeps (hc.performs hb ha)
  rw [hv] at hg
  exact Value.isReturned_eq_false_iff.2 (hg.2.2 he)

namespace Session

/-- If no `return` is given a value that is itself on its way out, no program of a session and no
call of a function has a `return` as its value. -/
theorem allRuns_isReturned_eq_false (settings : Settings) (budget : Nat) (ps : List Program)
    (h : (start settings).AllRuns budget
      (fun s p => ReturnsOnce settings (s.opening s.globals p budget)) ps) :
    (start settings).AllRuns budget
      (fun s p =>
        (∀ ss v, p = .program ss → (s.run p budget).1.result = .ok v → v.isReturned = false) ∧
        ∀ n xs body scope vs m v m',
          Performs settings (s.opening s.globals p budget)
            ⟨n, .call (.function xs body scope) vs, m⟩ →
          Activation.outcome settings ⟨n, .call (.function xs body scope) vs, m⟩ = .done v m' →
          v.isReturned = false) ps := by
  have hc := returnContract_lawful settings
  have hs : (start settings).store.Binds (returnContract settings).binds :=
    start_binds Store.Binds.empty fun _ => Nat.zero_le 1
  -- both places are ones where a `return` ends
  refine (hc.allRuns hs h).mono fun s hset p _ hm => ⟨?_, ?_⟩
  · rintro ss v rfl hv
    obtain ⟨m, hv⟩ := exists_of_runIn_ok hv
    rw [hset] at hv
    exact returnContract.isReturned_eq_false hm .refl rfl hv
  · intro n xs body scope vs m v m' hp hv
    exact returnContract.isReturned_eq_false hm hp rfl hv

/-- A function that returns early, called in two programs of one session. -/
theorem allRuns_earlyReturn :
    let early : Program := .conditional (.identifier (.string "x"))
      (.block [.returnStatement (.integer 1)]) .missing
    let f : Program := .function [.string "x"]
      (.block [.expressionStatement early, .expressionStatement (.integer 2)])
    let call (b : Bool) : Program :=
      .expressionStatement (.call (.identifier (.string "f")) [.boolean b])
    let ps := [.program [.letStatement (.string "f") f, call true], .program [call false]]
    (runEach (fun s p => s.run p 50) (start {}) ps).1.map Execution.result =
        [.ok (.integer 1), .ok (.integer 2)] ∧
      (start {}).AllRuns 50 (fun s p => ReturnsOnce {} (s.opening s.globals p 50)) ps ∧
      (start {}).AllRuns 50
        (fun s p => ∀ ss v, p = .program ss → (s.run p 50).1.result = .ok v →
          v.isReturned = false) ps := by
  intro early f call ps
  -- the programs are disciplined, so no `return` has one for its value
  have hs : (start {}).store.Binds Value.IsDisciplined :=
    start_binds Store.Binds.empty fun _ => trivial
  have h : (start {}).AllRuns 50 (fun s p => ReturnsOnce {} (s.opening s.globals p 50)) ps :=
    (disciplineContract.allRuns hs (by decide)).mono fun s _ p _ => disciplineContract.returnsOnce
  exact ⟨rfl, h, (allRuns_isReturned_eq_false {} 50 ps h).mono fun s _ p _ => And.left⟩

/-- A `return` inside the value of a `return` comes out of the program, and out of a call. -/
theorem runText_nestedReturn :
    (runText {} "return if (true) \x7b return 1; \x7d;").map (fun r => r.1.result) =
        .ok (.ok (.returned (.integer 1))) ∧
      (runText {} "let f = fn() \x7b return if (true) \x7b return 1; \x7d \x7d; f() + 1").map
          (fun r => r.1.result) =
        .ok (.ok (.error (.typeMismatch .returned "+" .number))) := by
  have h₁ : parse? "return if (true) \x7b return 1; \x7d;" = some ⟨.program [.returnStatement
      (.conditional (.boolean true) (.block [.returnStatement (.integer 1)]) .missing)], []⟩ := by
    decide +kernel
  have h₂ : parse? "let f = fn() \x7b return if (true) \x7b return 1; \x7d \x7d; f() + 1" =
      some ⟨.program [.letStatement "f" (.function [] (.block [.returnStatement
          (.conditional (.boolean true) (.block [.returnStatement (.integer 1)]) .missing)])),
        .expressionStatement (.infixed (.call (.identifier "f") []) "+" (.integer 1))], []⟩ := by
    decide +kernel
  constructor
  · rw [runText, h₁]
    rfl
  · rw [runText, h₂]
    rfl

end Session

end MonkeyLang
