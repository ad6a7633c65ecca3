import MonkeyLang.Proofs.Session.Faults

/-!
# Integers stay words

Every operation wraps its result, and the literals of a text are words. What is left is the length
of a text, which is not wrapped. Main statement: `allRuns_inRange` says that as long as no text is
measured whose length is no word, every integer that comes up in the programs of a session is a
word: results, arguments, operands, and what is bound in whatever scope.
-/

namespace MonkeyLang

/-- An integer, whether a `return` is around it or not, is a word. -/
def Value.InRange : Value → Prop
  | .integer n => Word.min ≤ n ∧ n ≤ Word.max
  | .returned v => v.InRange
  | _ => True

theorem Value.InRange.unwrapped {v : Value} (h : v.InRange) : v.unwrapped.InRange := by
  cases v <;> exact h

/-- The integers among what a task is given are words. -/
def Task.InRange : Task → Prop
  | .node .. => True
  | .call f vs => f.InRange ∧ ∀ v ∈ vs, v.InRange
  | .builtin _ vs => ∀ v ∈ vs, v.InRange

/-- The integers that an activation has to do with are words: those that it is given, its value, and
those that are bound when it begins and when it ends, in whatever way it ends. -/
structure Activation.InRange (settings : Settings) (a : Activation) : Prop where
  task : a.task.InRange
  store : a.machine.store.Binds Value.InRange
  outcome : (a.outcome settings).Keeps (Store.Binds Value.InRange) (fun _ => True) Value.InRange

/-- No text is measured whose length is no word. -/
def MeasuresWords (settings : Settings) (a : Activation) : Prop :=
  ∀ b s vs, Performs settings a b → b.task = .builtin .len (.string s :: vs) →
    (s.length : Int) ≤ Word.max

namespace MeasuresWords

variable {settings : Settings} {place : Place} {a b : Activation}

/-- What an activation begins performs only what the activation performs. -/
theorem begun (ha : MeasuresWords settings a) (h : Begins settings place a b) :
    MeasuresWords settings b :=
  fun c s vs hc => ha c s vs (.head ⟨place, h⟩ hc)

/-- An activation measures what it is to measure itself, and what those measure that it begins. -/
theorem of_begins (ha : ∀ s vs, a.task = .builtin .len (.string s :: vs) →
      (s.length : Int) ≤ Word.max)
    (h : ∀ place b, Begins settings place a b → MeasuresWords settings b) :
    MeasuresWords settings a := by
  intro c s vs hc hs
  obtain rfl | ⟨b, ⟨place, hb⟩, hc⟩ := hc.cases_head
  · exact ha s vs hs
  · exact h place b hb c s vs hc hs

/-- A node performs nothing itself, so it measures words if all that it begins do. -/
theorem node {n : Nat} {t : Program} {scope : ScopeId} {m : Machine}
    (h : ∀ place b, Begins settings place ⟨n, .node t scope, m⟩ b → MeasuresWords settings b) :
    MeasuresWords settings ⟨n, .node t scope, m⟩ :=
  of_begins (fun _ _ h => by cases h) h

end MeasuresWords

/-! ## The contract -/

/-- Programs of a text whose integers are all words. -/
def rangeContract (settings : Settings) : Contract where
  admits a := a.task.IsIntact ∧ MeasuresWords settings a
  gives _ v := v.IsIntact ∧ v.InRange
  binds v := v.IsIntact ∧ v.InRange

theorem Word.wrap_mem (k : Int) : Word.min ≤ Word.wrap k ∧ Word.wrap k ≤ Word.max :=
  ⟨Word.min_le_wrap k, Word.wrap_le_max k⟩

/-- The contract is kept from an activation to what it begins, and a result is in range if the
results of those are. -/
theorem rangeContract_lawful (settings : Settings) :
    (rangeContract settings).Lawful settings where
  begins h hm := by
    refine ⟨h.isIntact hm.admits.1 fun ps body scope vs hc => ?_, hm.admits.2.begun h⟩
    exact (hm.callee hc).1.2
  kept _ _ _ _ _ hg := hg
  passed _ _ _ hg := Activation.received_of hg ⟨hg.1.unwrapped, hg.2.unwrapped⟩
  returned _ _ _ _ hg := hg
  bareReturn _ := ⟨trivial, trivial⟩
  found _ hb := hb
  integer {n k scope m} ha := by
    obtain ⟨role, h⟩ := ha.1
    have hk := Tree.range_of_meets h
    exact ⟨trivial, Int.le_trans (by decide) hk.1, hk.2⟩
  string {n x scope m} ha := by
    obtain ⟨role, h⟩ := ha.1
    obtain ⟨s, rfl⟩ := Json.exists_eq_string (Tree.text_of_meets h)
    exact ⟨trivial, trivial⟩
  function ha := by
    obtain ⟨role, h⟩ := ha.1
    exact ⟨Tree.parts_of_meets h, trivial⟩
  -- the one integer that is not wrapped
  length {n k v vs m} ha h := by
    obtain ⟨s, rfl, rfl⟩ | ⟨j, rfl, hj⟩ := h
    · exact ⟨trivial, Int.le_trans (by decide) (Int.natCast_nonneg _), ha.2 _ s vs .refl rfl⟩
    · exact hj.1.elim
  error _ _ := ⟨trivial, trivial⟩
  null _ := ⟨trivial, trivial⟩
  boolean _ _ := ⟨trivial, trivial⟩
  word _ k := ⟨trivial, Word.wrap_mem k⟩
  text _ _ := ⟨trivial, trivial⟩
  datum _ h := h.1.elim

theorem rangeContract.inRange {settings : Settings} {a : Activation}
    (ha : (rangeContract settings).Met a) : a.InRange settings where
  task := by
    obtain ⟨n, task, m⟩ := a
    have hs := ha.supplied
    cases task with
    | node t scope => trivial
    | call f vs => exact ⟨hs.1.2, fun v hv => (hs.2 v hv).2⟩
    | builtin b vs => exact fun v hv => (hs v hv).2
  store := ha.store.mono fun _ => And.right
  outcome := ((rangeContract_lawful settings).keeps ha).mono
    (fun s hs => hs.mono fun _ => And.right) (fun _ => id) fun _ => And.right

namespace Session

/-- In a session of accepted programs, every integer that comes up is a word, as long as no text is
measured whose length is none. -/
theorem allRuns_inRange (settings : Settings) (budget : Nat) (cs : List Code)
    (h : ∀ c ∈ cs, IsAccepted c)
    (hl : (start settings).AllRuns budget
      (fun s p => MeasuresWords settings (s.opening s.globals p budget)) (cs.map Tree.toProgram)) :
    (start settings).AllRuns budget
      (fun s p =>
        (∀ v, (s.run p budget).1.result = .ok v → v.InRange) ∧
        (s.run p budget).2.store.Binds Value.InRange ∧
        ∀ a, Performs settings (s.opening s.globals p budget) a → a.InRange settings)
      (cs.map Tree.toProgram) := by
  have hc := rangeContract_lawful settings
  have hs : (start settings).store.Binds (rangeContract settings).binds :=
    start_binds Store.Binds.empty fun _ => ⟨trivial, trivial⟩
  have hi : ∀ c ∈ cs, c.isIntact = true := fun c hm => (h c hm).isIntact
  -- accepted programs are whole, and the texts they measure are no longer than a word
  have ha : (start settings).AllRuns budget
      (fun s p => (rangeContract settings).admits (s.opening s.globals p budget))
      (cs.map Tree.toProgram) := by
    refine hl.mono fun s _ p hp hm => ?_
    have hintact : intactContract.admits (s.opening s.globals p budget) := isIntact_opening hi hp
    exact ⟨hintact, hm⟩
  refine (hc.allRuns hs ha).mono fun s hset p _ hm => ?_
  have ho := (rangeContract.inRange hm).outcome
  have hset : settings = s.settings := hset.symm
  refine ⟨fun v hv => ?_, ?_, fun a ha => rangeContract.inRange (hc.performs ha hm)⟩
  · obtain ⟨m, hv⟩ := exists_of_runIn_ok hv
    rw [hset, hv] at ho
    exact ho.2
  · rw [run, runIn_store, ← hset]
    exact ho.store

/-- A text is measured, and the greatest word is taken from its length twice, which goes below the
least word. -/
theorem allRuns_inRange_measured :
    let greatest : Code := .integer Word.max
    let measured : Code := .call (.identifier "len") [.string "ab"]
    let c : Code := .program [.letStatement "n"
      (.infixed (.infixed measured "-" greatest) "-" greatest)]
    IsAccepted c ∧
      (start {}).AllRuns 20 (fun s p => MeasuresWords {} (s.opening s.globals p 20)) [c.toProgram] ∧
      (start {}).AllRuns 20 (fun s p => (s.run p 20).2.store.Binds Value.InRange) [c.toProgram] ∧
      ((start {}).run c.toProgram 20).2.store.lookup (.text "n") 1 = some (.integer 4) := by
  intro greatest measured c
  have hc : IsAccepted c :=
    ⟨"let n = len(\"ab\") - 9223372036854775807 - 9223372036854775807;", .inl ⟨20, by decide +kernel⟩⟩
  have hl : (start {}).AllRuns 20 (fun s p => MeasuresWords {} (s.opening s.globals p 20))
      [c.toProgram] := by
    refine ⟨?_, trivial⟩
    -- what is begun in turn: the binding, both differences, and last the call
    refine .node fun place b h => ?_
    cases h with
    | programStatement h =>
    cases h with
    | later _ _ h => cases h
    | here =>
    refine .node fun place b h => ?_
    cases h with
    | letValue =>
    refine .node fun place b h => ?_
    cases h with
    | rightOperand => exact .node fun _ _ h => by cases h
    | leftOperand =>
    refine .node fun place b h => ?_
    cases h with
    | rightOperand => exact .node fun _ _ h => by cases h
    | leftOperand =>
    refine .node fun place b h => ?_
    cases h with
    | callee => exact .node fun _ _ h => by cases h
    | argument _ _ h =>
      cases h with
      | later _ _ h => cases h
      | here => exact .node fun _ _ h => by cases h
    | application hf _ has =>
      cases hf
      cases has
      refine .of_begins (fun s vs h => by cases h) fun place b h => ?_
      cases h with
      | builtin _ hm =>
      cases hm
      exact .of_begins (fun s vs h => by cases h; decide) fun _ _ h => by cases h
  exact ⟨hc, hl, (allRuns_inRange {} 20 [c] (List.forall_mem_singleton.2 hc) hl).mono
    fun s _ p _ h => h.2.1, rfl⟩

end Session

end MonkeyLang
