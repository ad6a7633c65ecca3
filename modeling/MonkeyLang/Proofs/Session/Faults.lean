import MonkeyLang.Proofs.Eval.Shape
import MonkeyLang.Proofs.Grammar.Intact
import MonkeyLang.Proofs.Session.Runs

/-!
# Programs of a text never go wrong

A program that was read without a mistake has no part to miss and no label that is no text, and so
have the functions that it makes. Main statement: `allRuns_of_accepted` says that such programs only
ever halt because evaluations nest too deep, or the nodes of something that is shown.
-/

namespace MonkeyLang

/-! ## Texts for labels -/

def Json.text? : Json → Option String
  | .string s => some s
  | _ => none

/-- The demands on the programs that program text becomes. -/
def Demands.program : Demands Json :=
  .intact Json.text?

namespace Json

variable {x : Json}

theorem exists_eq_string (h : x.text?.isSome = true) : ∃ s, x = .string s := by
  cases x with
  | string s => exact ⟨s, rfl⟩
  | _ => cases h

theorem nonText?_eq_none (h : x.text?.isSome = true) : x.nonText? = none := by
  obtain ⟨s, rfl⟩ := exists_eq_string h
  rfl

theorem name_ne_error {f : LabelFault} (h : x.text?.isSome = true) : x.name ≠ .error f := by
  obtain ⟨s, rfl⟩ := exists_eq_string h
  nofun

end Json

/-- Among texts there is none that is something else. -/
theorem findSome?_nonText? {ps : List Json} (h : ∀ x ∈ ps, x.text?.isSome = true) :
    ps.findSome? Json.nonText? = none :=
  List.findSome?_eq_none_iff.2 fun x hx => Json.nonText?_eq_none (h x hx)

namespace Tree

mutual

/-- A program of a text has only texts for names. -/
theorem nonTextName?_eq_none : (t : Program) → (role : Role) → t.meets .program role = true →
    t.nonTextName? = none
  | .missing, _, _ | .integer _, _, _ | .string _, _, _ | .boolean _, _, _ => rfl
  -- a form that cannot stand in the place of its role does not meet the demands there
  | .identifier x, role, h => by
    cases role <;> first | exact Json.nonText?_eq_none h | cases h
  | .program ss, role, h | .block ss, role, h => by
    have ih := nonTextNameAmong?_eq_none ss
    cases role <;> first | exact ih _ h | cases h
  | .letStatement x e, role, h => by
    have ih := nonTextName?_eq_none e
    cases role <;> simp only [meets, Bool.and_eq_true, Bool.false_eq_true] at h
    rw [nonTextName?, ih _ h.2]
    exact Json.nonText?_eq_none h.1
  | .returnStatement e, role, h => by
    have ih := nonTextName?_eq_none e
    cases role <;> simp only [meets, Bool.or_eq_true, Bool.false_eq_true] at h
    rcases h with h | h
    · obtain rfl := eq_missing h
      rfl
    · exact ih _ h
  | .expressionStatement e, role, h => by
    have ih := nonTextName?_eq_none e
    cases role <;> first | exact ih _ h | cases h
  | .prefixed _ e, role, h => by
    have ih := nonTextName?_eq_none e
    cases role <;> simp only [meets, Bool.and_eq_true, Bool.false_eq_true] at h
    exact ih _ h.2
  | .infixed l _ r, role, h => by
    have ihl := nonTextName?_eq_none l
    have ihr := nonTextName?_eq_none r
    cases role <;> simp only [meets, Bool.and_eq_true, Bool.false_eq_true] at h
    rw [nonTextName?, ihl _ h.1.2, ihr _ h.2]
    rfl
  | .conditional c t e, role, h => by
    have ihc := nonTextName?_eq_none c
    have iht := nonTextName?_eq_none t
    have ihe := nonTextName?_eq_none e
    cases role <;> simp only [meets, Bool.and_eq_true, Bool.or_eq_true, Bool.false_eq_true] at h
    have he : e.nonTextName? = none := by
      rcases h.2 with he | he
      · obtain rfl := eq_missing he
        rfl
      · exact ihe _ he
    rw [nonTextName?, ihc _ h.1.1, iht _ h.1.2, he]
    rfl
  | .function ps b, role, h => by
    have ih := nonTextName?_eq_none b
    cases role <;> simp only [meets, Bool.and_eq_true, Bool.false_eq_true] at h
    rw [nonTextName?, findSome?_nonText? (List.all_eq_true.1 h.1), ih _ h.2]
    rfl
  | .call f as, role, h => by
    have ihf := nonTextName?_eq_none f
    have ihas := nonTextNameAmong?_eq_none as
    cases role <;> simp only [meets, Bool.and_eq_true, Bool.false_eq_true] at h
    rw [nonTextName?, ihas _ h.2, ihf _ h.1]
    rfl

/-- The same of several programs. -/
theorem nonTextNameAmong?_eq_none : (ts : List Program) → (role : Role) →
    meetsEach .program role ts = true → nonTextNameAmong? ts = none
  | [], _, _ => rfl
  | t :: ts, role, h => by
    simp only [meetsEach, Bool.and_eq_true] at h
    rw [nonTextNameAmong?, nonTextName?_eq_none t role h.1,
      nonTextNameAmong?_eq_none ts role h.2]
    rfl

end

end Tree

/-! What is asked of the programs of a text, at its literals and functions. -/

section

variable {role : Role}

namespace Tree

/-- The integers of a program text are those that a literal can have. -/
theorem range_of_meets {k : Int} (h : meets .program role (.integer k) = true) :
    0 ≤ k ∧ k ≤ Word.max := by
  cases role with
  | expression => exact of_decide_eq_true h
  | _ => cases h

/-- The strings of a program text are texts. -/
theorem text_of_meets {x : Json} (h : meets .program role (.string x) = true) :
    x.text?.isSome = true := by
  cases role with
  | expression =>
    cases x with
    | string s => rfl
    | _ => cases h
  | _ => cases h

/-- The functions of a program text have texts for parameters and a body of the text. -/
theorem parts_of_meets {ps : List Json} {b : Program}
    (h : meets .program role (.function ps b) = true) :
    (∀ x ∈ ps, x.text?.isSome = true) ∧ b.meets .program .block = true := by
  cases role <;> simp only [meets, Bool.and_eq_true, Bool.false_eq_true] at h
  exact ⟨List.all_eq_true.1 h.1, h.2⟩

end Tree

end

/-! ## The contract -/

/-- A value that a program of a text can have: a function is one of the text, and what stands in the
place of a text is one. -/
def Value.IsIntact : Value → Prop
  | .datum _ => False
  | .returned v => v.IsIntact
  | .function ps b _ => (∀ x ∈ ps, x.text?.isSome = true) ∧ b.meets .program .block = true
  | _ => True

/-- What a program of a text can come to do. -/
def Task.IsIntact : Task → Prop
  | .node t _ => ∃ role, t.meets .program role = true
  | .call .. => True
  | .builtin b vs => ∀ k, b.arity = some k → vs.length = k

theorem Value.IsIntact.unwrapped {v : Value} (h : v.IsIntact) : v.unwrapped.IsIntact := by
  cases v with
  | returned w => exact h
  | _ => exact h

/-- The text of a function of a program text is missing only where its body nests too deep. -/
theorem functionText_eq_error_iff {ps : List Json} {b : Program} {r : Halt}
    (hp : ∀ x ∈ ps, x.text?.isSome = true) (hb : b.meets .program .block = true) :
    Value.functionText ps b = .error r ↔ r = .tooDeep ∧ b.fits nestingLimit = false := by
  simp only [Value.functionText, findSome?_nonText? hp, Tree.renderProgram,
    Tree.nonTextName?_eq_none b .block hb]
  cases b.fits nestingLimit with
  | true =>
    constructor
    · rintro ⟨⟩
    · rintro ⟨-, ⟨⟩⟩
  | false =>
    constructor
    · rintro ⟨⟩
      exact ⟨rfl, rfl⟩
    · rintro ⟨rfl, -⟩
      rfl

/-- Only what nests too deep cannot be shown. -/
theorem Value.IsIntact.text_eq_error_iff {v : Value} {r : Halt} (h : v.IsIntact) :
    v.text = .error r ↔ r = .tooDeep ∧ v.isShowable = false := by
  induction v with
  | returned w ih => exact ih h
  | function ps b scope =>
    rw [isShowable, ← functionText_eq_error_iff h.1 h.2, text, content]
    cases functionText ps b with
    | ok text => simp [Except.map]
    | error e => exact Iff.rfl
  | datum j => exact h.elim
  | _ => simp [text, content, isShowable, Except.map]

/-- A note about a call is never in the way where the parameters are texts. -/
theorem Note.called_halt_eq_none {ps : List Json} {k : Nat}
    (h : ∀ x ∈ ps, x.text?.isSome = true) : (Note.called ps k).halt? = none := by
  refine List.findSome?_eq_none_iff.2 fun p hp => ?_
  rw [Json.nonText?_eq_none (h p.1 (List.fst_mem_of_mem_zipIdx hp))]
  rfl

/-- Nothing is missing and every label is a text, so nothing can go wrong but nesting. -/
def intactContract : Contract where
  admits a := a.task.IsIntact
  gives _ v := v.IsIntact
  binds v := v.IsIntact
  stops h := h = .tooDeep

/-- What a program of a text begins is so again. -/
theorem Begins.isIntact {settings : Settings} {place : Place} {a b : Activation}
    (h : Begins settings place a b) (ha : a.task.IsIntact)
    (hf : ∀ ps body scope vs, a.task = .call (.function ps body scope) vs →
      body.meets .program .block = true) : b.task.IsIntact := by
  obtain ⟨n, task, m⟩ := a
  cases task with
  | node t scope =>
    -- a node begins parts of itself, or a call
    by_cases hp : place = .application
    · subst hp
      cases h
      trivial
    · obtain ⟨role, ht⟩ := ha
      obtain ⟨u, hu, hm⟩ := h.meets ht hp
      rw [hu]
      exact ⟨_, hm⟩
  | call f vs =>
    cases h with
    | body => exact ⟨.block, hf _ _ _ _ rfl⟩
    | builtin hb => exact hb
  | builtin b vs => cases h

/-- Evaluation keeps whole what is whole, and only nesting can go wrong. -/
theorem intactContract_lawful (settings : Settings) : intactContract.Lawful settings where
  begins h hm := h.isIntact hm.admits fun ps body scope vs hc => (hm.callee hc).2
  kept _ _ _ _ _ hg := hg
  passed _ _ _ hg := Activation.received_of hg (Value.IsIntact.unwrapped hg)
  returned _ _ _ _ hg := hg
  bareReturn _ := trivial
  found _ hb := hb
  integer _ := trivial
  string {n x scope m} ha := by
    obtain ⟨role, h⟩ := ha
    obtain ⟨s, rfl⟩ := Json.exists_eq_string (Tree.text_of_meets h)
    trivial
  function ha := by
    obtain ⟨role, h⟩ := ha
    exact Tree.parts_of_meets h
  length _ _ := trivial
  error _ _ := trivial
  null _ := trivial
  boolean _ _ := trivial
  word _ _ := trivial
  text _ _ := trivial
  -- no literal of a text is a datum, so there is none to make another one of
  datum _ h := h.elim
  tooDeep := rfl
  missingNode ha := by
    obtain ⟨role, h⟩ := ha
    cases h
  -- a builtin function is only begun with as many arguments as it takes
  missingArgument ha := by cases ha 1 rfl
  letFault ha hf := by
    obtain ⟨role, h⟩ := ha
    cases role <;> simp only [Tree.meets, Bool.and_eq_true, Bool.false_eq_true] at h
    exact absurd hf (Json.name_ne_error h.1)
  identifierFault ha hf := by
    obtain ⟨role, h⟩ := ha
    cases role <;> first | exact absurd hf (Json.name_ne_error h) | cases h
  parameterFault hb hx hf := absurd hf (Json.name_ne_error (hb.1 _ hx))
  calledFault hb hh := by
    rw [Note.called_halt_eq_none hb.1] at hh
    cases hh
  shownFault hb hr := (hb.text_eq_error_iff.1 hr).1
  sumFault _ h := h.elim
  sizeFault _ h := h.elim

namespace Session

/-- The run of a whole program begins as the contract asks. -/
theorem isIntact_opening {s : Session} {cs : List Code} {p : Program} {budget : Nat}
    (h : ∀ c ∈ cs, c.isIntact = true) (hp : p ∈ cs.map Tree.toProgram) :
    intactContract.admits (s.opening s.globals p budget) := by
  obtain ⟨c, hc, rfl⟩ := List.mem_map.1 hp
  exact ⟨.program, (Tree.meets_mapLabels _ _ _ c).trans (h c hc)⟩

/-- Programs that were read without a mistake are whole, and in whatever order they are run in a
session, with whatever settings, nothing is missing where it is needed: they only halt where
something nests too deep. -/
theorem allRuns_of_accepted (settings : Settings) (budget : Nat) (cs : List Code)
    (h : ∀ c ∈ cs, IsAccepted c) :
    (∀ c ∈ cs, c.isIntact = true) ∧
    (start settings).AllRuns budget
      (fun s p =>
        (∀ r, (s.run p budget).1.result = .error r → r = .tooDeep) ∧
        ∀ a, Performs settings (s.opening s.globals p budget) a →
          (∀ scope, a.task ≠ .node .missing scope) ∧ a.task ≠ .builtin .len [])
      (cs.map Tree.toProgram) := by
  have hc := intactContract_lawful settings
  have hi : ∀ c ∈ cs, c.isIntact = true := fun c hm => (h c hm).isIntact
  have hs : (start settings).store.Binds Value.IsIntact :=
    start_binds Store.Binds.empty fun _ => trivial
  -- every run begins with a program of a text, in a session that binds values of such texts
  have hruns : (start settings).AllRuns budget
      (fun s p => intactContract.Met (s.opening s.globals p budget)) (cs.map Tree.toProgram) :=
    hc.allRuns hs (.of_forall fun p hp s => isIntact_opening hi hp)
  refine ⟨hi, hruns.mono fun s hset p _ hm => ⟨fun r hr => ?_, fun a ha => ?_⟩⟩
  · exact (intactContract_lawful s.settings).stops_of_runIn_error hm hr
  · have ha := (hc.performs ha hm).admits
    obtain ⟨n, task, m⟩ := a
    refine ⟨?_, ?_⟩
    · rintro scope ⟨⟩
      -- no role is that of a missing node, and `len` has the one argument that it takes
      obtain ⟨role, hr⟩ := ha
      cases hr
    · rintro ⟨⟩
      cases ha 1 rfl

/-- Two programs of one session: one by precedence, and one by the grammar that has a keyword for a
name and fails. -/
theorem allRuns_of_accepted_failing :
    let f : Code := .program [.letStatement "f" (.function ["x"] (.block
      [.expressionStatement (.call (.identifier "len") [.identifier "x"])]))]
    let g : Code := .program [.letStatement "fn" (.prefixed "-" (.integer 5)),
      .expressionStatement (.call (.identifier "f") [.integer 1])]
    (∀ c ∈ [f, g], IsAccepted c) ∧ (∀ c ∈ [f, g], c.isIntact = true) ∧
      (start { verbosity := 3, strictArity := true }).AllRuns 50
        (fun s p => ∀ r, (s.run p 50).1.result = .error r → r = .tooDeep)
        ([f, g].map Tree.toProgram) := by
  intro f g
  have h : ∀ c ∈ [f, g], IsAccepted c := by
    refine List.forall_mem_cons.2 ⟨⟨"let f = fn(x) \x7b len(x) \x7d", .inl ⟨nestingLimit, ?_⟩⟩,
      List.forall_mem_singleton.2 ⟨"let fn = -5; f(1)", .inr ?_⟩⟩
    · decide +kernel
    · decide +kernel
  obtain ⟨hi, hruns⟩ := allRuns_of_accepted { verbosity := 3, strictArity := true } 50 [f, g] h
  exact ⟨h, hi, hruns.mono fun s _ p _ => And.left⟩

end Session

end MonkeyLang
