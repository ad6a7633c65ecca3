import MonkeyLang.Proofs.Repl.Balance
import MonkeyLang.Proofs.Session.Batch
import MonkeyLang.Proofs.Session.Faults
import MonkeyLang.Proofs.Session.Repeat

/-!
# What the loop shows of a chunk

The loop shows the value of a chunk, unless the last statement of the chunk is a `let`. That is
decided by the statement alone, whether the run came to it or not. Main statement:
`Repl.runChunk_tells_iff` says that a failure is told exactly if the chunk does not end in a `let`,
and what a silent chunk came to: its `let` bound its name, or the run failed or returned before
that. `Repl.start_failedLet` has a failure that is not told.
-/

namespace MonkeyLang

/-! ## Programs that end in a `let` -/

namespace Eval

variable {inner : Evaluator} {scope : ScopeId} {settings : Settings} {n : Nat} {m : Machine}

/-- Statements behind others are come to if those complete. -/
theorem statements_append {last : Value} (hl : last.completes = true) (ss rest : List Program)
    (m : Machine) :
    statements inner scope last (ss ++ rest) m = (statements inner scope last ss >>= fun v =>
      if v.completes then statements inner scope v rest else pure v) m := by
  induction ss generalizing last m with
  | nil =>
    rw [Run.bind_of_done (show statements inner scope last [] m = .done last m from rfl), if_pos hl]
    rfl
  | cons s ss ih =>
    rw [List.cons_append, statements_cons, statements_cons]
    cases hs : inner s scope m with
    | halted h m₁ =>
      rw [Run.bind_of_halted hs, Run.bind_of_halted (Run.bind_of_halted hs)]
    | done v m₁ =>
      rw [Run.bind_of_done hs]
      cases hv : v.completes with
      | true =>
        refine (ih hv m₁).trans (Run.andThen_congr ?_)
        rw [Run.bind_of_done hs, if_pos hv]
      | false =>
        -- the first statement ends them all
        have hstop : (inner s scope >>= fun v => if v.completes then statements inner scope v ss
            else pure v) m = .done v m₁ := by
          rw [Run.bind_of_done hs, if_neg (by rw [hv]; exact Bool.false_ne_true)]
          rfl
        rw [Run.bind_of_done hstop, hv]
        rfl

theorem statements_singleton (last : Value) (s : Program) (m : Machine) :
    statements inner scope last [s] m = inner s scope m := by
  rw [statements_cons]
  cases hs : inner s scope m with
  | halted h m₁ => rw [Run.bind_of_halted hs]
  | done v m₁ =>
    rw [Run.bind_of_done hs]
    split <;> rfl

/-- The statements `ss` complete, and the statement `let x = t` behind them binds its name to `v`,
which leaves the store `s'`. -/
def BindsLast (settings : Settings) (n : Nat) (scope : ScopeId) (ss : List Program) (x : String)
    (t : Program) (m : Machine) (v : Value) (s' : Store) : Prop :=
  ∃ u m₁ m₂, statements (eval settings (n + 1)) scope .null ss m = .done u m₁ ∧
    u.completes = true ∧ eval settings n t scope m₁ = .done v m₂ ∧ v.isError = false ∧
    s' = m₂.store.bind scope (.text x) v

/-- A `let` statement has a value if its name was bound, or if its own value is a failure. -/
theorem letStatement_cases {x : String} {t : Program} {v : Value} {m' : Machine}
    (h : eval settings (n + 1) (.letStatement (.string x) t) scope m = .done v m') :
    (v = .null ∧ ∃ u m₁, eval settings n t scope m = .done u m₁ ∧ u.isError = false ∧
      m'.store = m₁.store.bind scope (.text x) u) ∨
    ∃ f, v = .error f ∧ eval settings n t scope m = .done (.error f) m' := by
  obtain ⟨he, ht⟩ | ⟨u, m₁, ht, hu, h⟩ := Run.unlessError_cases h
  · obtain ⟨f, rfl⟩ := Value.exists_eq_error he
    exact .inr ⟨f, rfl, ht⟩
  · -- the name is bound before the note about it is made
    obtain ⟨_, _, hname, h⟩ := Run.exists_of_bind h
    cases hname
    obtain ⟨_, _, hbind, h⟩ := Run.exists_of_bind h
    cases hbind
    obtain ⟨_, _, hnote, h⟩ := Run.exists_of_bind h
    cases h
    exact .inl ⟨rfl, u, m₁, ht, hu, Run.store_of_note hnote⟩

/-- A program that ends in a `let` has a value if the `let` bound its name, or if the run failed, or
if a statement before the `let` returned. -/
theorem program_let_cases {ss : List Program} {x : String} {t : Program} {v : Value} {m' : Machine}
    (h : eval settings (n + 2) (.program (ss ++ [.letStatement (.string x) t])) scope m =
      .done v m') :
    (v = .null ∧ ∃ u, BindsLast settings n scope ss x t m u m'.store) ∨
    (¬ ∃ u s', BindsLast settings n scope ss x t m u s') ∧
      ((∃ f, v = .error f) ∨
        ∃ m₁, statements (eval settings (n + 1)) scope .null ss m = .done (.returned v) m₁) := by
  obtain ⟨u, _, hu, hunwrapped⟩ := Run.exists_of_bind h
  cases hunwrapped
  rw [statements_append rfl] at hu
  obtain ⟨w, m₁, hss, hu⟩ := Run.exists_of_bind hu
  cases hw : w.completes with
  | false =>
    have hnot : ¬ ∃ u s', BindsLast settings n scope ss x t m u s' := by
      rintro ⟨u', s', w', m₂, m₃, hss', hw', -⟩
      cases hss.symm.trans hss'
      cases hw.symm.trans hw'
    rw [hw] at hu
    cases hu
    cases u with
    | error f => exact .inr ⟨hnot, .inl ⟨f, rfl⟩⟩
    | returned v => exact .inr ⟨hnot, .inr ⟨m', hss⟩⟩
    | _ => cases hw
  | true =>
    -- the run has come to the `let`
    rw [if_pos hw, statements_singleton] at hu
    obtain ⟨rfl, w', m₂, ht, hw', hs⟩ | ⟨f, rfl, ht⟩ := letStatement_cases hu
    · exact .inl ⟨rfl, w', w, m₁, m₂, hss, hw, ht, hw', hs⟩
    · refine .inr ⟨?_, .inl ⟨f, rfl⟩⟩
      rintro ⟨u', s', w', m₂, m₃, hss', -, ht', hu', -⟩
      cases hss.symm.trans hss'
      cases ht.symm.trans ht'
      cases hu'

end Eval

namespace Session

/-- A run of `ss` and `let x = t` in the session comes to the `let`, which binds its name to `v` and
leaves the store `s'`. -/
def BindsLast (s : Session) (ss : List Code) (x : String) (t : Code) : Value → Store → Prop :=
  Eval.BindsLast s.settings (nestingLimit - 2) s.globals (ss.map Tree.toProgram) x t.toProgram
    { store := s.store }

/-- A run of `ss` in the session comes to a statement that returns `v`. -/
def Returns (s : Session) (ss : List Code) (v : Value) : Prop :=
  ∃ m, Eval.statements (eval s.settings (nestingLimit - 1)) s.globals .null (ss.map Tree.toProgram)
    { store := s.store } = .done (.returned v) m

/-- If a run of `ss` and `let x = t` has a value, the `let` bound the name, which has the value of
`t` then; or the run failed, or returned, before that. -/
theorem run_let_cases {s : Session} {ss : List Code} {x : String} {t : Code} {v : Value}
    (hs : s.Sound)
    (hv : (s.run (Tree.program (ss ++ [.letStatement x t])).toProgram).1.result = .ok v) :
    let s' := (s.run (Tree.program (ss ++ [.letStatement x t])).toProgram).2.store
    (v = .null ∧ ∃ u, s.BindsLast ss x t u s' ∧ s'.lookup (.text x) s.globals = some u) ∨
      (¬ ∃ u s', s.BindsLast ss x t u s') ∧ ((∃ f, v = .error f) ∨ s.Returns ss v) := by
  intro s'
  -- the statements of the program, as they are evaluated
  have hprogram : (Tree.program (ss ++ [.letStatement x t])).toProgram = .program
      (ss.map Tree.toProgram ++ [.letStatement (.string x) t.toProgram]) := by
    rw [Tree.toProgram_program, List.map_append]
    rfl
  obtain ⟨m, ho⟩ := exists_of_runIn_ok hv
  have hstore : s' = m.store := by
    show (s.runIn _ _ _).2.store = _
    rw [runIn_store, ho]
    rfl
  rw [hprogram] at ho
  obtain ⟨rfl, u, hu⟩ | hnot := Eval.program_let_cases (n := nestingLimit - 2) ho
  · refine .inl ⟨rfl, u, hstore ▸ hu, ?_⟩
    obtain ⟨_, _, m₂, -, -, -, -, hbind⟩ := hu
    -- the global scope is there, so what was bound last is found in it
    have hlt : s.globals < s'.next := (hs.runIn hs.globals_lt _ nestingLimit).globals_lt
    rw [hstore, hbind, Store.next_bind] at hlt
    rw [hstore, hbind]
    exact Store.lookup_bind _ _ hlt
  · exact .inr hnot

end Session

/-! ## The loop -/

namespace Repl

variable {s st : State} {ls : List (List Char)} {session : Session} {text : String} {p : Parsed}
  {v : Value}

theorem endsInLet_iff (ss : List Code) : endsInLet (.program ss) = true ↔
    ∃ rest x t, ss = rest ++ [.letStatement x t] := by
  rw [endsInLet]
  constructor
  · intro h
    split at h
    · next x t hl =>
      obtain ⟨rest, rfl⟩ := List.getLast?_eq_some_iff.1 hl
      exact ⟨rest, x, t, rfl⟩
    · cases h
  · rintro ⟨rest, x, t, rfl⟩
    rw [List.getLast?_concat]

theorem append_lineOf_ne (out shown : String) : out ++ lineOf shown ≠ out := by
  intro h
  have hlength := congrArg String.length h
  simp [lineOf] at hlength

section

variable (hp : parse? text = some p) (hd : p.diagnostics = [])
  (hv : (session.run p.tree.toProgram).1.result = .ok v)

include hp hd hv

/-- A chunk that ends in a `let` leaves what its run left, whatever the value is. -/
theorem runChunk_of_endsInLet (he : endsInLet p.tree = true) :
    runChunk session text =
      { out := (session.run p.tree.toProgram).1.out,
        trace := (session.run p.tree.toProgram).1.trace,
        session := (session.run p.tree.toProgram).2 } := by
  simp only [runChunk, hp, hd, List.isEmpty_nil, if_true, hv, he]

/-- Any other chunk shows its value. -/
theorem runChunk_of_text {shown : String} (he : endsInLet p.tree = false)
    (ht : v.text = .ok shown) :
    runChunk session text =
      { out := (session.run p.tree.toProgram).1.out ++ lineOf shown,
        trace := (session.run p.tree.toProgram).1.trace,
        session := (session.run p.tree.toProgram).2 } := by
  simp only [runChunk, hp, hd, List.isEmpty_nil, if_true, hv, he, Bool.false_eq_true, if_false, ht]

theorem crash_of_text_error {h : Halt} (he : endsInLet p.tree = false) (ht : v.text = .error h) :
    (runChunk session text).crash = some h := by
  simp only [runChunk, hp, hd, List.isEmpty_nil, if_true, hv, he, Bool.false_eq_true, if_false, ht]

/-- A chunk that the loop goes on behind is silent exactly if it ends in a `let`. -/
theorem runChunk_out_eq_iff (hc : (runChunk session text).crash = none) :
    (runChunk session text).out = (session.run p.tree.toProgram).1.out ↔
      endsInLet p.tree = true := by
  cases he : endsInLet p.tree with
  | true =>
    rw [runChunk_of_endsInLet hp hd hv he]
    exact ⟨fun _ => rfl, fun _ => rfl⟩
  | false =>
    cases ht : v.text with
    | error h =>
      rw [crash_of_text_error hp hd hv he ht] at hc
      cases hc
    | ok shown =>
      rw [runChunk_of_text hp hd hv he ht]
      exact ⟨fun h => absurd h (append_lineOf_ne _ _), nofun⟩

end

/-- The program of a chunk that has no mistakes. -/
def program? (chunk : List (List Char)) : Option Program :=
  match parse? (chunkText chunk) with
  | none => none
  | some p => if p.diagnostics.isEmpty then some p.tree.toProgram else none

/-- A chunk changes the session as its program does, and not at all if it has mistakes. -/
theorem runChunk_session_eq (session : Session) (c : List (List Char)) :
    (runChunk session (chunkText c)).session =
      (Session.runEach (fun s p => s.run p) session (program? c).toList).2 := by
  unfold runChunk program?
  cases parse? (chunkText c) with
  | none => rfl
  | some p =>
    dsimp only
    split
    · show _ = (session.run p.tree.toProgram).2
      split
      · split
        · rfl
        · split <;> rfl
      · rfl
      · rfl
    · rfl

theorem session_of_wait {line : List Char} (h : react s line = .wait st) :
    st.session = s.session := by
  obtain ⟨-, -, hr⟩ | ⟨-, -, hr⟩ | ⟨-, -, hr⟩ | ⟨-, -, hr⟩ := react_cases s line <;>
    rw [hr] at h <;> cases h <;> rfl

theorem eq_runChunk_of_ran {line : List Char} {w : Written} (h : react s line = .ran w) :
    w = runChunk s.session (chunkText (s.buffer ++ [line])) := by
  obtain ⟨-, -, hr⟩ | ⟨-, -, hr⟩ | ⟨-, -, hr⟩ | ⟨-, -, hr⟩ := react_cases s line <;>
    rw [hr] at h <;> cases h
  rfl

/-- The sessions of the loop are reached by running programs. -/
theorem Passes.reached (h : Passes s ls st) (hs : s.session.Reached) : st.session.Reached := by
  induction h with
  | start => exact hs
  | wait _ hw ih => exact session_of_wait hw ▸ ih
  | @ran ls line s₁ w _ hw _ ih =>
    show w.session.Reached
    rw [eq_runChunk_of_ran hw, runChunk_session_eq]
    cases program? (s₁.buffer ++ [line]) with
    | none => exact ih
    | some p => exact .runIn p _ ih ih.sound.globals_lt

/-- Why running a chunk breaks the loop off, and what it halts with: the text nests too deep to be
read, or its program halts and does not nest too deep, which the loop would only tell, or the value
is to be shown and cannot be. -/
inductive Breaks (session : Session) (text : String) : Halt → Prop where
  | unread : parse? text = none → Breaks session text .tooDeep
  | halted {p : Parsed} {h : Halt} : parse? text = some p → p.diagnostics = [] →
      (session.run p.tree.toProgram).1.result = .error h → h ≠ .tooDeep → Breaks session text h
  | unshown {p : Parsed} {v : Value} {h : Halt} : parse? text = some p → p.diagnostics = [] →
      (session.run p.tree.toProgram).1.result = .ok v → endsInLet p.tree = false →
      v.text = .error h → Breaks session text h

/-- Of a run that nests too deep the loop tells, and goes on. -/
theorem crash_of_run_error {h : Halt} (hp : parse? text = some p) (hd : p.diagnostics = [])
    (hr : (session.run p.tree.toProgram).1.result = .error h) :
    (runChunk session text).crash = if h = .tooDeep then none else some h := by
  simp only [runChunk, hp, hd, hr, List.isEmpty_nil, if_true]
  cases h <;> rfl

theorem runChunk_of_diagnostics (hp : parse? text = some p) (hd : p.diagnostics ≠ []) :
    runChunk session text = { out := complaint p.messages, session } := by
  simp only [runChunk, hp, List.isEmpty_eq_false_iff.2 hd, Bool.false_eq_true, if_false]

/-- Running a chunk breaks the loop off for these reasons only. -/
theorem runChunk_crash_eq_some_iff {h : Halt} :
    (runChunk session text).crash = some h ↔ Breaks session text h := by
  constructor
  · intro hc
    cases hp : parse? text with
    | none =>
      simp only [runChunk, hp] at hc
      cases hc
      exact .unread hp
    | some p =>
      by_cases hd : p.diagnostics = []
      · cases hr : (session.run p.tree.toProgram).1.result with
        | ok v =>
          cases he : endsInLet p.tree with
          | true =>
            -- the value is not shown
            rw [runChunk_of_endsInLet hp hd hr he] at hc
            cases hc
          | false =>
            cases ht : v.text with
            | ok shown =>
              rw [runChunk_of_text hp hd hr he ht] at hc
              cases hc
            | error e =>
              rw [crash_of_text_error hp hd hr he ht] at hc
              cases hc
              exact .unshown hp hd hr he ht
        | error e =>
          rw [crash_of_run_error hp hd hr] at hc
          obtain ⟨hne, rfl⟩ : e ≠ .tooDeep ∧ e = h := by simpa using hc
          exact .halted hp hd hr hne
      -- mistakes are told, and the loop goes on
      · rw [runChunk_of_diagnostics hp hd] at hc
        cases hc
  · intro hb
    cases hb with
    | unread hp => simp only [runChunk, hp]
    | halted hp hd hr hne => rw [crash_of_run_error hp hd hr, if_neg hne]
    | unshown hp hd hv he ht => exact crash_of_text_error hp hd hv he ht

/-- A text nests too deep to be read, or it is a program whose value is to be shown and nests too
deep for that. -/
def NestsTooDeep (session : Session) (text : String) : Prop :=
  parse? text = none ∨ ∃ p v, parse? text = some p ∧ p.diagnostics = [] ∧
    (session.run p.tree.toProgram).1.result = .ok v ∧ endsInLet p.tree = false ∧
    v.isShowable = false

/-- The program of a chunk is one of a text. -/
theorem meets_of_program? {c : List (List Char)} {q : Program} (h : program? c = some q) :
    q.meets .program .program = true := by
  unfold program? at h
  cases hp : parse? (chunkText c) with
  | none => simp [hp] at h
  | some p =>
    obtain ⟨tree, ds⟩ := p
    simp only [hp, Option.ite_none_right_eq_some, List.isEmpty_iff] at h
    obtain ⟨rfl, ⟨⟩⟩ := h
    have ha : IsAccepted tree := ⟨chunkText c, .inl ⟨nestingLimit, hp⟩⟩
    exact (Tree.meets_mapLabels _ _ _ tree).trans ha.isIntact

/-- Where only values of program texts are bound, the loop is broken off just by what nests too
deep. -/
theorem breaks_iff_of_isIntact (hs : session.store.Binds Value.IsIntact) (c : List (List Char))
    {h : Halt} :
    Breaks session (chunkText c) h ↔ h = .tooDeep ∧ NestsTooDeep session (chunkText c) := by
  have hc := intactContract_lawful session.settings
  -- the chunk is a program text, run where only values of such texts are bound
  have met {p : Parsed} (hp : parse? (chunkText c) = some p) (hd : p.diagnostics = []) :
      intactContract.Met (session.opening session.globals p.tree.toProgram nestingLimit) := by
    have hprogram : program? c = some p.tree.toProgram := by
      simp only [program?, hp, hd, List.isEmpty_nil, if_true]
    exact Contract.Lawful.met_opening hs ⟨.program, meets_of_program? hprogram⟩
  constructor
  · rintro (hp | ⟨hp, hd, hr, hne⟩ | ⟨hp, hd, hv, he, ht⟩)
    · exact ⟨rfl, .inl hp⟩
    -- such a run halts for its depth only
    · exact absurd (hc.stops_of_runIn_error (met hp hd) hr) hne
    · have hi : Value.IsIntact _ := hc.gives_of_runIn_ok (met hp hd) hv
      obtain ⟨rfl, hshow⟩ := hi.text_eq_error_iff.1 ht
      exact ⟨rfl, .inr ⟨_, _, hp, hd, hv, he, hshow⟩⟩
  · rintro ⟨rfl, hp | ⟨p, v, hp, hd, hv, he, hshow⟩⟩
    · exact .unread hp
    · have hi : Value.IsIntact v := hc.gives_of_runIn_ok (met hp hd) hv
      exact .unshown hp hd hv he (hi.text_eq_error_iff.2 ⟨rfl, hshow⟩)

/-- The loop only binds values of program texts, if there are no others when it begins. -/
theorem Passes.binds (h : Passes s ls st) (hs : s.session.store.Binds Value.IsIntact) :
    st.session.store.Binds Value.IsIntact := by
  induction h with
  | start => exact hs
  | wait _ hw ih => exact session_of_wait hw ▸ ih
  | @ran ls line s₁ w _ hw _ ih =>
    show w.session.store.Binds _
    rw [eq_runChunk_of_ran hw, runChunk_session_eq]
    cases hp : program? (s₁.buffer ++ [line]) with
    | none => exact ih
    | some p =>
      exact (intactContract_lawful _).binds_runIn ih ⟨.program, meets_of_program? hp⟩

/-- In every state of the loop, a failure that a chunk ends in is told exactly if the chunk does not
end in a `let`; and the loop is silent about a value exactly if the chunk ends in a `let`. Such a
chunk has bound the name of its `let`, or it failed or returned before that. -/
theorem runChunk_tells_iff (hs : s.session.Reached) (h : Passes s ls st)
    (hp : parse? text = some p) (hd : p.diagnostics = [])
    (hv : (st.session.run p.tree.toProgram).1.result = .ok v) :
    let run := st.session.run p.tree.toProgram
    let w := runChunk st.session text
    (∀ f, v = .error f → (w.out = run.1.out ++ lineOf ("ERROR: " ++ f.message) ↔
      endsInLet p.tree = false)) ∧
    (w.crash = none → (w.out = run.1.out ↔ endsInLet p.tree = true)) ∧
    ∀ ss x t, p.tree = .program (ss ++ [.letStatement x t]) →
      (v = .null ∧ ∃ u, st.session.BindsLast ss x t u w.session.store ∧
        w.session.store.lookup (.text x) st.session.globals = some u) ∨
      (¬ ∃ u s', st.session.BindsLast ss x t u s') ∧
        ((∃ f, v = .error f) ∨ st.session.Returns ss v) := by
  intro run w
  refine ⟨?_, runChunk_out_eq_iff hp hd hv, ?_⟩
  · rintro f rfl
    cases he : endsInLet p.tree with
    | true =>
      -- a line is never empty, so it can be told whether it is there
      have hw : w = _ := runChunk_of_endsInLet hp hd hv he
      rw [hw]
      exact ⟨fun h => absurd h.symm (append_lineOf_ne _ _), nofun⟩
    | false =>
      have hw : w = _ := runChunk_of_text hp hd hv he rfl
      rw [hw]
      exact ⟨fun _ => rfl, fun _ => rfl⟩
  · intro ss x t htree
    have he : endsInLet p.tree = true := by
      rw [htree]
      exact (endsInLet_iff _).2 ⟨ss, x, t, rfl⟩
    -- nothing behind the run changes the session
    have hsession : w.session = run.2 :=
      congrArg Written.session (runChunk_of_endsInLet hp hd hv he)
    rw [hsession]
    rw [htree] at hv
    simp only [run, htree]
    exact Session.run_let_cases (h.reached hs).sound hv

/-- After `let y = 1;` a chunk prints a name that is bound, and then fails at one that is not. -/
theorem runChunk_tells_unboundName :
    let s : Session := .start {}
    let st : State :=
      { session := (s.run (.program [.letStatement (.string "y") (.integer 1)])).2 }
    let p : Parsed := ⟨.program
      [.expressionStatement (.call (.identifier "puts") [.identifier "y"]),
        .expressionStatement (.infixed (.identifier "y") "+" (.identifier "foo"))], []⟩
    Passes { session := s } ["let y = 1;".toList] st ∧ parse? "puts(y); y + foo\n" = some p ∧
      (st.session.run p.tree.toProgram).1.result = .ok (.error (.unboundName "foo")) ∧
      (runChunk st.session "puts(y); y + foo\n").out = "1\nERROR: identifier not found: foo\n" := by
  intro s st p
  have hline : react { session := s } "let y = 1;".toList =
      .ran (runChunk s (chunkText ["let y = 1;".toList])) :=
    (react_of_takes fun _ => by decide).trans (if_neg (by decide))
  have hfirst : parse? "let y = 1;\n" = some ⟨.program [.letStatement "y" (.integer 1)], []⟩ := by
    decide +kernel
  have hchunk : chunkText ["let y = 1;".toList] = "let y = 1;\n" := by decide +kernel
  -- the first line leaves the session that the run of its `let` leaves
  have hrun := runChunk_of_endsInLet (v := .null) hfirst rfl
    (show (s.run _).1.result = _ from rfl) rfl
  rw [hchunk, hrun] at hline
  have h : Passes { session := s } ["let y = 1;".toList] st := .ran .start hline rfl
  have hp : parse? "puts(y); y + foo\n" = some p := by decide +kernel
  have hv : (st.session.run p.tree.toProgram).1.result = .ok (.error (.unboundName "foo")) := rfl
  obtain ⟨htold, -⟩ := runChunk_tells_iff (.start {} .empty) h hp rfl hv
  exact ⟨h, hp, hv, ((htold _ rfl).2 rfl).trans (by decide +kernel)⟩

/-- The value of a `let` fails: the name is not bound, and nothing is told of it. -/
theorem start_failedLet :
    let s : Session := .start {}
    let p : Parsed := ⟨.program [.letStatement "x" (.identifier "foo")], []⟩
    parse? "let x = foo;\n" = some p ∧
      (s.run p.tree.toProgram).1.result = .ok (.error (.unboundName "foo")) ∧
      (s.run p.tree.toProgram).2.store.lookup (.text "x") s.globals = none ∧
      (runChunk s "let x = foo;\n").out = "" ∧
      (Repl.start s "let x = foo;\n").out = ">> >> \n" := by
  intro s p
  have hp : parse? "let x = foo;\n" = some p := by decide +kernel
  have hv : (s.run p.tree.toProgram).1.result = .ok (.error (.unboundName "foo")) := rfl
  refine ⟨hp, hv, rfl, ?_, by decide +kernel⟩
  rw [runChunk_of_endsInLet hp rfl hv rfl]
  rfl

end Repl

end MonkeyLang
