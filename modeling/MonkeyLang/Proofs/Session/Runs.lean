import MonkeyLang.Proofs.Eval.Contract

/-!
# Runs of a session

A run is the evaluation of one tree, its `opening`, with a note about a failure that comes out. What
a contract says of evaluation goes over to the runs of a session, one after the other
(`Contract.Lawful.allRuns`).
-/

namespace MonkeyLang

namespace Log

variable (log : Log) (n : Note)

theorem printed_push_note : Log.printed (log.push (.note n)) = log.printed := by
  simp only [Log.printed, Array.foldl_push]

theorem everything_push_note :
    Log.everything (log.push (.note n)) = log.everything ++ lineOf n.text := by
  simp only [Log.everything, Array.foldl_push]

end Log

namespace Session

variable {s : Session} {scope : ScopeId} {p : Program} {budget : Nat} {m : Machine} {v : Value}

/-- The evaluation that a run is. -/
def opening (s : Session) (scope : ScopeId) (tree : Program) (budget : Nat) : Activation :=
  ⟨budget, .node tree scope, { store := s.store }⟩

/-- The log of a run that ended with a value: a failure is noted, if the verbosity asks for it. -/
def closingLog (settings : Settings) (log : Log) : Value → Log
  | .error f => if 1 ≤ settings.verbosity then log.push (.note (.failed f)) else log
  | _ => log

/-- A run that comes to a value adds at most the note about a failure to the log. -/
theorem evaluate_of_done {settings : Settings} {m₀ : Machine}
    (h : eval settings budget p scope m₀ = .done v m) :
    evaluate settings p scope budget m₀ =
      .done v { m with log := closingLog settings m.log v } := by
  rw [evaluate, Run.bind_of_done h]
  cases v with
  | error f =>
    -- this note is never in the way
    by_cases hl : 1 ≤ settings.verbosity
    · have hn : Run.note settings (.failed f) m =
          .done () { m with log := m.log.push (.note (.failed f)) } := by
        rw [Run.note, if_pos (show (Note.failed f).level ≤ _ from hl)]
        rfl
      simp only [Run.bind_of_done hn, closingLog, if_pos hl]
      rfl
    · have hn : Run.note settings (.failed f) m = .done () m := by
        rw [Run.note, if_neg (show ¬ (Note.failed f).level ≤ _ from hl)]
        rfl
      simp only [Run.bind_of_done hn, closingLog, if_neg hl]
      rfl
  | _ => rfl

/-- How a run ends, by the end of its evaluation. -/
theorem runIn_of_done (h : (s.opening scope p budget).outcome s.settings = .done v m) :
    s.runIn scope p budget = s.finish (.done v { m with log := closingLog s.settings m.log v }) := by
  rw [runIn, evaluate_of_done h]

/-- A run halts where its evaluation does, with the log of that. -/
theorem runIn_of_halted {r : Halt}
    (h : (s.opening scope p budget).outcome s.settings = .halted r m) :
    s.runIn scope p budget = s.finish (.halted r m) := by
  rw [runIn, evaluate, Run.bind_of_halted h]

/-- A run leaves the scopes that its evaluation leaves. -/
theorem runIn_store :
    (s.runIn scope p budget).2.store =
      ((s.opening scope p budget).outcome s.settings).machine.store := by
  cases h : (s.opening scope p budget).outcome s.settings with
  | done v m => rw [runIn_of_done h]; rfl
  | halted r m => rw [runIn_of_halted h]; rfl

/-- A run has a value if its evaluation has it. -/
theorem exists_of_runIn_ok (h : (s.runIn scope p budget).1.result = .ok v) :
    ∃ m, (s.opening scope p budget).outcome s.settings = .done v m := by
  cases ho : (s.opening scope p budget).outcome s.settings with
  | done w m =>
    rw [runIn_of_done ho] at h
    cases h
    exact ⟨m, rfl⟩
  | halted r m =>
    rw [runIn_of_halted ho] at h
    cases h

/-- A run halts for the reason that its evaluation does. -/
theorem exists_of_runIn_error {r : Halt} (h : (s.runIn scope p budget).1.result = .error r) :
    ∃ m, (s.opening scope p budget).outcome s.settings = .halted r m := by
  cases ho : (s.opening scope p budget).outcome s.settings with
  | done w m =>
    rw [runIn_of_done ho] at h
    cases h
  | halted r m =>
    rw [runIn_of_halted ho] at h
    cases h
    exact ⟨m, rfl⟩

/-! ## One run after the other -/

/-- What holds of every program of a list and of the session that it is run in, if the programs are
run one after the other. -/
def AllRuns (budget : Nat) (P : Session → Program → Prop) (s : Session) : List Program → Prop
  | [] => True
  | p :: ps => P s p ∧ (s.run p budget).2.AllRuns budget P ps

/-- Programs one after the other, each by `runOne` in the session that the one before it left: what
they left behind, and the last session. -/
def runEach (runOne : Session → Program → Execution × Session) :
    Session → List Program → List Execution × Session
  | s, [] => ([], s)
  | s, p :: ps =>
    let (e, s₁) := runOne s p
    let (es, s₂) := runEach runOne s₁ ps
    (e :: es, s₂)

variable {ps : List Program}

/-- What holds of all runs may be weakened, with the settings of the session known. -/
theorem AllRuns.mono {P Q : Session → Program → Prop} (h : AllRuns budget P s ps)
    (hpq : ∀ s', s'.settings = s.settings → ∀ p ∈ ps, P s' p → Q s' p) :
    AllRuns budget Q s ps := by
  induction ps generalizing s with
  | nil => trivial
  | cons p ps ih =>
    obtain ⟨hp, hps⟩ := h
    exact ⟨hpq s rfl p List.mem_cons_self hp,
      ih hps fun s' hs q hq => hpq s' hs q (List.mem_cons_of_mem p hq)⟩

/-- What holds of programs in every session holds of them in a run after another. -/
theorem AllRuns.of_forall {P : Session → Program → Prop} (h : ∀ p ∈ ps, ∀ s, P s p) :
    AllRuns budget P s ps := by
  induction ps generalizing s with
  | nil => trivial
  | cons p ps ih =>
    obtain ⟨hp, hps⟩ := List.forall_mem_cons.1 h
    exact ⟨hp s, ih hps⟩

/-- Two ways to run programs agree on all of them if they agree on each where it is come to. -/
theorem runEach_congr {runOne : Session → Program → Execution × Session}
    (h : AllRuns budget (fun s p => runOne s p = s.run p budget) s ps) :
    runEach runOne s ps = runEach (fun s p => s.run p budget) s ps := by
  induction ps generalizing s with
  | nil => rfl
  | cons p ps ih =>
    obtain ⟨hp, hps⟩ := h
    simp only [runEach, hp, ih hps]

/-- A new session binds nothing but builtin functions and what was bound before. -/
theorem start_binds {P : Value → Prop} {settings : Settings} {store : Store} (h : store.Binds P)
    (hb : ∀ b, P (.builtin b)) : (start settings store).store.Binds P := by
  have hstandard : Scope.standard.bindings.All P := by
    intro q hq
    obtain ⟨b, -, rfl⟩ := List.mem_map.1 hq
    exact hb b
  exact (h.add hstandard).add nofun

end Session

namespace Contract.Lawful

variable {c : Contract} {s : Session} {scope : ScopeId} {p : Program} {budget : Nat}

/-- A session that binds what the contract allows can begin what it admits. -/
theorem met_opening (h : s.store.Binds c.binds) (ha : c.admits (s.opening scope p budget)) :
    c.Met (s.opening scope p budget) :=
  ⟨ha, trivial, h⟩

/-- A run binds only what the contract allows. -/
theorem binds_runIn (hc : c.Lawful s.settings) (h : s.store.Binds c.binds)
    (ha : c.admits (s.opening scope p budget)) :
    (s.runIn scope p budget).2.store.Binds c.binds := by
  rw [Session.runIn_store]
  exact (hc.keeps (met_opening h ha)).store

/-- The value that a run comes to is one that the contract gives. -/
theorem gives_of_runIn_ok {v : Value} (hc : c.Lawful s.settings)
    (hm : c.Met (s.opening scope p budget)) (hv : (s.runIn scope p budget).1.result = .ok v) :
    c.gives (s.opening scope p budget) v := by
  obtain ⟨m, ho⟩ := Session.exists_of_runIn_ok hv
  have hk := hc.keeps hm
  rw [ho] at hk
  exact hk.2

/-- A run halts for no other reason than the contract allows. -/
theorem stops_of_runIn_error {r : Halt} (hc : c.Lawful s.settings)
    (hm : c.Met (s.opening scope p budget)) (hr : (s.runIn scope p budget).1.result = .error r) :
    c.stops r := by
  obtain ⟨m, ho⟩ := Session.exists_of_runIn_error hr
  have hk := hc.keeps hm
  rw [ho] at hk
  exact hk.2

/-- Programs that are run one after the other meet the contract, if they may be begun. -/
theorem allRuns {ps : List Program} (hc : c.Lawful s.settings) (h : s.store.Binds c.binds)
    (ha : s.AllRuns budget (fun s p => c.admits (s.opening s.globals p budget)) ps) :
    s.AllRuns budget (fun s p => c.Met (s.opening s.globals p budget)) ps := by
  induction ps generalizing s with
  | nil => trivial
  | cons p ps ih =>
    obtain ⟨hp, hps⟩ := ha
    exact ⟨met_opening h hp, ih (s := (s.run p budget).2) hc (hc.binds_runIn h hp) hps⟩

end Contract.Lawful

end MonkeyLang
