import MonkeyLang.Proofs.Eval.Lockstep
import MonkeyLang.Proofs.Eval.Logging
import MonkeyLang.Proofs.Session.Faults

/-!
# What the verbosity of a session changes

The verbosity decides which notes a run makes. Main statement: `Session.runIn_atVerbosity` says that
it changes nothing else, and that the notes of a lower verbosity are those of a higher one that have
a low enough level. A note can only be in the way where a function has a parameter that is no text or
a body that nests too deep to be shown; `Tree.IsTellable` excludes both.
-/

namespace MonkeyLang

/-! ## Notes in the way -/

theorem Run.note_of_halt {settings : Settings} {n : Note} {h : Halt}
    (hl : n.level ≤ settings.verbosity) (hh : n.halt? = some h) (m : Machine) :
    note settings n m = .halted h m := by
  rw [note, if_pos hl, hh]
  rfl

/-- A note that cannot be made halts the activation that comes to it. -/
theorem Activation.Notes.exists_halted {settings : Settings} {a : Activation} {n : Note} {h : Halt}
    (hn : a.Notes settings n) (hl : n.level ≤ settings.verbosity) (hh : n.halt? = some h) :
    ∃ m, a.outcome settings = .halted h m := by
  cases hn with
  | @bound k x e scope m m₁ v name hv he hx =>
    have hname : Run.ofLabel x.name m₁ = .done name m₁ := by
      rw [hx]
      rfl
    -- the name is bound by the time the note is made
    refine ⟨{ m₁ with store := m₁.store.bind scope name v }, (Run.unlessError_of_done hv he).trans ?_⟩
    rw [Run.bind_of_done hname]
    exact (Run.bind_of_done rfl).trans (Run.bind_of_halted (Run.note_of_halt hl hh _))
  | decided hv he =>
    exact ⟨_, (Run.unlessError_of_done hv he).trans (Run.bind_of_halted (Run.note_of_halt hl hh _))⟩
  | @called k ps b scope vs m hp =>
    refine ⟨m, ?_⟩
    rw [Activation.outcome_call, Eval.call_function hp]
    exact Run.bind_of_halted (Run.note_of_halt hl hh _)

/-- Settings that differ in the verbosity only do not part evaluations that end with a value. -/
theorem Activation.not_parted_of_done {s₁ s₂ : Settings} {a : Activation} {v : Value} {m : Machine}
    (hs : s₁.strictArity = s₂.strictArity) (h : a.outcome s₁ = .done v m) : ¬ a.Parted s₁ s₂ := by
  rintro ⟨b, hb, -, hp⟩
  cases hp with
  | arity hne _ => exact hne hs
  | untold hn he hh =>
    rw [Note.isExtra, Bool.and_eq_true, decide_eq_true_eq, decide_eq_true_eq] at he
    -- a halt of any part is the end of the whole, which has a value
    obtain ⟨m', hm'⟩ := hn.exists_halted he.2 hh
    have ha := hb.outcome_eq (by rw [hm']; rfl)
    rw [h, hm'] at ha
    cases ha

/-! ## Functions that can be told about -/

namespace Tree

variable {α : Type}

mutual

/-- The functions in a tree, at any depth: their parameters and their bodies. -/
def functions : Tree α → List (List α × Tree α)
  | .missing | .identifier _ | .integer _ | .string _ | .boolean _ => []
  | .function ps b => (ps, b) :: b.functions
  | .program ss | .block ss => functionsAmong ss
  | .letStatement _ e | .returnStatement e | .expressionStatement e | .prefixed _ e => e.functions
  | .infixed l _ r => l.functions ++ r.functions
  | .conditional c t e => c.functions ++ t.functions ++ e.functions
  | .call f as => f.functions ++ functionsAmong as
termination_by structural t => t

def functionsAmong : List (Tree α) → List (List α × Tree α)
  | [] => []
  | t :: ts => t.functions ++ functionsAmong ts
termination_by structural ts => ts

end

theorem functions_subset_among {ts : List (Tree α)} {t : Tree α} (h : t ∈ ts) :
    t.functions ⊆ functionsAmong ts := by
  induction ts with
  | nil => cases h
  | cons u us ih =>
    rw [functionsAmong]
    cases h with
    | head => exact List.subset_append_left _ _
    | tail _ h => exact List.subset_append_of_subset_right _ (ih h)

/-- Every function in the program has texts for parameters and a body that can be shown. -/
def IsTellable (t : Program) : Prop :=
  ∀ f ∈ t.functions, (∀ x ∈ f.1, x.text?.isSome = true) ∧ f.2.fits nestingLimit = true

theorem IsTellable.of_subset {t u : Program} (h : t.IsTellable) (hs : u.functions ⊆ t.functions) :
    u.IsTellable :=
  fun f hf => h f (hs hf)

end Tree

/-- A value that is no function, or one that can be told about. -/
def Value.IsTellable : Value → Prop
  | .returned v => v.IsTellable
  | .function ps b _ => Tree.IsTellable (.function ps b)
  | _ => True

def Task.IsTellable : Task → Prop
  | .node t _ => t.IsTellable
  | _ => True

/-- Only a function can nest too deep to be shown, and the bodies of these fit. -/
theorem Value.IsTellable.isShowable {v : Value} (h : v.IsTellable) : v.isShowable = true := by
  induction v with
  | returned v ih => exact ih h
  | function ps b scope => exact (h _ List.mem_cons_self).2
  | _ => rfl

/-- All functions that come up can be told about. -/
def tellableContract : Contract where
  admits a := a.task.IsTellable
  gives _ v := v.IsTellable
  binds v := v.IsTellable

/-- What is begun is a part of a tree, or the body of a function. -/
theorem Begins.isTellable {settings : Settings} {place : Place} {a b : Activation}
    (h : Begins settings place a b) (ha : a.task.IsTellable)
    (hf : ∀ ps body scope vs, a.task = .call (.function ps body scope) vs →
      Tree.IsTellable (.function ps body)) : b.task.IsTellable := by
  cases h with
  | programStatement ht | blockStatement ht =>
    exact Tree.IsTellable.of_subset ha (Tree.functions_subset_among ht.mem)
  | expression | letValue | returnValue | prefixOperand =>
    exact Tree.IsTellable.of_subset ha (List.Subset.refl _)
  | leftOperand | rightOperand | condition | consequence | alternative | callee =>
    refine Tree.IsTellable.of_subset ha ?_
    simp [Tree.functions]
  | argument _ _ ht =>
    exact Tree.IsTellable.of_subset ha
      (List.subset_append_of_subset_right _ (Tree.functions_subset_among ht.mem))
  | application | builtin => trivial
  | body => exact (hf _ _ _ _ rfl).of_subset (List.subset_cons_self _ _)

/-- Every part of an evaluation looks at a part of the same tree, or at the body of a function that
is bound: so its functions are among those of before. -/
theorem tellableContract_lawful (settings : Settings) : tellableContract.Lawful settings where
  begins h hm := h.isTellable hm.admits fun ps body scope vs hc => hm.callee hc
  kept _ _ _ _ _ hg := hg
  passed {place a b v} _ _ _ hg := Activation.received_of hg (by cases v <;> exact hg)
  returned _ _ _ _ hg := hg
  bareReturn _ := trivial
  found _ hb := hb
  integer _ := trivial
  string {n s scope m} _ := by cases s <;> trivial
  function ha := ha
  length _ _ := trivial
  error _ _ := trivial
  null _ := trivial
  boolean _ _ := trivial
  word _ _ := trivial
  text _ _ := trivial
  datum _ _ := trivial

/-- No note is in the way of such programs. -/
theorem Activation.Notes.halt?_eq_none {settings : Settings} {a : Activation} {n : Note}
    (hn : a.Notes settings n) (ha : tellableContract.Met a) : n.halt? = none := by
  have hc := tellableContract_lawful settings
  cases hn with
  | bound hv he _ =>
    have hg := hc.keeps (hc.begun .letValue ha)
    rw [outcome_node, hv] at hg
    exact if_pos (Value.IsTellable.isShowable hg.2)
  | @decided k c t e scope m m₁ v hv he =>
    have hg := hc.keeps (hc.begun (Begins.condition (t := t) (e := e)) ha)
    rw [outcome_node, hv] at hg
    exact if_pos (Value.IsTellable.isShowable hg.2)
  | called hp => exact Note.called_halt_eq_none (ha.supplied.1 _ List.mem_cons_self).1

/-- Two verbosities part only over a note that cannot be told, and there is none. -/
theorem tellableContract.not_parted {s₁ s₂ : Settings} {a : Activation}
    (hs : s₁.strictArity = s₂.strictArity) (ha : tellableContract.Met a) : ¬ a.Parted s₁ s₂ := by
  rintro ⟨b, hb, -, hp⟩
  cases hp with
  | arity hne _ => exact hne hs
  | untold hn _ hh =>
    rw [hn.halt?_eq_none ((tellableContract_lawful s₁).performs hb ha)] at hh
    cases hh

/-! ## Logs of two verbosities -/

def Entry.note? : Entry → Option Note
  | .printed _ => none
  | .note n => some n

namespace Log

def noteList (log : Log) : List Note :=
  log.toList.filterMap Entry.note?

theorem notes_eq_join (log : Log) :
    log.notes = String.join (log.noteList.map fun n => lineOf n.text) := by
  have h (es : List Entry) (out : String) :
      es.foldl (fun out e => out ++ entryText false true e) out =
        ((es.filterMap Entry.note?).map fun n => lineOf n.text).foldl (· ++ ·) out := by
    induction es generalizing out with
    | nil => rfl
    | cons e es ih =>
      cases e with
      | printed line => exact (ih (out ++ "")).trans (by rw [String.append_empty]; rfl)
      | note n => exact ih _
  rw [notes_eq, ← Array.foldl_toList, h]
  rfl

variable (s₁ s₂ : Settings) (log : Log)

theorem printed_shared : (log.shared s₁ s₂).printed = log.printed := by
  rw [printed_eq, printed_eq, ← Array.foldl_toList, ← Array.foldl_toList, shared,
    Array.toList_filter, List.foldl_filter]
  congr 1
  funext out e
  cases e with
  | printed line => rfl
  | note n => split <;> simp [entryText]

/-- Induction on the entries: the notes that both verbosities keep are those that are not extra. -/
theorem noteList_shared :
    (log.shared s₁ s₂).noteList = log.noteList.filter fun n => !n.isExtra s₁ s₂ := by
  rw [noteList, noteList, shared, Array.toList_filter]
  induction log.toList with
  | nil => rfl
  | cons e es ih =>
    cases e with
    | printed line => exact ih
    | note n =>
      cases hn : n.isExtra s₁ s₂ <;>
        simpa [Entry.isShared, Entry.note?, hn] using ih

end Log

/-! ## Runs at two verbosities -/

def Settings.atVerbosity (settings : Settings) (d : Nat) : Settings :=
  { settings with verbosity := d }

theorem Note.level_le (n : Note) : n.level ≤ 3 := by
  cases n <;> simp [level]

namespace Session

def atVerbosity (s : Session) (d : Nat) : Session :=
  { s with settings := s.settings.atVerbosity d }

/-- The notes that a run makes, in order. -/
def notesOf (s : Session) (scope : ScopeId) (p : Program) (budget : Nat) : List Note :=
  (evaluate s.settings p scope budget { store := s.store }).machine.log.noteList

/-- Two runs end alike: with the same result, the same scopes and the same output. -/
structure SameEnd (r r' : Execution × Session) : Prop where
  result : r.1.result = r'.1.result
  store : r.2.store = r'.2.store
  out : r.1.out = r'.1.out

/-- The note about a failure that comes out is never in the way. -/
theorem evaluate_shared {s₁ s₂ : Settings} {p : Program} {scope : ScopeId} {budget : Nat}
    {m : Machine} (hv : s₂.verbosity ≤ s₁.verbosity)
    (ha : ¬ Activation.Parted s₁ s₂ ⟨budget, .node p scope, m⟩) :
    evaluate s₂ p scope budget (m.shared s₁ s₂) =
      (evaluate s₁ p scope budget m).shared s₁ s₂ := by
  refine Run.bind_shared (Activation.outcome_shared hv ha) fun v m₁ _ _ => ?_
  cases v with
  | error f => exact Run.bind_shared (Run.note_shared hv fun _ => rfl) fun _ _ _ _ => rfl
  | _ => rfl

/-- An outcome without its extra notes ends a session as the whole outcome does, its trace apart. -/
theorem finish_shared (s s' : Session) (hs : s.tracing = true) (hs' : s'.tracing = true)
    (s₁ s₂ : Settings) (o : Outcome Value) :
    SameEnd (s'.finish (o.shared s₁ s₂)) (s.finish o) where
  result := by cases o <;> rfl
  store := by cases o <;> rfl
  out :=
    calc (s'.finish (o.shared s₁ s₂)).1.out
      _ = (o.machine.log.shared s₁ s₂).printed := (if_pos hs').trans (by cases o <;> rfl)
      _ = o.machine.log.printed := Log.printed_shared s₁ s₂ _
      _ = (s.finish o).1.out := (if_pos hs).symm

variable {s : Session} {scope : ScopeId} {p : Program} {budget d e : Nat}

theorem trace_atVerbosity (ht : s.tracing = true) :
    ((s.atVerbosity d).runIn scope p budget).1.trace =
      String.join (((s.atVerbosity d).notesOf scope p budget).map fun n => lineOf n.text) :=
  (if_pos ht).trans (Log.notes_eq_join _)

/-- If two runs are not parted, they end alike, and the less verbose one makes the notes of the
other but for those that only the other is asked for. -/
theorem sameEnd_of_not_parted (ht : s.tracing = true) (hde : d ≤ e)
    (h : ¬ (s.opening scope p budget).Parted (s.settings.atVerbosity e) (s.settings.atVerbosity d)) :
    SameEnd ((s.atVerbosity d).runIn scope p budget) ((s.atVerbosity e).runIn scope p budget) ∧
      (s.atVerbosity d).notesOf scope p budget = ((s.atVerbosity e).notesOf scope p budget).filter
        fun n => !n.isExtra (s.settings.atVerbosity e) (s.settings.atVerbosity d) := by
  have ho : evaluate (s.atVerbosity d).settings p scope budget { store := (s.atVerbosity d).store } =
      (evaluate (s.atVerbosity e).settings p scope budget { store := (s.atVerbosity e).store }).shared
        (s.settings.atVerbosity e) (s.settings.atVerbosity d) :=
    evaluate_shared hde h
  constructor
  · rw [runIn, ho]
    exact finish_shared (s.atVerbosity e) (s.atVerbosity d) ht ht _ _ _
  · rw [notesOf, ho]
    refine Eq.trans ?_ (Log.noteList_shared _ _ _)
    cases evaluate (s.atVerbosity e).settings p scope budget { store := (s.atVerbosity e).store } <;> rfl

/-- Above the greatest level there is nothing more to tell. -/
theorem notesOf_of_three_le (ht : s.tracing = true) (hd : 3 ≤ d) :
    (s.atVerbosity 3).notesOf scope p budget = (s.atVerbosity d).notesOf scope p budget := by
  have hextra (n : Note) :
      n.isExtra (s.settings.atVerbosity d) (s.settings.atVerbosity 3) = false := by
    have : ¬ 3 < n.level := Nat.not_lt.2 n.level_le
    simp [Note.isExtra, Settings.atVerbosity, this]
  have hparted : ¬ (s.opening scope p budget).Parted (s.settings.atVerbosity d)
      (s.settings.atVerbosity 3) := by
    rintro ⟨b, -, -, hp⟩
    cases hp with
    | arity hne _ => exact hne rfl
    | @untold _ n _ _ he _ => cases (hextra n).symm.trans he
  rw [(sameEnd_of_not_parted ht hd hparted).2]
  exact List.filter_eq_self.2 fun n _ => by rw [hextra n]; rfl

/-- The notes of a run are those of the most verbose one up to the level, if the runs are not
parted. -/
theorem notesOf_eq_filter (ht : s.tracing = true)
    (h : ¬ (s.opening scope p budget).Parted (s.settings.atVerbosity 3) (s.settings.atVerbosity d)) :
    (s.atVerbosity d).notesOf scope p budget =
      ((s.atVerbosity 3).notesOf scope p budget).filter fun n => n.level ≤ d := by
  by_cases hd : d ≤ 3
  · rw [(sameEnd_of_not_parted ht hd h).2]
    refine List.filter_congr fun n _ => ?_
    have hn : n.isExtra (s.settings.atVerbosity 3) (s.settings.atVerbosity d) =
        decide (d < n.level) := by
      show (decide (d < n.level) && decide (n.level ≤ 3)) = decide (d < n.level)
      rw [decide_eq_true n.level_le, Bool.and_true]
    rw [hn, ← decide_not, decide_eq_decide, Nat.not_lt]
  · have hd : 3 ≤ d := Nat.le_of_not_le hd
    rw [← notesOf_of_three_le ht hd]
    refine (List.filter_eq_self.2 fun n _ => ?_).symm
    simpa using Nat.le_trans n.level_le hd

/-- The verbosity does not change a run that has a value, and it selects the notes by their level.
That holds of all runs, with a value or not, if every function can be told about. -/
theorem runIn_atVerbosity (s : Session) (ht : s.tracing = true) (scope : ScopeId) (p : Program)
    (budget d : Nat) :
    let run (k : Nat) := (s.atVerbosity k).runIn scope p budget
    let notes (k : Nat) := (s.atVerbosity k).notesOf scope p budget
    (run d).1.trace = String.join ((notes d).map fun n => lineOf n.text) ∧
    (∀ v, (run d).1.result = .ok v → SameEnd (run 0) (run d)) ∧
    (∀ v, (run 3).1.result = .ok v → notes d = (notes 3).filter fun n => n.level ≤ d) ∧
    (p.IsTellable → s.store.Binds Value.IsTellable →
      SameEnd (run 0) (run d) ∧ notes d = (notes 3).filter fun n => n.level ≤ d) := by
  intro run notes
  refine ⟨trace_atVerbosity ht, fun v hv => ?_, fun v hv => ?_, fun hp hs => ?_⟩
  · obtain ⟨m, hm⟩ := exists_of_runIn_ok hv
    exact (sameEnd_of_not_parted ht d.zero_le (Activation.not_parted_of_done rfl hm)).1
  · obtain ⟨m, hm⟩ := exists_of_runIn_ok hv
    exact notesOf_eq_filter ht (Activation.not_parted_of_done rfl hm)
  · have hm : tellableContract.Met (s.opening scope p budget) := Contract.Lawful.met_opening hs hp
    exact ⟨(sameEnd_of_not_parted ht d.zero_le (tellableContract.not_parted rfl hm)).1,
      notesOf_eq_filter ht (tellableContract.not_parted rfl hm)⟩

/-- A function is bound and called, it prints its argument, and then a truth value is negated as if
it were a number: five notes, of which a verbosity of two keeps three. -/
theorem runIn_atVerbosity_failing :
    let puts (es : List Program) : Program := .call (.identifier (.string "puts")) es
    let x : Program := .identifier (.string "x")
    let f : Program := .function [.string "x"] (.block [.expressionStatement
      (.conditional x (.block [.expressionStatement (puts [x])]) .missing)])
    let p : Program := .program
      [.letStatement (.string "f") f,
        .expressionStatement (.call (.identifier (.string "f")) [.integer 1]),
        .expressionStatement (.prefixed (.string "-") (.boolean true))]
    let run (k : Nat) := ((start {}).atVerbosity k).runIn 1 p 20
    let notes (k : Nat) := ((start {}).atVerbosity k).notesOf 1 p 20
    (start {}).tracing = true ∧ p.IsTellable ∧ (start {}).store.Binds Value.IsTellable ∧
      (run 2).1.result = .ok (.error (.unknownPrefix "-" .boolean)) ∧ SameEnd (run 0) (run 2) ∧
      notes 2 = (notes 3).filter (fun n => n.level ≤ 2) ∧
      (notes 3).map Note.level = [2, 2, 3, 3, 1] := by
  intro puts x f p run notes
  -- one function, whose parameter is a text
  have hp : p.IsTellable := by
    intro g hg
    cases hg with
    | head => exact ⟨by decide, rfl⟩
    | tail _ hg => cases hg
  have hs : (start {}).store.Binds Value.IsTellable := start_binds Store.Binds.empty fun _ => trivial
  obtain ⟨he, hn⟩ := (runIn_atVerbosity (start {}) rfl 1 p 20 2).2.2.2 hp hs
  exact ⟨rfl, hp, hs, rfl, he, hn, rfl⟩

end Session

end MonkeyLang
