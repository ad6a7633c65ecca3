import MonkeyLang.Proofs.Repl.Shown

/-!
# Turns of the loop

In every turn the loop asks for a line, and does something with the line that it gets. The lines that
it keeps, in order, make up the chunks that it runs and then the buffer that it is left with: what one
turn adds to the lines that wait is a chunk or waits still (`Turn.buffer_append_kept`). Main statement:
`Repl.start_turns`.
-/

namespace MonkeyLang

namespace Repl

instance (s : State) (line : List Char) : Decidable (s.Takes line) :=
  inferInstanceAs (Decidable (s.buffer = [] → _ ∧ _))

/-! ## One turn -/

/-- The state in which the loop asks for a line, and the line that it gets, if there is one left. -/
structure Turn where
  state : State
  line : Option (List Char)

namespace Turn

/-- What the loop does. Without a line it ends. -/
def reaction (t : Turn) : Reaction :=
  match t.line with
  | none => .quit
  | some line => react t.state line

/-- What it writes behind the sign that asks for the line. -/
def said (t : Turn) : String :=
  match t.line with
  | none => "\n"
  | some _ =>
    match t.reaction with
    | .ran w => w.out
    | _ => ""

def trace (t : Turn) : String :=
  match t.reaction with
  | .ran w => w.trace
  | _ => ""

def crash (t : Turn) : Option Halt :=
  match t.reaction with
  | .ran w => w.crash
  | _ => none

/-- The state behind the turn. -/
def after (t : Turn) : State :=
  match t.reaction with
  | .quit => t.state
  | .wait s => s
  | .ran w => { session := w.session }

/-- No other turn comes behind it. -/
def isLast (t : Turn) : Bool :=
  match t.reaction with
  | .quit => true
  | .wait _ => false
  | .ran w => w.crash.isSome

/-- The chunk that is run, as its lines. -/
def chunk? (t : Turn) : Option (List (List Char)) :=
  match t.line, t.reaction with
  | some line, .ran _ => some (t.state.buffer ++ [line])
  | _, _ => none

/-- The line, but not if it is blank or ends the loop while no line waits. -/
def kept? (t : Turn) : Option (List Char) :=
  t.line.filter fun line => t.state.Takes line

/-- The loop is told to end while no line waits. -/
def Quits (t : Turn) : Prop :=
  ∃ line, t.line = some line ∧ t.state.buffer = [] ∧ Text.strip line ∈ quitWords

/-- Behind a turn that is not the last one, the line waits, or the chunk that it ends has been run. -/
theorem reaction_of_not_last {t : Turn} (h : t.isLast = false) :
    (∃ s, t.reaction = .wait s ∧ t.after = s) ∨
      ∃ w, t.reaction = .ran w ∧ w.crash = none ∧ t.after = { session := w.session } := by
  unfold isLast at h
  unfold after
  cases hr : t.reaction with
  | quit => simp [hr] at h
  | wait s => exact .inl ⟨s, rfl, rfl⟩
  | ran w => exact .inr ⟨w, rfl, by simpa [hr] using h, rfl⟩

/-- One turn loses no line: what waits and the line that is kept are a chunk, or wait. -/
theorem buffer_append_kept (t : Turn) :
    t.state.buffer ++ t.kept?.toList = t.chunk?.toList.flatten ++ t.after.buffer := by
  obtain ⟨s, _ | line⟩ := t
  · exact List.append_nil s.buffer
  · obtain ⟨he, hq, hr⟩ | ⟨he, hb, hr⟩ | ⟨ht, -, hr⟩ | ⟨ht, -, hr⟩ := react_cases s line
    · have ht : ¬ s.Takes line := fun h => (h he).1 hq
      simp [kept?, chunk?, after, reaction, hr, ht]
    · have ht : ¬ s.Takes line := fun h => (h he).2 hb
      simp [kept?, chunk?, after, reaction, hr, ht]
    · simp [kept?, chunk?, after, reaction, hr, ht]
    · simp [kept?, chunk?, after, reaction, hr, ht]

/-- A chunk is run as soon as the braces that are open are closed. -/
theorem chunk?_eq_some {t : Turn} {c : List (List Char)} (h : t.chunk? = some c) :
    ∃ line, c = t.state.buffer ++ [line] ∧ t.state.depth + lineDelta line ≤ 0 ∧
      t.reaction = .ran (runChunk t.state.session (chunkText c)) := by
  obtain ⟨s, _ | line⟩ := t
  · cases h
  · obtain ⟨-, -, hr⟩ | ⟨-, -, hr⟩ | ⟨-, -, hr⟩ | ⟨-, hd, hr⟩ := react_cases s line
    · simp [chunk?, reaction, hr] at h
    · simp [chunk?, reaction, hr] at h
    · simp [chunk?, reaction, hr] at h
    · obtain rfl : s.buffer ++ [line] = c := by simpa [chunk?, reaction, hr] using h
      exact ⟨line, rfl, hd, hr⟩

/-- The session goes on as the chunk of the turn leaves it. -/
theorem session_after (t : Turn) : t.after.session =
    (Session.runEach (fun s p => s.run p) t.state.session (t.chunk?.bind program?).toList).2 := by
  obtain ⟨s, _ | line⟩ := t
  · rfl
  · obtain ⟨-, -, hr⟩ | ⟨-, -, hr⟩ | ⟨-, -, hr⟩ | ⟨-, -, hr⟩ := react_cases s line
    · simp [chunk?, after, reaction, hr, Session.runEach]
    · simp [chunk?, after, reaction, hr, Session.runEach]
    · simp [chunk?, after, reaction, hr, Session.runEach]
    · simp [chunk?, after, reaction, hr, runChunk_session_eq]

/-- A turn breaks the loop off with the chunk that it runs, and with no other line. -/
theorem crash_eq_some_iff {t : Turn} {h : Halt} : t.crash = some h ↔
    ∃ c, t.chunk? = some c ∧ Breaks t.state.session (chunkText c) h := by
  obtain ⟨s, _ | line⟩ := t
  · simp [crash, chunk?, reaction]
  · obtain ⟨-, -, hr⟩ | ⟨-, -, hr⟩ | ⟨-, -, hr⟩ | ⟨-, -, hr⟩ := react_cases s line
    · simp [crash, chunk?, reaction, hr]
    · simp [crash, chunk?, reaction, hr]
    · simp [crash, chunk?, reaction, hr]
    · simp [crash, chunk?, reaction, hr, runChunk_crash_eq_some_iff]

theorem quits_iff (s : State) (line : List Char) :
    Quits ⟨s, some line⟩ ↔ s.buffer = [] ∧ Text.strip line ∈ quitWords := by
  simp [Quits]

theorem isLast_iff (t : Turn) : t.isLast = true ↔ t.line = none ∨ t.Quits ∨ t.crash ≠ none := by
  obtain ⟨s, _ | line⟩ := t
  · simp [isLast, reaction]
  · rw [quits_iff]
    obtain ⟨he, hq, hr⟩ | ⟨-, hb, hr⟩ | ⟨ht, -, hr⟩ | ⟨ht, -, hr⟩ := react_cases s line
    · simp [isLast, reaction, hr, he, hq]
    · -- a blank line is none of the words
      have hq : Text.strip line ∉ quitWords := by
        rw [hb]
        decide
      simp [isLast, crash, reaction, hr, hq]
    · simpa [isLast, crash, reaction, hr] using fun he => (ht he).1
    · have hq : ¬ (s.buffer = [] ∧ Text.strip line ∈ quitWords) := fun h => (ht h.1).1 h.2
      simp only [isLast, crash, reaction, hr, hq, Option.isSome_iff_ne_none, reduceCtorEq, false_or]

end Turn

/-! ## All turns -/

/-- The turns of the loop on the lines of an input. -/
def turns (s : State) : List (List Char) → List Turn
  | [] => [⟨s, none⟩]
  | line :: lines =>
    let t : Turn := ⟨s, some line⟩
    if t.isLast then [t] else t :: turns t.after lines

/-- The state that turns leave, if they begin in `s`. -/
def stateAfter (s : State) (ts : List Turn) : State :=
  ts.foldl (fun _ t => t.after) s

/-- Every turn begins in the state that the one before it left, and the first one in `s`. -/
def Chained (s : State) : List Turn → Prop
  | [] => True
  | t :: ts => t.state = s ∧ Chained t.after ts

variable {s st : State} {ls : List (List Char)} {ts : List Turn} {t : Turn}

theorem turns_chained (s : State) (ls : List (List Char)) : Chained s (turns s ls) := by
  fun_induction turns s ls with
  | case1 s => exact ⟨rfl, trivial⟩
  | case2 s line ls t hl => exact ⟨rfl, trivial⟩
  | case3 s line ls t hl ih => exact ⟨rfl, ih⟩

/-- There is a last turn. The loop has read all lines up to it, and the ones behind it are left only
if the loop ended before the input did. -/
theorem exists_last (s : State) (ls : List (List Char)) :
    ∃ (before : List Turn) (t : Turn) (rest : List (List Char)), turns s ls = before ++ [t] ∧
      (∀ u ∈ before, u.isLast = false) ∧ t.isLast = true ∧
      ls = (turns s ls).filterMap Turn.line ++ rest ∧ (t.line = none → rest = []) := by
  fun_induction turns s ls with
  | case1 s => exact ⟨[], _, [], rfl, nofun, rfl, rfl, fun _ => rfl⟩
  | case2 s line ls t hl => exact ⟨[], t, ls, rfl, nofun, hl, rfl, nofun⟩
  | case3 s line ls t hl ih =>
    obtain ⟨before, u, rest, hts, hbefore, hu, hls, hrest⟩ := ih
    refine ⟨t :: before, u, rest, congrArg (t :: ·) hts, ?_, hu, congrArg (line :: ·) hls, hrest⟩
    exact List.forall_mem_cons.2 ⟨Bool.eq_false_iff.2 hl, hbefore⟩

theorem filterMap_cons_toList {α β : Type} (f : α → Option β) (a : α) (l : List α) :
    (a :: l).filterMap f = (f a).toList ++ l.filterMap f := by
  simp only [List.filterMap_eq_flatMap_toList, List.flatMap_cons]

/-- All turns together lose no line. -/
theorem Chained.buffer_append_kept (h : Chained s ts) :
    s.buffer ++ ts.filterMap Turn.kept? =
      (ts.filterMap Turn.chunk?).flatten ++ (stateAfter s ts).buffer := by
  induction ts generalizing s with
  | nil => exact List.append_nil s.buffer
  | cons t ts ih =>
    obtain ⟨rfl, h⟩ := h
    -- the lines that the first turn leaves are there when the others begin
    rw [filterMap_cons_toList, filterMap_cons_toList, List.flatten_append, List.append_assoc]
    calc t.state.buffer ++ (t.kept?.toList ++ ts.filterMap Turn.kept?)
      _ = t.chunk?.toList.flatten ++ (t.after.buffer ++ ts.filterMap Turn.kept?) := by
        rw [← List.append_assoc, t.buffer_append_kept, List.append_assoc]
      _ = _ := congrArg _ (ih h)

/-- The session is the one that the programs of the chunks leave. -/
theorem Chained.session_stateAfter (h : Chained s ts) :
    (stateAfter s ts).session = (Session.runEach (fun s p => s.run p) s.session
      ((ts.filterMap Turn.chunk?).filterMap program?)).2 := by
  induction ts generalizing s with
  | nil => rfl
  | cons t ts ih =>
    obtain ⟨rfl, h⟩ := h
    have hs : (stateAfter t.state (t :: ts)).session = (stateAfter t.after ts).session := rfl
    rw [hs, ih h, t.session_after, filterMap_cons_toList]
    cases hc : t.chunk? with
    | none => rfl
    | some c =>
      simp only [Option.bind_some, Option.toList_some, List.singleton_append, List.filterMap_cons]
      cases program? c <;> rfl

/-- The loop writes in its turns, and nothing else. -/
theorem converse_eq (s : State) (ls : List (List Char)) :
    converse s ls =
      { out := String.join ((turns s ls).map fun t => t.state.prompt ++ t.said),
        trace := String.join ((turns s ls).map Turn.trace),
        crash := (turns s ls).findSome? Turn.crash } := by
  fun_induction turns s ls with
  | case1 s => simp [converse, Turn.said, Turn.trace, Turn.crash, Turn.reaction]
  | case2 s line ls t hl =>
    -- the loop was told to end, or it crashed
    have ht : t.reaction = react s line := rfl
    rw [converse]
    cases hr : react s line with
    | quit => simp [t, Turn.said, Turn.trace, Turn.crash, Turn.reaction, hr]
    | wait next => simp [Turn.isLast, ht, hr] at hl
    | ran w =>
      obtain ⟨h, hc⟩ : ∃ h, w.crash = some h := by
        simpa [Turn.isLast, ht, hr, Option.isSome_iff_exists] using hl
      simp [t, Turn.said, Turn.trace, Turn.crash, Turn.reaction, hr, hc]
  | case3 s line ls t hl ih =>
    have ht : t.reaction = react s line := rfl
    rw [converse]
    obtain ⟨next, hr, hn⟩ | ⟨w, hr, hc, hn⟩ := Turn.reaction_of_not_last (Bool.eq_false_iff.2 hl)
    · rw [ht] at hr
      rw [hn] at ih ⊢
      simp [t, ih, Transcript.after, Turn.said, Turn.trace, Turn.crash, Turn.reaction, hr]
    · rw [ht] at hr
      rw [hn] at ih ⊢
      simp [t, ih, Transcript.after, Turn.said, Turn.trace, Turn.crash, Turn.reaction, hr, hc]

/-! ## The lines that wait -/

/-- More braces are open than closed behind each of the lines. -/
def IsOpen (ls : List (List Char)) : Prop :=
  ∀ p, p <+: ls → p ≠ [] → 0 < (p.map lineDelta).sum

theorem isOpen_nil : IsOpen [] :=
  fun _ hp hne => absurd (List.prefix_nil.1 hp) hne

/-- The shortest run of lines that leaves no brace open. -/
structure IsChunk (c : List (List Char)) : Prop where
  ne_nil : c ≠ []
  sum_le : (c.map lineDelta).sum ≤ 0
  shortest : ∀ p, p <+: c → p ≠ [] → p ≠ c → 0 < (p.map lineDelta).sum

theorem Passes.trans {ms : List (List Char)} {s' : State} (h : Passes s ls s')
    (h' : Passes s' ms st) : Passes s (ls ++ ms) st := by
  induction h' with
  | start => rwa [List.append_nil]
  | wait _ hw ih =>
    rw [← List.append_assoc]
    exact .wait ih hw
  | ran _ hw hc ih =>
    rw [← List.append_assoc]
    exact .ran ih hw hc

/-- Through a turn that is not the last one the loop passes to the state behind it. -/
theorem Turn.passes {line : List Char} (h : Turn.isLast ⟨s, some line⟩ = false) :
    Passes s [line] (Turn.after ⟨s, some line⟩) := by
  obtain ⟨next, hr, hn⟩ | ⟨w, hr, hc, hn⟩ := reaction_of_not_last h
  · rw [hn]
    exact .wait .start hr
  · rw [hn]
    exact .ran .start hr hc

/-- The loop passes to the state of every turn. -/
theorem exists_passes_of_mem_turns (h : t ∈ turns s ls) : ∃ read, Passes s read t.state := by
  fun_induction turns s ls with
  | case1 s =>
    obtain rfl := List.mem_singleton.1 h
    exact ⟨[], .start⟩
  | case2 s line ls u hl =>
    obtain rfl := List.mem_singleton.1 h
    exact ⟨[], .start⟩
  | case3 s line ls u hl ih =>
    obtain rfl | h := List.mem_cons.1 h
    · exact ⟨[], .start⟩
    · obtain ⟨read, hread⟩ := ih h
      exact ⟨_, (Turn.passes (Bool.eq_false_iff.2 hl)).trans hread⟩

/-- Behind each of the lines that wait, more braces are open than closed. -/
theorem Passes.isOpen {session : Session} (h : Passes { session } ls st) : IsOpen st.buffer := by
  induction h with
  | start => exact isOpen_nil
  | @wait ls line s₁ s₂ hs₁ hw ih =>
    obtain ⟨-, -, hr⟩ | ⟨-, -, hr⟩ | ⟨-, hd, hr⟩ | ⟨-, -, hr⟩ := react_cases s₁ line <;>
      rw [hr] at hw <;> cases hw
    · exact ih
    · -- all lines together have the depth that was counted, fewer of them waited before
      intro p hp hne
      obtain rfl | hp := List.prefix_concat_iff.1 hp
      · rw [sum_lineDelta_concat, ← hs₁.counts.depth_eq]
        exact hd
      · exact ih p hp hne
  | ran _ _ _ _ => exact isOpen_nil

/-- What is run is the shortest run of lines that can be. -/
theorem Turn.isChunk {c : List (List Char)} (hc : t.state.Counts) (ho : IsOpen t.state.buffer)
    (h : t.chunk? = some c) : IsChunk c := by
  obtain ⟨line, rfl, hd, -⟩ := chunk?_eq_some h
  refine ⟨List.append_ne_nil_of_right_ne_nil _ (List.cons_ne_nil _ _), ?_, fun p hp hne hshort => ?_⟩
  · rw [sum_lineDelta_concat, ← hc.depth_eq]
    exact hd
  · exact ho p ((List.prefix_concat_iff.1 hp).resolve_left hshort) hne

/-- The last turn leaves the lines that wait, or none. -/
theorem Turn.isOpen_after (h : t.isLast = true) (ho : IsOpen t.state.buffer) :
    IsOpen t.after.buffer := by
  unfold after
  cases hr : t.reaction with
  | quit => exact ho
  | wait s => simp [isLast, hr] at h
  | ran w => exact isOpen_nil

theorem State.Counts.buffer_eq_nil_iff (h : s.Counts) : s.buffer = [] ↔ s.depth = 0 := by
  constructor
  · intro he
    rw [h.depth_eq, he]
    rfl
  · intro hd
    by_contra hne
    exact absurd (h.depth_pos hne) (by omega)

theorem State.prompt_eq (s : State) :
    (s.prompt = ">> " ↔ s.buffer = []) ∧ (s.prompt = ".. " ↔ s.buffer ≠ []) := by
  unfold prompt
  cases s.buffer with
  | nil => decide
  | cons l ls => simp

/-- The loop keeps account of its lines. The lines that it reads, less the blank ones outside of a
chunk, are the lines of the chunks that it runs and then those that wait at the end; a chunk is the
shortest run of lines that leaves no brace open. Whenever the loop asks for a line, the depth is zero
just if no line waits, and the sign tells the same. The session at the end is the one that the
programs of the chunks without mistakes leave. The loop is broken off only by a chunk that `Breaks`
it, and in a session of program texts that chunk nests too deep to be read, or its value to be
shown. -/
theorem start_turns (session : Session) (input : String) :
    let lines := Text.lines input.toList
    let ts := turns { session } lines
    let chunks := ts.filterMap Turn.chunk?
    -- all that is written are the signs that ask for a line and what is said behind them
    Repl.start session input =
      { out := String.join (ts.map fun t => t.state.prompt ++ t.said),
        trace := String.join (ts.map Turn.trace),
        crash := ts.findSome? Turn.crash } ∧
    -- whenever a line is asked for, the depth and the sign tell of the lines that wait
    (∀ t ∈ ts, (t.state.buffer = [] ↔ t.state.depth = 0) ∧
      (t.state.buffer ≠ [] →
        t.state.depth = (t.state.buffer.map lineDelta).sum ∧ 0 < t.state.depth) ∧
      (t.state.prompt = ">> " ↔ t.state.buffer = []) ∧
      (t.state.prompt = ".. " ↔ t.state.buffer ≠ [])) ∧
    -- the lines are read up to the end of the input or the word that ends the loop, or to its crash
    (∃ (before : List Turn) (t : Turn) (rest : List (List Char)), ts = before ++ [t] ∧
      lines = ts.filterMap Turn.line ++ rest ∧
      (∀ u ∈ before, u.line ≠ none ∧ ¬ u.Quits ∧ u.crash = none) ∧
      (t.line = none ∧ rest = [] ∨ t.Quits ∨ t.crash ≠ none)) ∧
    -- those that are kept are the lines of the chunks, and the ones that wait at the end
    ts.filterMap Turn.kept? = chunks.flatten ++ (stateAfter { session } ts).buffer ∧
    (∀ c ∈ chunks, IsChunk c) ∧ IsOpen (stateAfter { session } ts).buffer ∧
    (∀ t ∈ ts, ∀ c, t.chunk? = some c →
      t.reaction = .ran (runChunk t.state.session (chunkText c))) ∧
    (stateAfter { session } ts).session =
      (Session.runEach (fun s p => s.run p) session (chunks.filterMap program?)).2 ∧
    -- a turn breaks the loop off where its chunk does, for which there are few reasons
    (∀ t ∈ ts, ∀ h, t.crash = some h ↔
      ∃ c, t.chunk? = some c ∧ Breaks t.state.session (chunkText c) h) ∧
    (session.store.Binds Value.IsIntact → ∀ t ∈ ts, ∀ h, t.crash = some h ↔
      h = .tooDeep ∧ ∃ c, t.chunk? = some c ∧ NestsTooDeep t.state.session (chunkText c)) := by
  intro lines ts chunks
  have hchained : Chained { session } ts := turns_chained _ _
  have hpasses (t : Turn) (ht : t ∈ ts) : t.state.Counts ∧ IsOpen t.state.buffer := by
    obtain ⟨read, h⟩ := exists_passes_of_mem_turns ht
    exact ⟨h.counts, h.isOpen⟩
  obtain ⟨before, t, rest, (hts : ts = _), hbefore, hlast, hlines, hrest⟩ :=
    exists_last { session } lines
  refine ⟨converse_eq _ _, fun t ht => ?_, ?_, hchained.buffer_append_kept, ?_, ?_, ?_,
    hchained.session_stateAfter, fun _ _ _ => Turn.crash_eq_some_iff, fun hs t ht h => ?_⟩
  · obtain ⟨hc, -⟩ := hpasses t ht
    exact ⟨hc.buffer_eq_nil_iff, fun hne => ⟨hc.depth_eq, hc.depth_pos hne⟩, t.state.prompt_eq⟩
  · refine ⟨before, t, rest, hts, hlines, fun u hu => ?_, ?_⟩
    · have hu : ¬ u.isLast = true := by simp [hbefore u hu]
      simpa only [Turn.isLast_iff, not_or, not_not] using hu
    · obtain hline | h := t.isLast_iff.1 hlast
      · exact .inl ⟨hline, hrest hline⟩
      · exact .inr h
  · intro c hc
    obtain ⟨t, ht, hc⟩ := List.mem_filterMap.1 hc
    exact Turn.isChunk (hpasses t ht).1 (hpasses t ht).2 hc
  · have hafter : stateAfter { session } ts = t.after := by
      rw [hts, stateAfter, List.foldl_append]
      rfl
    have ht : t ∈ ts := hts ▸ List.mem_append_right _ List.mem_cons_self
    rw [hafter]
    exact Turn.isOpen_after hlast (hpasses t ht).2
  · intro t _ c hc
    obtain ⟨_, -, -, hr⟩ := Turn.chunk?_eq_some hc
    exact hr
  · obtain ⟨read, hread⟩ := exists_passes_of_mem_turns ht
    have hbinds : t.state.session.store.Binds Value.IsIntact := hread.binds hs
    rw [Turn.crash_eq_some_iff]
    simp only [breaks_iff_of_isIntact hbinds]
    constructor
    · rintro ⟨c, hc, rfl, hdeep⟩
      exact ⟨rfl, c, hc, hdeep⟩
    · rintro ⟨rfl, c, hc, hdeep⟩
      exact ⟨c, hc, rfl, hdeep⟩

/-- A new session binds the builtin functions only, so just what nests too deep breaks its loop off. -/
example (settings : Settings) : (Session.start settings).store.Binds Value.IsIntact :=
  Session.start_binds Store.Binds.empty fun _ => trivial

/-- Blank lines and `quit` end no chunk, and braces that are closed in one chunk open none in the
next one. -/
example :
    let lines := ["", "\x7d \x7d", "let f = fn(x) \x7b", "", "quit", "x \x7d;", ":q", "1"]
    (turns { session := .start {} } (lines.map String.toList)).filterMap Turn.chunk? =
      [["\x7d \x7d"], ["let f = fn(x) \x7b", "", "quit", "x \x7d;"]].map (·.map String.toList) := by
  decide +kernel

end Repl

end MonkeyLang
