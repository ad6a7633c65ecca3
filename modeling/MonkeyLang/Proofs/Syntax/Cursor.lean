import MonkeyLang.Proofs.Syntax.Reading

/-!
# Cursors over a list of tokens

What moving on does to a cursor, the order that every reader keeps a cursor in, and what the steps
that readers are made of do to it.
-/

namespace MonkeyLang

namespace Cursor

variable {c : Cursor} {t : Token} {ts : List Token}

/-- The token in hand and those to come. -/
def stream (c : Cursor) : List Token :=
  c.current :: c.upcoming

theorem advance_nil (h : c.upcoming = []) : c.advance = c := by
  rw [advance, h]

theorem advance_cons (h : c.upcoming = t :: ts) :
    c.advance = inspectPeek { c with current := t, upcoming := ts } := by
  rw [advance, h]

/-- Looking at the next token changes nothing unless that is an illegal character. -/
theorem inspectPeek_of_ne (h : nextKind c.upcoming ≠ .illegal) : c.inspectPeek = c := by
  unfold inspectPeek
  split
  · next hu =>
    rw [hu, nextKind_cons] at h
    rw [if_neg h]
  · rfl

theorem current_inspectPeek (c : Cursor) : c.inspectPeek.current = c.current := by
  unfold inspectPeek
  split
  · split <;> rfl
  · rfl

theorem upcoming_inspectPeek (c : Cursor) : c.inspectPeek.upcoming = c.upcoming := by
  unfold inspectPeek
  split
  · split <;> rfl
  · rfl

/-- After looking at the next token there is a diagnostic if that is an illegal character. -/
theorem of_diagnostics_inspectPeek (h : c.inspectPeek.diagnostics = #[]) :
    c.diagnostics = #[] ∧ nextKind c.upcoming ≠ .illegal := by
  unfold inspectPeek at h
  split at h
  · next hu =>
    split at h
    · exact absurd h (Array.push_ne_empty)
    · next hk => exact ⟨h, by rwa [hu]⟩
  · next hu => exact ⟨h, by rw [hu]; decide⟩

/-- Moving on leaves the tokens to come but the first. -/
theorem upcoming_advance (c : Cursor) : c.advance.upcoming = c.upcoming.tail := by
  cases h : c.upcoming with
  | nil => rw [advance_nil h, h]; rfl
  | cons t ts => rw [advance_cons h, upcoming_inspectPeek]; rfl

theorem current_advance (h : c.upcoming = t :: ts) : c.advance.current = t := by
  rw [advance_cons h, current_inspectPeek]

/-- Moving on takes no diagnostic back. -/
theorem of_diagnostics_advance (h : c.advance.diagnostics = #[]) : c.diagnostics = #[] := by
  cases hu : c.upcoming with
  | nil => rwa [advance_nil hu] at h
  | cons t ts =>
    rw [advance_cons hu] at h
    exact (of_diagnostics_inspectPeek h).1

theorem diagnostics_report_ne (c : Cursor) (d : Diagnostic) : (c.report d).diagnostics ≠ #[] :=
  Array.push_ne_empty

/-! ## Cursors in order -/

/-- A cursor in order: its last token is the end of the text, and the illegal characters that it
has come across are reported. -/
structure Checked (c : Cursor) : Prop where
  ends : (c.upcoming.getLastD c.current).kind = .eof
  current : c.diagnostics = #[] → c.current.kind ≠ .illegal
  next : c.diagnostics = #[] → nextKind c.upcoming ≠ .illegal

namespace Checked

/-- Looking at the next token puts a cursor in order, if it is so but for that token. -/
theorem inspectPeek (hl : (c.upcoming.getLastD c.current).kind = .eof)
    (hc : c.diagnostics = #[] → c.current.kind ≠ .illegal) : c.inspectPeek.Checked := by
  refine ⟨?_, fun h => ?_, fun h => ?_⟩
  · rw [upcoming_inspectPeek, current_inspectPeek]
    exact hl
  · rw [current_inspectPeek]
    exact hc (of_diagnostics_inspectPeek h).1
  · rw [upcoming_inspectPeek]
    exact (of_diagnostics_inspectPeek h).2

/-- Moving on keeps a cursor in order. -/
theorem advance (hc : c.Checked) : c.advance.Checked := by
  cases hu : c.upcoming with
  | nil => rwa [advance_nil hu]
  | cons t ts =>
    have hl := hc.ends
    have hn := hc.next
    rw [hu] at hl hn
    rw [advance_cons hu]
    exact .inspectPeek (by rwa [List.getLastD_cons] at hl) hn

/-- A report keeps a cursor in order. -/
theorem report (hc : c.Checked) (d : Diagnostic) : (c.report d).Checked :=
  ⟨hc.ends, fun h => absurd h (diagnostics_report_ne c d),
    fun h => absurd h (diagnostics_report_ne c d)⟩

/-- Past the last token a cursor has only the end of the text before it. -/
theorem kind_peek (hc : c.Checked) : c.peek.kind = nextKind c.upcoming := by
  unfold peek
  cases hu : c.upcoming with
  | nil =>
    have hl := hc.ends
    rw [hu] at hl
    exact hl
  | cons t ts => rfl

/-- There is a token after one that is not the end of the text. -/
theorem upcoming_eq (hc : c.Checked) (h : c.current.kind ≠ .eof) :
    c.upcoming = c.advance.stream := by
  cases hu : c.upcoming with
  | nil =>
    have hl := hc.ends
    rw [hu] at hl
    exact absurd hl h
  | cons t ts => rw [stream, current_advance hu, upcoming_advance, hu, List.tail_cons]

/-- Unless the end of the text is in hand, the tokens behind the one in hand are those after moving
on. -/
theorem stream_eq (hc : c.Checked) (h : c.current.kind ≠ .eof) :
    c.stream = c.current :: c.advance.stream :=
  congrArg _ (hc.upcoming_eq h)

end Checked

/-- The next token is of the kind `k`, and moving on takes it in hand. -/
structure Meets (c : Cursor) (k : Kind) : Prop where
  upcoming : c.upcoming = c.advance.current :: c.advance.upcoming
  kind : c.advance.current.kind = k

/-- A next token that is not the end of the text is there to be taken. -/
theorem Meets.of_nextKind {k : Kind} (h : nextKind c.upcoming = k) (hk : k ≠ .eof) :
    c.Meets k := by
  cases hu : c.upcoming with
  | nil =>
    rw [hu] at h
    exact absurd h.symm hk
  | cons t ts =>
    rw [hu] at h
    refine ⟨?_, ?_⟩
    · rw [hu, current_advance hu, upcoming_advance, hu, List.tail_cons]
    · rw [current_advance hu]
      exact h

end Cursor

/-! ## Steps of readers -/

namespace Parse

theorem bind_apply {α β : Type} (x : Parse α) (f : α → Parse β) (c : Cursor) :
    (x >>= f) c = (x c).bind fun r => f r.1 r.2 := rfl

/-- A kind is accepted by moving on, or the cursor stays. -/
theorem accept_apply (k : Kind) (c : Cursor) :
    accept k c = if c.peek.kind = k then some (true, c.advance) else some (false, c) := by
  show (if c.peek.kind = k then _ else _ : Parse Bool) c = _
  split <;> rfl

/-- A kind is expected by moving on, or the token that came instead is reported. -/
theorem expect_apply (k : Kind) (c : Cursor) :
    expect k c = if c.peek.kind = k then some (true, c.advance)
      else some (false, c.report (.wrongToken k c.peek.kind c.peek.position)) := by
  show (accept k c).bind _ = _
  rw [accept_apply]
  split <;> rfl

end Parse

/-- The program of a list of tokens is what the reader of programs gives at its start. -/
theorem parseTokens?_eq (budget : Nat) (tokens : List Token) :
    parseTokens? budget tokens =
      (Parse.program (tokens.length + 1) budget (Cursor.start tokens)).map fun r =>
        ⟨r.1, r.2.diagnostics.toList⟩ := by
  show (Parse.program _ _ _).bind _ = _
  cases Parse.program (tokens.length + 1) budget (Cursor.start tokens) <;> rfl

end MonkeyLang
