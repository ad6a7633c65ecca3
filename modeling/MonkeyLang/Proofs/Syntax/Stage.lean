import Mathlib.Logic.Relation
import MonkeyLang.Proofs.Syntax.Cursor

/-!
# The way of a reader through the tokens

Readers differ in where they turn, but all of them go in the same four steps: they take the next
token in hand, they are done with the token in hand, they report that it is out of range, or they
report a mistake (`Stage.Step`). A token is taken only after the one before it was dealt with, and
it is dealt with once. What a step keeps, every run of every reader keeps (`Stage.Path`).

Two measures follow a cursor. `ahead` counts the tokens to come before the end of the text; no step
raises it, and taking one of these tokens lowers it. `lead` weighs the tokens before the end against
the ends of the text that are taken, for a reader that goes on asking for tokens past the end gets
its last token again: `lead_advance`.
-/

namespace MonkeyLang

/-- Whether a token is an integer literal that no word holds. -/
def Token.isOutOfRange (t : Token) : Bool :=
  t.kind = .int ∧ Word.ofLiteral? t.literal = none

theorem Token.isOutOfRange_of_ne {t : Token} {k : Kind} (h : t.kind = k) (hk : k ≠ .int) :
    t.isOutOfRange = false := by
  simp [isOutOfRange, h, hk]

/-- Whether a diagnostic is about a token in itself, wherever it stands. -/
def Diagnostic.isLexical : Diagnostic → Bool
  | .illegalCharacter .. | .integerRange .. => true
  | _ => false

def liveCount (ts : List Token) : Nat :=
  ts.countP (·.kind ≠ .eof)

def endCount (ts : List Token) : Nat :=
  ts.countP (·.kind = .eof)

namespace Cursor

variable {c : Cursor} {k : Kind}

/-! ## Measures -/

/-- How many tokens are left before the end of the text, with the one in hand. -/
def left (c : Cursor) : Nat :=
  liveCount c.stream

/-- How many tokens are to come before the end of the text. -/
def ahead (c : Cursor) : Nat :=
  liveCount c.upcoming

/-- One for a token before the end of the text. -/
def weight (c : Cursor) : Nat :=
  if c.current.kind = .eof then 0 else 1

/-- The tokens left before the end of the text against the ends of the text to come. -/
def lead (c : Cursor) : Int :=
  c.left - endCount c.upcoming

theorem weight_of_ne (h : c.current.kind ≠ .eof) : c.weight = 1 :=
  if_neg h

/-- What is left is what is ahead and the token in hand. -/
theorem left_eq (c : Cursor) : c.left = c.ahead + c.weight := by
  by_cases h : c.current.kind = .eof <;> simp [left, ahead, weight, stream, liveCount, h]

/-- The token in hand is the end of the text or weighs one. -/
theorem endCount_stream (c : Cursor) : endCount c.stream + c.weight = endCount c.upcoming + 1 := by
  by_cases h : c.current.kind = .eof <;> simp [weight, stream, endCount, h]

/-- With the weight of the token in hand the lead depends on the tokens alone. -/
theorem lead_add_weight (c : Cursor) :
    c.lead + c.weight = liveCount c.stream - endCount c.stream + 1 := by
  have h := c.endCount_stream
  rw [lead, left]
  omega

/-- After moving on the tokens are those that were to come. -/
theorem stream_advance {t : Token} {ts : List Token} (hu : c.upcoming = t :: ts) :
    c.advance.stream = c.upcoming := by
  rw [stream, current_advance hu, upcoming_advance, hu]
  rfl

/-- Moving on raises the number of tokens ahead in no case. -/
theorem ahead_advance_le (c : Cursor) : c.advance.ahead ≤ c.ahead := by
  rw [ahead, upcoming_advance]
  exact (List.tail_sublist _).countP_le

/-- With nothing to come the end of the text is in hand. -/
theorem Checked.kind_of_nil (hc : c.Checked) (hu : c.upcoming = []) : c.current.kind = .eof := by
  have he := hc.ends
  rwa [hu] at he

/-- What is to come is what is left once the next token is in hand. -/
theorem Checked.left_advance (hc : c.Checked) : c.advance.left = c.ahead := by
  cases hu : c.upcoming with
  | nil =>
    rw [advance_nil hu, left_eq, weight, if_pos (hc.kind_of_nil hu)]
    rfl
  | cons t ts => rw [left, ahead, stream_advance hu]

/-- Taking a token before the end of the text leaves fewer ahead. -/
theorem Meets.ahead_lt (hm : c.Meets k) (hk : k ≠ .eof) : c.advance.ahead < c.ahead := by
  have hne : c.advance.current.kind ≠ .eof := hm.kind ▸ hk
  rw [ahead, ahead, hm.upcoming, liveCount, liveCount, List.countP_cons_of_pos (by simpa using hne)]
  exact Nat.lt_succ_self _

/-- Taking a token changes the lead by one: it falls if that token and the one before it are before
the end of the text, and it rises if neither is. -/
theorem Checked.lead_advance (hc : c.Checked) :
    c.advance.lead + c.weight + c.advance.weight ≤ c.lead + 1 := by
  cases hu : c.upcoming with
  -- The cursor stays on the end of the text, which weighs nothing.
  | nil =>
    rw [advance_nil hu, weight, if_pos (hc.kind_of_nil hu)]
    omega
  | cons t ts =>
    have hl := hc.left_advance
    have hleft := c.left_eq
    have hends := c.advance.endCount_stream
    rw [stream_advance hu] at hends
    rw [lead, lead]
    omega

end Cursor

/-! ## Steps -/

/-- Where reading stands: its cursor, and whether the token in hand was dealt with. -/
structure Stage where
  cursor : Cursor
  dealt : Bool

namespace Stage

variable {s s' : Stage}

/-- The steps that all readers go in. -/
inductive Step : Stage → Stage → Prop where
  | advance (c : Cursor) : Step ⟨c, true⟩ ⟨c.advance, false⟩
  | pass {c : Cursor} : c.current.isOutOfRange = false → Step ⟨c, false⟩ ⟨c, true⟩
  | integerRange {c : Cursor} : c.current.isOutOfRange = true →
      Step ⟨c, false⟩ ⟨c.report (.integerRange c.current.literal c.current.position), true⟩
  | mistake {c : Cursor} {b : Bool} {d : Diagnostic} : d.isLexical = false →
      Step ⟨c, b⟩ ⟨c.report d, b⟩

/-- Steps one after another. -/
abbrev Path : Stage → Stage → Prop :=
  Relation.ReflTransGen Step

theorem Step.checked (h : Step s s') (hc : s.cursor.Checked) : s'.cursor.Checked := by
  cases h with
  | advance c => exact hc.advance
  | pass _ => exact hc
  | integerRange _ | mistake _ => exact hc.report _

/-- No step raises the number of tokens ahead. -/
theorem Step.ahead_le (h : Step s s') : s'.cursor.ahead ≤ s.cursor.ahead := by
  cases h with
  | advance c => exact c.ahead_advance_le
  | pass _ | integerRange _ | mistake _ => exact Nat.le_refl _

/-- A step takes the next token in hand or none. -/
theorem Step.taken (h : Step s s') : ∃ taken : List Token,
    s.cursor.upcoming = taken ++ s'.cursor.upcoming ∧
      s'.cursor.current = taken.getLastD s.cursor.current := by
  cases h with
  | advance c =>
    cases hu : c.upcoming with
    -- past the last token nothing is taken
    | nil =>
      refine ⟨[], ?_, ?_⟩
      · rw [Cursor.upcoming_advance, hu]
        rfl
      · rw [Cursor.advance_nil hu]
        rfl
    | cons t ts =>
      refine ⟨[t], ?_, ?_⟩
      · rw [Cursor.upcoming_advance, hu]
        rfl
      · rw [Cursor.current_advance hu]
        rfl
  | pass _ | integerRange _ | mistake _ => exact ⟨[], rfl, rfl⟩

namespace Path

theorem checked (h : Path s s') (hc : s.cursor.Checked) : s'.cursor.Checked := by
  induction h with
  | refl => exact hc
  | tail _ hstep ih => exact hstep.checked ih

theorem ahead_le (h : Path s s') : s'.cursor.ahead ≤ s.cursor.ahead := by
  induction h with
  | refl => exact Nat.le_refl _
  | tail _ hstep ih => exact Nat.le_trans hstep.ahead_le ih

/-- The tokens are taken in hand in their order, each of them once. -/
theorem taken (h : Path s s') : ∃ taken : List Token,
    s.cursor.upcoming = taken ++ s'.cursor.upcoming ∧
      s'.cursor.current = taken.getLastD s.cursor.current := by
  induction h with
  | refl => exact ⟨[], rfl, rfl⟩
  | tail _ hstep ih =>
    obtain ⟨ts, hu, hc⟩ := ih
    obtain ⟨us, hu', hc'⟩ := hstep.taken
    refine ⟨ts ++ us, by rw [hu, hu', List.append_assoc], ?_⟩
    rw [hc', hc, List.getLastD_eq_getLast?, List.getLastD_eq_getLast?, List.getLastD_eq_getLast?,
      List.getLast?_append]
    cases us.getLast? <;> rfl

end Path

end Stage

end MonkeyLang
