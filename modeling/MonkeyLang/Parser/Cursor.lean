import MonkeyLang.Parser.Diagnostic
import MonkeyLang.Token.Basic

/-!
The place of a reader in a list of tokens. A cursor looks one token ahead and never goes back.
-/

namespace MonkeyLang

/-- Where reading a program stands: the token in hand, those to come, and the diagnostics so far.
The last token is an `eof`, on which a cursor stays. -/
structure Cursor where
  current : Token
  upcoming : List Token
  diagnostics : Array Diagnostic := #[]
  deriving Repr, Inhabited

namespace Cursor

/-- The token after the one in hand. -/
def peek (c : Cursor) : Token :=
  c.upcoming.headD c.current

def report (c : Cursor) (d : Diagnostic) : Cursor :=
  { c with diagnostics := c.diagnostics.push d }

/-- The cursor with a diagnostic for the next token, if that is an illegal character. -/
def inspectPeek (c : Cursor) : Cursor :=
  match c.upcoming with
  | t :: _ => if t.kind = .illegal then c.report (.illegalCharacter t.literal t.position) else c
  | [] => c

/-- The cursor one token further. An illegal character is reported when it becomes the next
token, which happens to each of them once. -/
def advance (c : Cursor) : Cursor :=
  match c.upcoming with
  | [] => c
  | t :: ts => inspectPeek { c with current := t, upcoming := ts }

/-- The cursor at the first token of a text. -/
def start (tokens : List Token) : Cursor :=
  match tokens with
  | [] => { current := ⟨.eof, "", {}⟩, upcoming := [] }
  | t :: ts =>
    let c : Cursor := { current := t, upcoming := ts }
    let c := if t.kind = .illegal then c.report (.illegalCharacter t.literal t.position) else c
    c.inspectPeek

end Cursor

end MonkeyLang
