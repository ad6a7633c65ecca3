import MonkeyLang.Parser.Cursor
import MonkeyLang.Tree.Basic

/-!
The steps that readers of constructs are made of.
-/

namespace MonkeyLang

/-- A step of reading: it moves the cursor and has a result, or gives up where a text nests too
deep. -/
abbrev Parse := StateT Cursor Option

namespace Parse

def advance : Parse Unit :=
  modify Cursor.advance

def report (d : Diagnostic) : Parse Unit :=
  modify (Cursor.report · d)

def current : Parse Token :=
  return (← get).current

def peek : Parse Token :=
  return (← get).peek

/-- Moves on if the next token is of the kind `kind`, and says whether it was. -/
def accept (kind : Kind) : Parse Bool := do
  if (← peek).kind = kind then
    advance
    return true
  else
    return false

/-- Moves on to the next token if it is of the kind `kind`, and reports it otherwise. -/
def expect (kind : Kind) : Parse Bool := do
  if ← accept kind then
    return true
  else
    let t ← peek
    report (.wrongToken kind t.kind t.position)
    return false

/-- Moves on to a token of the kind `kind` and goes on with `next`; the construct is missing
where that token is. -/
def requiring (kind : Kind) (next : Parse Code) : Parse Code := do
  if ← expect kind then
    next
  else
    return .missing

end Parse

end MonkeyLang
