import MonkeyLang.Session
import MonkeyLang.Text.Blank
import MonkeyLang.Text.Newline

/-!
The interactive loop. Lines are kept in a buffer while more braces are open than closed; then the
buffer is run as one program in the session, and its value is shown.
-/

namespace MonkeyLang.Repl

/-- The braces opened less the braces closed in a text, those inside strings left out. -/
def braceDelta (inString : Bool) : List Char → Int
  | [] => 0
  | c :: cs =>
    if c = '"' then braceDelta (!inString) cs
    else if inString then braceDelta inString cs
    else if c = '{' then braceDelta inString cs + 1
    else if c = '}' then braceDelta inString cs - 1
    else braceDelta inString cs

/-- The braces opened less the braces closed in a line. -/
def lineDelta (line : List Char) : Int :=
  braceDelta false line

/-- The words that end the loop. -/
def quitWords : List (List Char) :=
  ["exit".toList, ":q".toList, "quit".toList]

/-- The state between two lines: the session, and the lines that wait for more with their open
braces. -/
structure State where
  session : Session
  buffer : List (List Char) := []
  depth : Int := 0
  deriving Inhabited

/-- What is asked for a line with: a sign that depends on whether lines wait for more. -/
def State.prompt (s : State) : String :=
  if s.buffer.isEmpty then ">> " else ".. "

def chunkText (buffer : List (List Char)) : String :=
  String.ofList (buffer.flatMap fun line => line ++ ['\n'])

/-- What running a chunk wrote and left. -/
structure Written where
  out : String
  trace : String := ""
  session : Session
  /-- Why the loop cannot go on, if it cannot. -/
  crash : Option Halt := none

def complaint (messages : List String) : String :=
  "Woops! We ran into some monkey business here!\n parser errors:\n" ++
    String.join (messages.map fun m => "\t" ++ m ++ "\n")

/-- Whether a program ends with a `let`, which shows no value. -/
def endsInLet : Code → Bool
  | .program ss =>
    match ss.getLast? with
    | some (.letStatement ..) => true
    | _ => false
  | _ => false

/-- Runs a chunk. A run that nests too deep is told about and the loop goes on; a text that nests
too deep ends it. -/
def runChunk (session : Session) (text : String) : Written :=
  match parse? text with
  | none => { out := "", session, crash := some .tooDeep }
  | some p =>
    if p.diagnostics.isEmpty then
      let (e, session) := session.run p.tree.toProgram
      match e.result with
      | .ok v =>
        if endsInLet p.tree then { out := e.out, trace := e.trace, session }
        else
          match v.text with
          | .ok shown => { out := e.out ++ lineOf shown, trace := e.trace, session }
          | .error h => { out := e.out, trace := e.trace, session, crash := some h }
      | .error .tooDeep =>
        let told := lineOf ("Runtime error: " ++ Halt.tooDeep.message)
        { out := e.out ++ told, trace := e.trace, session }
      | .error h => { out := e.out, trace := e.trace, session, crash := some h }
    else { out := complaint p.messages, session }

/-- What the loop does with a line. -/
inductive Reaction where
  /-- It ends. -/
  | quit
  /-- It waits for the next line. -/
  | wait (s : State)
  /-- It ran a chunk. -/
  | ran (w : Written)

/-- What the loop does with a line: outside a chunk a quit word ends it and a blank line is
skipped; otherwise the line joins the buffer, which is run once no brace is open. -/
def react (s : State) (line : List Char) : Reaction :=
  let stripped := Text.strip line
  if s.buffer.isEmpty ∧ stripped ∈ quitWords then .quit
  else if s.buffer.isEmpty ∧ stripped = [] then .wait s
  else
    let buffer := s.buffer ++ [line]
    let depth := s.depth + lineDelta line
    if 0 < depth then .wait { s with buffer, depth }
    else .ran (runChunk s.session (chunkText buffer))

/-- All that a loop wrote. -/
structure Transcript where
  out : String
  trace : String := ""
  crash : Option Halt := none

/-- The transcript with something written before it. -/
def Transcript.after (out trace : String) (t : Transcript) : Transcript :=
  { t with out := out ++ t.out, trace := trace ++ t.trace }

/-- The loop on the lines of an input. -/
def converse (s : State) : List (List Char) → Transcript
  | [] => { out := s.prompt ++ "\n" }
  | line :: lines =>
    match react s line with
    | .quit => { out := s.prompt }
    | .wait next => (converse next lines).after s.prompt ""
    | .ran w =>
      match w.crash with
      | some h => { out := s.prompt ++ w.out, trace := w.trace, crash := some h }
      | none => (converse { session := w.session } lines).after (s.prompt ++ w.out) w.trace

/-- The loop on an input. -/
def start (session : Session) (input : String) : Transcript :=
  converse { session } (Text.lines input.toList)

end MonkeyLang.Repl
