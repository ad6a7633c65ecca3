import MonkeyLang.Eval.Step
import MonkeyLang.Parser.Program

/-!
A session runs programs one after the other on the same global scope.
-/

namespace MonkeyLang

/-- The state between the programs of a session. -/
structure Session where
  store : Store
  /-- The scope of the builtin functions. -/
  builtins : ScopeId
  /-- The scope inside it in which programs run. -/
  globals : ScopeId
  settings : Settings := {}
  /-- Whether notes still go to the trace; they are printed when it is closed. -/
  tracing : Bool := true
  deriving Repr, Inhabited

/-- What a run left behind. -/
structure Execution where
  /-- The value, or why there is none. -/
  result : Except Halt Value
  /-- What was printed. -/
  out : String
  /-- What was added to the trace. -/
  trace : String

namespace Session

/-- A new session, with two new scopes in the store. -/
def start (settings : Settings) (store : Store := {}) : Session :=
  let builtins := store.next
  let store := store.add Scope.standard
  let globals := store.next
  { store := store.add { parent := some builtins }, builtins, globals, settings }

/-- Evaluates a tree and notes a failure that comes out. -/
def evaluate (settings : Settings) (tree : Program) (scope : ScopeId)
    (budget : Nat := nestingLimit) : Run Value := do
  let v ← eval settings budget tree scope
  match v with
  | .error f =>
    Run.note settings (.failed f)
    return v
  | v => return v

/-- The session and what was left behind at the end of a run. -/
def finish (s : Session) (o : Outcome Value) : Execution × Session :=
  let m := o.machine
  let result := match o with
    | .done v _ => .ok v
    | .halted h _ => .error h
  let out := if s.tracing then m.log.printed else m.log.everything
  let trace := if s.tracing then m.log.notes else ""
  (⟨result, out, trace⟩, { s with store := m.store })

/-- Runs a tree in a scope of the session, with evaluations nesting below `budget` levels. -/
def runIn (s : Session) (scope : ScopeId) (tree : Program) (budget : Nat := nestingLimit) :
    Execution × Session :=
  s.finish (evaluate s.settings tree scope budget { store := s.store })

/-- Runs a tree in the global scope. -/
def run (s : Session) (tree : Program) (budget : Nat := nestingLimit) : Execution × Session :=
  s.runIn s.globals tree budget

/-- Runs a tree in a new scope inside the global one. -/
def runFresh (s : Session) (tree : Program) (budget : Nat := nestingLimit) :
    Execution × Session :=
  let scope := s.store.next
  { s with store := s.store.add { parent := some s.globals } }.runIn scope tree budget

def close (s : Session) : Session :=
  { s with tracing := false }

def globalBindings (s : Session) : Bindings :=
  s.store.bindings s.globals

/-- The names in the scope of the builtin functions, in order. -/
def builtinNames (s : Session) : List String :=
  (s.store.bindings s.builtins).textNames.mergeSort

end Session

/-- Why a text was not run. -/
inductive Rejection where
  /-- It nests too deep to be read. -/
  | tooDeep
  /-- It has mistakes. -/
  | diagnostics (ds : List Diagnostic)

def Rejection.message : Rejection → String
  | .tooDeep => Halt.tooDeep.message
  | .diagnostics ds =>
    "parser errors:\n" ++ "\n".intercalate (ds.map fun d => "\t" ++ d.message)

/-- Runs a program text in a new session on the given store. -/
def runText (settings : Settings) (text : String) (store : Store := {}) :
    Except Rejection (Execution × Session) :=
  match parse? text with
  | none => .error .tooDeep
  | some p =>
    if p.diagnostics.isEmpty then .ok ((Session.start settings store).run p.tree.toProgram)
    else .error (.diagnostics p.diagnostics)

end MonkeyLang
