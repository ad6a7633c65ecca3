import MonkeyLang.Eval.Log
import MonkeyLang.Scope.Store

/-!
The parts that evaluation is made of. A `Run` changes the scopes and adds to the log; it ends with
a value, or halts with all that it changed so far.
-/

namespace MonkeyLang

/-- How programs are run. -/
structure Settings where
  /-- The greatest level of the notes that are made; zero makes none. -/
  verbosity : Nat := 0
  /-- Whether a function must be called with as many arguments as it has parameters. -/
  strictArity : Bool := false
  deriving DecidableEq, Repr, Inhabited

/-- What evaluation changes: the scopes, and the log. -/
structure Machine where
  store : Store
  log : Log := #[]
  deriving Repr, Inhabited

/-- How a part of an evaluation ended. What it changed before a halt stays. -/
inductive Outcome (α : Type) where
  | done (a : α) (m : Machine)
  | halted (h : Halt) (m : Machine)
  deriving Repr, Inhabited

def Outcome.machine {α : Type} : Outcome α → Machine
  | .done _ m | .halted _ m => m

/-- A part of an evaluation. -/
def Run (α : Type) := Machine → Outcome α

namespace Run

variable {α β : Type}

/-- A value without a step. -/
@[always_inline, inline]
def done (a : α) : Run α :=
  fun m => .done a m

/-- One part after the other, unless the first one halts. -/
@[always_inline, inline]
def andThen (r : Run α) (next : α → Run β) : Run β :=
  fun m =>
    match r m with
    | .done a m => next a m
    | .halted h m => .halted h m

instance : Monad Run where
  pure := done
  bind := andThen

def halt (h : Halt) : Run α :=
  fun m => .halted h m

def ofExcept (r : Except Halt α) : Run α :=
  match r with
  | .ok a => done a
  | .error h => halt h

/-- Goes on with what a label gives, or halts. -/
def ofLabel (r : Except LabelFault α) : Run α :=
  ofExcept (r.mapError .label)

def record (e : Entry) : Run Unit :=
  fun m => .done () { m with log := m.log.push e }

def print (line : String) : Run Unit :=
  record (.printed line)

/-- Makes a note, if the verbosity asks for one of its level. -/
def note (settings : Settings) (n : Note) : Run Unit :=
  if n.level ≤ settings.verbosity then
    match n.halt? with
    | none => record (.note n)
    | some h => halt h
  else done ()

def lookup (name : Name) (scope : ScopeId) : Run (Option Value) :=
  fun m => .done (m.store.lookup name scope) m

def bindName (scope : ScopeId) (name : Name) (value : Value) : Run Unit :=
  fun m => .done () { m with store := m.store.bind scope name value }

/-- Adds a scope and gives its number. -/
def addScope (scope : Scope) : Run ScopeId :=
  fun m => .done m.store.next { m with store := m.store.add scope }

/-- Goes on with a value, unless it is a failure, which is the result then. -/
@[always_inline, inline]
def unlessError (r : Run Value) (next : Value → Run Value) : Run Value := do
  let v ← r
  if v.isError then
    return v
  else
    next v

end Run

end MonkeyLang
