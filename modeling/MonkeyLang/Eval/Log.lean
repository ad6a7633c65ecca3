import MonkeyLang.Value.Text

/-!
What an evaluation leaves behind for its reader: printed lines, and debug notes about its steps.
-/

namespace MonkeyLang

/-- A step of an evaluation that debugging tells about. -/
inductive Note where
  /-- A run ended in a failure. -/
  | failed (f : Failure)
  /-- A name was bound. -/
  | bound (name : Json) (value : Value)
  /-- A function was called. -/
  | called (parameters : List Json) (count : Nat)
  /-- A condition was decided. -/
  | decided (condition : Value)
  /-- A builtin function was called. -/
  | calledBuiltin (b : Builtin) (count : Nat)
  deriving Repr

namespace Note

/-- The verbosity from which on a note is made. -/
def level : Note → Nat
  | .failed _ => 1
  | .bound .. | .called .. => 2
  | .decided _ | .calledBuiltin .. => 3

/-- Why a note cannot be made, if it cannot: the parameters of a call that is noted must be texts,
and the values must be such as can be shown. -/
def halt? : Note → Option Halt
  | .called parameters _ =>
    parameters.zipIdx.findSome? fun p =>
      p.1.nonText?.map fun j => .label (.parameterNotText p.2 j.className)
  | .bound _ v | .decided v => if v.isShowable then none else some .tooDeep
  | .failed _ | .calledBuiltin .. => none

/-- The text of a note. -/
def text : Note → String
  | .failed f => "error: " ++ f.message
  | .bound name value =>
    "let " ++ name.display ++ ": " ++ value.type.name ++ " = " ++ value.inspect
  | .called parameters count =>
    "call fn(" ++ ", ".intercalate (parameters.map Json.display) ++ ") with " ++ toString count ++
      " argument(s)"
  | .decided condition =>
    "if condition " ++ condition.inspect ++ " -> " ++ (if condition.truthy then "True" else "False")
  | .calledBuiltin b count =>
    "call builtin " ++ b.name ++ " with " ++ toString count ++ " argument(s)"

end Note

/-- One thing that an evaluation left behind. -/
inductive Entry where
  /-- A printed line. -/
  | printed (line : String)
  | note (n : Note)
  deriving Repr

/-- All things that an evaluation left behind, in order. -/
abbrev Log := Array Entry

def lineOf (s : String) : String :=
  s ++ "\n"

def Log.printed (log : Log) : String :=
  log.foldl (fun out e => match e with
    | .printed line => out ++ lineOf line
    | .note _ => out) ""

def Log.notes (log : Log) : String :=
  log.foldl (fun out e => match e with
    | .printed _ => out
    | .note n => out ++ lineOf n.text) ""

/-- The printed lines and the notes of a log together. -/
def Log.everything (log : Log) : String :=
  log.foldl (fun out e => match e with
    | .printed line => out ++ lineOf line
    | .note n => out ++ lineOf n.text) ""

end MonkeyLang
