import MonkeyLang.CommandLine.Options
import MonkeyLang.CommandLine.Path
import MonkeyLang.Grammar.Program
import MonkeyLang.Json.Reader
import MonkeyLang.Json.Writer
import MonkeyLang.Repl
import MonkeyLang.Text.File
import MonkeyLang.Tree.Object

/-!
What the command does: it runs a program file, or a saved tree, saves the tree of a program file,
or starts the interactive loop.
-/

namespace MonkeyLang.CommandLine

def usage : String :=
  "usage: monkey [-h] [-v] [--strict-arity] [--grammar]\n" ++
  "              [--emit-ast MONKEY_FILE | --ast AST_JSON_FILE]\n" ++
  "              [program]\n"

/-- The help text. -/
def help : String :=
  usage ++ "\n" ++
  "Monkey language interpreter\n" ++
  "\n" ++
  "positional arguments:\n" ++
  "  program               monkey program file (.monkey) to execute\n" ++
  "\n" ++
  "options:\n" ++
  "  -h, --help            show this help message and exit\n" ++
  "  -v                    increase debug verbosity (can be repeated)\n" ++
  "  --strict-arity        report an error when a function is called with the\n" ++
  "                        wrong number of arguments\n" ++
  "  --grammar             parse with the Lark grammar front end\n" ++
  "  --emit-ast MONKEY_FILE\n" ++
  "                        emit AST JSON for the given .monkey file\n" ++
  "  --ast AST_JSON_FILE   execute AST from a JSON file\n"

/-- Why the command broke off. -/
inductive Fault where
  /-- A run stopped without a value, or something nests too deep. -/
  | halt (h : Halt)
  /-- A directory in the place of a file. -/
  | directory
  /-- A path that is too long. -/
  | tooLong
  /-- A file that is not UTF-8. -/
  | notText
  /-- A saved tree that is not JSON. -/
  | malformedJson
  /-- A saved tree with a whole number that has too many digits. -/
  | numeral (e : Text.NumeralError)
  /-- A saved tree with an infinite number in the place of an integer. -/
  | infinite
  deriving Repr

/-- What the command did. -/
structure Report where
  /-- The exit code, or why there is none. -/
  exit : Except Fault Nat := .ok 0
  stdout : String := ""
  stderr : String := ""
  /-- The files that were written, with their texts. -/
  written : List (Path × String) := []

def complain (code : Nat) (message : String) : Report :=
  { exit := .ok code, stderr := message }

def broken (f : Fault) : Report :=
  { exit := .error f }

def traceFile : Path := .ofString "debug.txt"

/-- A session for the options. Its trace file must not be a directory. -/
def openSession (find : Path → Found) (o : Options) : Except Report Session :=
  let session := Session.start { verbosity := o.verbosity, strictArity := o.strictArity }
  if o.verbosity = 0 then .ok session
  else
    match find traceFile with
    | .directory => .error (broken .directory)
    | _ => .ok session

def traceWritten (o : Options) (trace : String) : List (Path × String) :=
  if o.verbosity = 0 then [] else [(traceFile, trace)]

/-- The text of the file at a path. -/
def readFile (find : Path → Found) (path : Path) : Except Report String :=
  match find path with
  | .missing => .error (complain 1 ("Error: file " ++ path.text ++ " not found\n"))
  | .directory => .error (broken .directory)
  | .tooLong => .error (broken .tooLong)
  | .file content =>
    match readText? content with
    | some text => .ok text
    | none => .error (broken .notText)

/-- The program in the file at a path. -/
def readProgram (find : Path → Found) (o : Options) (path : Path) : Except Report Program := do
  let text ← readFile find path
  let front : FrontEnd := if o.grammar then .grammar else .precedence
  match front.parse? text with
  | none => throw (broken (.halt .tooDeep))
  | some p =>
    if p.diagnostics.isEmpty then return p.tree.toProgram
    else throw (complain 1 (String.join (p.messages.map fun m => "Syntax error: " ++ m ++ "\n")))

/-- Runs a program. -/
def execute (find : Path → Found) (o : Options) (program : Program) : Report :=
  match openSession find o with
  | .error report => report
  | .ok session =>
    let (e, _) := session.run program
    let report : Report := { stdout := e.out, written := traceWritten o e.trace }
    let failed (message : String) : Report :=
      { report with exit := .ok 1, stderr := "Runtime error: " ++ message ++ "\n" }
    match e.result with
    | .ok (.error f) => failed f.message
    | .ok _ => report
    | .error .tooDeep => failed Halt.tooDeep.message
    | .error h => { report with exit := .error (.halt h) }

/-- Saves the tree of a program file beside it. -/
def emit (find : Path → Found) (o : Options) (path : Path) : Report :=
  match readProgram find o path with
  | .error report => report
  | .ok program =>
    let json := program.toJson id
    if json.fits nestingLimit then
      let target := path.extended ".ast.json"
      match find target with
      | .directory => broken .directory
      | .tooLong => broken .tooLong
      | _ => { stdout := target.text ++ "\n", written := [(target, json.pretty)] }
    else broken (.halt .tooDeep)

/-- The tree that was saved in a file. -/
def readSaved (find : Path → Found) (path : Path) : Except Report Program := do
  let text ← readFile find path
  let json ← match Json.read nestingLimit text with
    | .ok json => pure json
    | .error .malformed => throw (broken .malformedJson)
    | .error .tooDeep => throw (broken (.halt .tooDeep))
    | .error (.numeral e) => throw (broken (.numeral e))
  match Tree.ofJson nestingLimit json with
  | .ok tree => return tree
  | .error .tooDeep => throw (broken (.halt .tooDeep))
  | .error .infinite => throw (broken .infinite)
  | .error e =>
    throw (complain 1 ("Error: invalid AST file " ++ path.text ++ ": " ++ e.message ++ "\n"))

def executeSaved (find : Path → Found) (o : Options) (path : Path) : Report :=
  match readSaved find path with
  | .error report => report
  | .ok program => execute find o program

/-- The interactive loop on an input. -/
def interact (find : Path → Found) (o : Options) (input : String) : Report :=
  match openSession find o with
  | .error report => report
  | .ok session =>
    let t := Repl.start session input
    let exit := match t.crash with
      | some h => .error (.halt h)
      | none => .ok 0
    { exit, stdout := t.out, written := traceWritten o t.trace }

/-- What the command is asked to do. An empty text in the place of a file asks for nothing. -/
inductive Task where
  | emit (file : Path)
  | executeSaved (file : Path)
  | execute (file : Path)
  | interact
  deriving Repr

/-- The file that is named, unless its name is empty. -/
def named (file : Option String) : Option Path :=
  match file with
  | some name => if name.isEmpty then none else some (Path.ofString name)
  | none => none

/-- The task that the options describe. -/
def Options.task (o : Options) : Task :=
  match named o.emitAst, named o.ast, named o.program with
  | some file, _, _ => .emit file
  | none, some file, _ => .executeSaved file
  | none, none, some file => .execute file
  | none, none, none => .interact

/-- Does what the options ask for. -/
def perform (find : Path → Found) (input : String) (o : Options) : Report :=
  match o.task with
  | .emit file => emit find o file
  | .executeSaved file => executeSaved find o file
  | .execute file =>
    match readProgram find o file with
    | .error report => report
    | .ok program => execute find o program
  | .interact => interact find o input

/-- What the command does with the given arguments, files and input. -/
def run (find : Path → Found) (input : String) (arguments : List String) : Report :=
  match Options.ofArguments arguments with
  | .error .help => { stdout := help }
  | .error (.error e) => complain 2 (usage ++ "monkey: error: " ++ e.message ++ "\n")
  | .ok o => perform find input o

end MonkeyLang.CommandLine
