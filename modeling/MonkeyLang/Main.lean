import MonkeyLang.CommandLine.Report

/-!
The command itself: it reads the files that a task needs, and carries out what the report says.
-/

namespace MonkeyLang.CommandLine

/-- The wording of a fault. -/
def Fault.message : Fault → String
  | .halt h => h.message
  | .directory => "a directory stands in the place of a file"
  | .tooLong => "a path is too long"
  | .notText => "a file is not UTF-8 text"
  | .malformedJson => "the saved tree is not JSON"
  | .numeral e => e.message
  | .infinite => ObjectError.infinite.message

/-- What stands at a path. -/
def look (path : Path) : IO Found := do
  try
    return .file (← IO.FS.readBinFile path.text)
  catch
    | .noFileOrDirectory .. => return .missing
    | _ => return .directory

/-- What stands at the paths that a task can ask for. -/
def survey (o : Options) : IO (Path → Found) := do
  let paths := match o.task with
    | .emit file => [file, file.extended ".ast.json"]
    | .executeSaved file | .execute file => [file]
    | .interact => []
  let known ← (traceFile :: paths).mapM fun p => return (p, ← look p)
  return fun p => ((known.find? fun k => k.1 = p).map (·.2)).getD .missing

/-- Carries out a report, and gives the exit code. -/
def carryOut (r : Report) : IO UInt32 := do
  for (path, text) in r.written do
    IO.FS.writeFile path.text text
  IO.print r.stdout
  IO.eprint r.stderr
  match r.exit with
  | .ok code => return code.toUInt32
  | .error f =>
    IO.eprintln f.message
    return 1

/-- The interactive loop with a reader at the other end. -/
partial def talk (input : IO.FS.Stream) (trace : Option IO.FS.Handle) (s : Repl.State) :
    IO UInt32 := do
  IO.print s.prompt
  (← IO.getStdout).flush
  let line ← input.getLine
  if line.isEmpty then
    IO.println ""
    return 0
  match Repl.react s (line.toList.filter (· ≠ '\n')) with
  | .quit => return 0
  | .wait s => talk input trace s
  | .ran w =>
    IO.print w.out
    if let some handle := trace then
      handle.putStr w.trace
      handle.flush
    match w.crash with
    | some h =>
      IO.eprintln h.message
      return 1
    | none => talk input trace { session := w.session }

/-- Starts the interactive loop. -/
def converse (o : Options) (find : Path → Found) : IO UInt32 := do
  match openSession find o with
  | .error report => carryOut report
  | .ok session =>
    let trace ←
      if o.verbosity = 0 then pure none
      else some <$> IO.FS.Handle.mk traceFile.text .write
    talk (← IO.getStdin) trace { session }

end MonkeyLang.CommandLine

open MonkeyLang CommandLine in
def main (arguments : List String) : IO UInt32 := do
  match Options.ofArguments arguments with
  | .error _ => carryOut (run (fun _ => .missing) "" arguments)
  | .ok o =>
    let find ← survey o
    match o.task with
    | .interact => converse o find
    | _ => carryOut (perform find "" o)
