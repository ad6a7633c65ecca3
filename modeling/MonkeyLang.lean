import MonkeyLang.CommandLine.Options
import MonkeyLang.CommandLine.Path
import MonkeyLang.CommandLine.Report
import MonkeyLang.Eval.Log
import MonkeyLang.Eval.Operator
import MonkeyLang.Eval.Run
import MonkeyLang.Eval.Step
import MonkeyLang.Grammar.Machine
import MonkeyLang.Grammar.Program
import MonkeyLang.Grammar.Scan
import MonkeyLang.Halt
import MonkeyLang.Json.Basic
import MonkeyLang.Json.Reader
import MonkeyLang.Json.Real
import MonkeyLang.Json.Writer
import MonkeyLang.Label.Fault
import MonkeyLang.Label.Name
import MonkeyLang.Label.Sum
import MonkeyLang.Main
import MonkeyLang.Parser.Basic
import MonkeyLang.Parser.Cursor
import MonkeyLang.Parser.Diagnostic
import MonkeyLang.Parser.Expression
import MonkeyLang.Parser.Precedence
import MonkeyLang.Parser.Program
import MonkeyLang.Repl
import MonkeyLang.Scope.Bindings
import MonkeyLang.Scope.Store
import MonkeyLang.ScopeTable
import MonkeyLang.Session
import MonkeyLang.Text.Blank
import MonkeyLang.Text.Digit
import MonkeyLang.Text.File
import MonkeyLang.Text.Newline
import MonkeyLang.Text.Numeral
import MonkeyLang.Text.Position
import MonkeyLang.Text.Printable
import MonkeyLang.Text.Quoted
import MonkeyLang.Token.Basic
import MonkeyLang.Token.Kind
import MonkeyLang.Token.Lexer
import MonkeyLang.Token.Source
import MonkeyLang.Tree.Basic
import MonkeyLang.Tree.Inspect
import MonkeyLang.Tree.Object
import MonkeyLang.Tree.Program
import MonkeyLang.Tree.Render
import MonkeyLang.Value.Basic
import MonkeyLang.Value.Text
import MonkeyLang.Word
import MonkeyLang.Proofs.Syntax.Balance
import MonkeyLang.Proofs.Syntax.Cursor
import MonkeyLang.Proofs.Syntax.Soundness
import MonkeyLang.Proofs.Syntax.Completeness
import MonkeyLang.Proofs.Syntax.Transfer
import MonkeyLang.Proofs.Token.Partition
import MonkeyLang.Proofs.Syntax.Layout
import MonkeyLang.Proofs.Syntax.Appended
import MonkeyLang.Proofs.Eval.Logging
import MonkeyLang.Proofs.Syntax.Printed
import MonkeyLang.Proofs.Syntax.RoundTrip
import MonkeyLang.Proofs.Grammar.Simulation
import MonkeyLang.Proofs.Grammar.Step
import MonkeyLang.Proofs.Grammar.Progress
import MonkeyLang.Proofs.Grammar.Context
import MonkeyLang.Proofs.Grammar.FrontEnds
import MonkeyLang.Proofs.Eval.Run
import MonkeyLang.Proofs.Eval.Activation
import MonkeyLang.Proofs.Scope.Store
import MonkeyLang.Proofs.Eval.Contract
import MonkeyLang.Proofs.Session.Runs
import MonkeyLang.Proofs.Session.Failure
import MonkeyLang.Proofs.Syntax.Shape
import MonkeyLang.Proofs.Session.Discipline
import MonkeyLang.Proofs.Session.Return
import MonkeyLang.Proofs.Eval.Frame
import MonkeyLang.Proofs.Session.Direct
import MonkeyLang.Proofs.Syntax.Intact
import MonkeyLang.Proofs.Grammar.Intact
import MonkeyLang.Proofs.Session.Faults
import MonkeyLang.Proofs.Session.Batch
import MonkeyLang.Proofs.Json.RoundTrip
import MonkeyLang.Proofs.Tree.Object
import MonkeyLang.Proofs.CommandLine.Saved
import MonkeyLang.Proofs.Repl.Balance
import MonkeyLang.Proofs.Eval.Lockstep
import MonkeyLang.Proofs.Session.Arity
import MonkeyLang.Proofs.Session.Verbosity
import MonkeyLang.Proofs.Scope.Forest
import MonkeyLang.Proofs.Eval.Nesting
import MonkeyLang.Proofs.Scope.Table
import MonkeyLang.Proofs.Tree.NormalForm
import MonkeyLang.Proofs.Syntax.Rendered
import MonkeyLang.Proofs.Syntax.Halting
import MonkeyLang.Proofs.Grammar.Diagnostics
import MonkeyLang.Proofs.Session.Range
import MonkeyLang.Proofs.Eval.Arithmetic
import MonkeyLang.Proofs.Scope.Lookup
import MonkeyLang.Proofs.Eval.Correspondence
import MonkeyLang.Proofs.Session.Repeat
import MonkeyLang.Proofs.Repl.Shown
import MonkeyLang.Proofs.Repl.Turns
import MonkeyLang.Proofs.Eval.CallFrame
import MonkeyLang.Proofs.Session.Unmentioned
