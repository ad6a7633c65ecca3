import MonkeyLang.Eval.Operator
import MonkeyLang.Eval.Run

/-!
Evaluation of trees. A failure and a `return` on its way out are ordinary results: whatever puts
results together stops at a failure and hands it on, a sequence of statements stops at a `return`
too, and a `return` ends at the nearest call or at the program.

`step` evaluates one node and leaves the nodes inside it to the evaluator `inner`; `eval` ties the
knot, with a budget for how deep evaluations nest.
-/

namespace MonkeyLang

abbrev Evaluator := Program → ScopeId → Run Value

namespace Eval

/-- The frame of a call: the parameters are bound to the arguments in order, as far as there are
both, in a scope inside the one that the function was made in. -/
def frame (parameters : List Name) (arguments : List Value) (scope : ScopeId) : Scope :=
  { parent := some scope, bindings := Bindings.setAll parameters arguments [] }

/-- Statements one after the other. The result is that of the last one, or the first failure or
`return`. -/
def statements (inner : Evaluator) (scope : ScopeId) : (last : Value) → List Program → Run Value
  | last, [] => return last
  | _, s :: ss => do
    match ← inner s scope with
    | .returned v => return .returned v
    | .error f => return .error f
    | v => statements inner scope v ss

/-- Expressions one after the other: all their values, or the first failure. -/
def expressions (inner : Evaluator) (scope : ScopeId) :
    List Program → Run (Except Failure (List Value))
  | [] => return .ok []
  | e :: es => do
    match ← inner e scope with
    | .error f => return .error f
    | v => return (← expressions inner scope es).map (v :: ·)

/-- The names that labels are. -/
def names : List Json → Run (List Name)
  | [] => return []
  | j :: js => do
    let name ← Run.ofLabel j.name
    return name :: (← names js)

/-- Prints values, a line each. -/
def printAll : List Value → Run Unit
  | [] => return ()
  | v :: vs => do
    Run.print (← Run.ofExcept v.text)
    printAll vs

/-- What a builtin function does with arguments in the right number. -/
def builtin : Builtin → List Value → Run Value
  | .len, [] => Run.halt .missingArgument
  | .len, .string s :: _ => return .integer s.length
  | .len, .datum j :: _ => return .integer (← Run.ofLabel j.size)
  | .len, v :: _ => return .error (.noLength v.type)
  | .puts, vs => do
    printAll vs
    return .null

/-- Calls a value. -/
def call (settings : Settings) (inner : Evaluator) (f : Value) (arguments : List Value) :
    Run Value :=
  match f with
  | .function parameters body scope =>
    if settings.strictArity ∧ arguments.length ≠ parameters.length then
      return .error (.wrongArity .function arguments.length parameters.length)
    else do
      Run.note settings (.called parameters arguments.length)
      let names ← names (parameters.take arguments.length)
      let scope ← Run.addScope (frame names arguments scope)
      let v ← inner body scope
      return v.unwrapped
  | .builtin b =>
    match b.arity with
    | some n =>
      if arguments.length ≠ n then
        return .error (.wrongArity .builtin arguments.length n)
      else do
        Run.note settings (.calledBuiltin b arguments.length)
        builtin b arguments
    | none => do
      Run.note settings (.calledBuiltin b arguments.length)
      builtin b arguments
  | v => return .error (.notAFunction v.type)

/-- Evaluates one node, and the nodes inside it by `inner`. -/
def step (settings : Settings) (inner : Evaluator) : Evaluator
  | .missing, _ => Run.halt .missingNode
  | .program ss, scope => do
    let v ← statements inner scope .null ss
    return v.unwrapped
  | .block ss, scope => statements inner scope .null ss
  | .expressionStatement e, scope => inner e scope
  | .letStatement name e, scope =>
    Run.unlessError (inner e scope) fun v => do
      Run.bindName scope (← Run.ofLabel name.name) v
      Run.note settings (.bound name v)
      return .null
  | .returnStatement .missing, _ => return .returned .null
  | .returnStatement e, scope => Run.unlessError (inner e scope) fun v => return .returned v
  | .integer n, _ => return .integer n
  | .string s, _ => return .ofLabel s
  | .boolean b, _ => return .boolean b
  | .identifier name, scope => do
    match ← Run.lookup (← Run.ofLabel name.name) scope with
    | some v => return v
    | none => return .error (.unboundName name.display)
  | .prefixed operator e, scope =>
    Run.unlessError (inner e scope) fun v => return applyPrefix operator.display v
  | .infixed l operator r, scope =>
    Run.unlessError (inner l scope) fun v =>
      Run.unlessError (inner r scope) fun w => Run.ofLabel (applyInfix operator.display v w)
  | .conditional c t e, scope =>
    Run.unlessError (inner c scope) fun v => do
      Run.note settings (.decided v)
      if v.truthy then
        inner t scope
      else
        match e with
        | .missing => return .null
        | e => inner e scope
  | .function parameters body, scope => return .function parameters body scope
  | .call f as, scope =>
    Run.unlessError (inner f scope) fun f => do
      match ← expressions inner scope as with
      | .error failure => return .error failure
      | .ok vs => call settings inner f vs

end Eval

/-- Evaluates a tree in a scope, with evaluations nesting below `budget` levels. -/
def eval (settings : Settings) : (budget : Nat) → Evaluator
  | 0, _, _ => Run.halt .tooDeep
  | budget + 1, t, scope => Eval.step settings (eval settings budget) t scope

end MonkeyLang
