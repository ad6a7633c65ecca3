import MonkeyLang.Grammar.Scan
import MonkeyLang.Parser.Diagnostic
import MonkeyLang.Parser.Precedence
import MonkeyLang.Tree.Basic
import MonkeyLang.Word

/-!
Programs by the grammar of the language, as a machine that takes one token after the other. What
is begun and not ended stands on a stack; the mode says what was read last. An expression goes on
as long as the next token can continue it.
-/

namespace MonkeyLang.Grammar

/-- What a block belongs to. -/
inductive BlockRole where
  | consequence (condition : Code)
  | alternative (condition consequence : Code)
  | body (parameters : List String)
  deriving Repr

/-- A construct that is begun and waits for an expression, or for statements. Finished parts of a
list stand in reverse order. -/
inductive Pending where
  | prefixed (operator : String)
  | infixed (left : Code) (operator : String) (precedence : Precedence)
  | group
  | arguments (callee : Code) (done : List Code)
  | condition
  | letValue (name : String)
  | returnValue
  | statementValue
  | block (role : BlockRole) (done : List Code)
  deriving Repr

/-- What was read last, and so what can follow. Parameters stand in reverse order. -/
inductive Mode where
  /-- A statement can start. -/
  | statement
  /-- A `return` can have a value. -/
  | returned
  /-- An operand must follow. -/
  | operand
  /-- The arguments of a call can start. -/
  | callOpen (callee : Code)
  /-- An operand ended. -/
  | ended (e : Code)
  /-- An operand ended with a brace. -/
  | closed (e : Code)
  /-- The first block of a conditional ended. -/
  | consequence (condition consequence : Code)
  | letName
  | letAssign (name : String)
  | ifOpen
  | conditionClosed (condition : Code)
  | elseOpen (condition consequence : Code)
  | fnOpen
  | parametersOpen
  | parameter (done : List String)
  | parameterNext (done : List String)
  | parametersClosed (parameters : List String)
  deriving Repr

/-- The kinds of token that can start an operand or continue a finished one are tried after an
operand, as are those that can follow in a construct around it. -/
def followsOperand : Kind → Bool
  | .kwLet | .kwReturn | .plus | .asterisk | .slash | .lt | .gt | .eq | .notEq | .rparen | .comma
  | .semicolon | .rbrace => true
  | kind => kind.startsOperand

/-- The kinds of token that are tried in a mode. -/
def Mode.accepts : Mode → Kind → Bool
  | .statement, .kwLet | .statement, .kwReturn | .statement, .rbrace => true
  | .statement, kind => kind.startsOperand
  | .returned, .kwLet | .returned, .kwReturn | .returned, .rbrace
  | .returned, .semicolon => true
  | .returned, kind => kind.startsOperand
  | .operand, kind => kind.startsOperand
  | .callOpen _, .rparen => true
  | .callOpen _, kind => kind.startsOperand
  | .ended _, kind => followsOperand kind
  | .closed _, .kwElse | .consequence .., .kwElse => true
  | .closed _, kind | .consequence .., kind => followsOperand kind
  | .letName, kind | .parameterNext _, kind => kind = .ident
  | .letAssign _, kind => kind = .assign
  | .ifOpen, kind | .fnOpen, kind => kind = .lparen
  | .conditionClosed _, kind | .elseOpen .., kind | .parametersClosed _, kind => kind = .lbrace
  | .parametersOpen, kind => kind = .ident ∨ kind = .rparen
  | .parameter _, kind => kind = .comma ∨ kind = .rparen

/-- The machine: its mode, the constructs that are begun, innermost first, the statements of the
program that are finished, last first, and the literals that are out of range. -/
structure Machine where
  mode : Mode := .statement
  stack : List Pending := []
  done : List Code := []
  diagnostics : Array Diagnostic := #[]
  deriving Repr

namespace Machine

def inMode (m : Machine) (mode : Mode) : Machine :=
  { m with mode }

/-- The machine with one more construct begun, in another mode. -/
def push (m : Machine) (p : Pending) (mode : Mode) : Machine :=
  { m with stack := p :: m.stack, mode }

/-- The diagnostic for a token that cannot follow. -/
def unexpected (t : Token) : Diagnostic :=
  if t.kind = .eof then .unexpectedEnd else .unexpectedToken t.spelling t.position

/-- The machine after a statement, which belongs to the innermost block or to the program. -/
def endStatement (m : Machine) (s : Code) : Machine :=
  match m.stack with
  | .block role done :: stack =>
    { m with mode := .statement, stack := .block role (s :: done) :: stack }
  | _ => { m with mode := .statement, done := s :: m.done }

/-- The machine after an operand, or after the operator that starts one. -/
def operand (m : Machine) (t : Token) : Except Diagnostic Machine :=
  match t.kind with
  | .ident => .ok (m.inMode (.ended (.identifier t.literal)))
  | .int =>
    match Word.ofLiteral? t.literal with
    | some n => .ok (m.inMode (.ended (.integer n)))
    | none =>
      let d := .integerRange t.literal t.position
      .ok { m with mode := .ended .missing, diagnostics := m.diagnostics.push d }
  | .string => .ok (m.inMode (.ended (.string t.literal)))
  | .kwTrue => .ok (m.inMode (.ended (.boolean true)))
  | .kwFalse => .ok (m.inMode (.ended (.boolean false)))
  | .bang | .minus => .ok (m.push (.prefixed t.literal) .operand)
  | .lparen => .ok (m.push .group .operand)
  | .kwIf => .ok (m.inMode .ifOpen)
  | .kwFn => .ok (m.inMode .fnOpen)
  | _ => .error (unexpected t)

/-- The machine after the closing brace of the innermost block, if there is one. -/
def endBlock (m : Machine) (t : Token) : Except Diagnostic Machine :=
  match m.stack with
  | .block role done :: stack =>
    let m := { m with stack }
    let b : Code := .block done.reverse
    match role with
    | .consequence c => .ok (m.inMode (.consequence c b))
    | .alternative c t => .ok (m.inMode (.closed (.conditional c t b)))
    | .body ps => .ok (m.inMode (.closed (.function ps b)))
  | _ => .error (unexpected t)

/-- The machine after a token where a statement can start. -/
def statement (m : Machine) (t : Token) : Except Diagnostic Machine :=
  match t.kind with
  | .kwLet => .ok (m.inMode .letName)
  | .kwReturn => .ok (m.inMode .returned)
  | .rbrace => m.endBlock t
  | .eof => if m.stack.isEmpty then .ok (m.inMode .statement) else .error .unexpectedEnd
  | _ => ({ m with stack := .statementValue :: m.stack }).operand t

/-- The machine after a token that may end a statement. -/
def afterStatement (m : Machine) (s : Code) (t : Token) : Except Diagnostic Machine :=
  let m := m.endStatement s
  if t.kind = .semicolon then .ok m else m.statement t

/-- The operations at the top of a stack that bind the operand `e` at least as tightly as
`precedence` does, put together, and the rest of the stack. -/
def reduce (precedence : Precedence) (e : Code) : List Pending → Code × List Pending
  | .prefixed operator :: stack => reduce precedence (.prefixed operator e) stack
  | .infixed left operator p :: stack =>
    if p < precedence then (e, .infixed left operator p :: stack)
    else reduce precedence (.infixed left operator e) stack
  | stack => (e, stack)

/-- The machine after a token that ends the expression `e`. -/
def endExpression (m : Machine) (e : Code) (t : Token) : Except Diagnostic Machine :=
  let (e, stack) := reduce .lowest e m.stack
  match stack with
  | .letValue name :: stack => { m with stack }.afterStatement (.letStatement name e) t
  | .returnValue :: stack => { m with stack }.afterStatement (.returnStatement e) t
  | .statementValue :: stack => { m with stack }.afterStatement (.expressionStatement e) t
  | .group :: stack =>
    if t.kind = .rparen then .ok { m with stack, mode := .ended e } else .error (unexpected t)
  | .condition :: stack =>
    if t.kind = .rparen then .ok { m with stack, mode := .conditionClosed e }
    else .error (unexpected t)
  | .arguments callee done :: stack =>
    match t.kind with
    | .comma => .ok { m with stack := .arguments callee (e :: done) :: stack, mode := .operand }
    | .rparen => .ok { m with stack, mode := .ended (.call callee (e :: done).reverse) }
    | _ => .error (unexpected t)
  | _ => .error (unexpected t)

/-- The machine after a token behind the operand `e`: a call binds it first, then the operations
that bind tighter than the token's, or all of them where the token is none. -/
def afterOperand (m : Machine) (e : Code) (t : Token) : Except Diagnostic Machine :=
  if t.kind = .lparen then .ok (m.inMode (.callOpen e))
  else if t.kind.precedence = .lowest then m.endExpression e t
  else
    let (e, stack) := reduce t.kind.precedence e m.stack
    .ok { m with stack := .infixed e t.literal t.kind.precedence :: stack, mode := .operand }

/-- The machine after a token. -/
def feed (m : Machine) (t : Token) : Except Diagnostic Machine :=
  let take (kind : Kind) (next : Machine) : Except Diagnostic Machine :=
    if t.kind = kind then .ok next else .error (unexpected t)
  match m.mode with
  | .statement => m.statement t
  | .returned =>
    if t.kind.startsOperand then ({ m with stack := .returnValue :: m.stack }).operand t
    else m.afterStatement (.returnStatement .missing) t
  | .operand => m.operand t
  | .callOpen callee =>
    if t.kind = .rparen then .ok (m.inMode (.ended (.call callee [])))
    else ({ m with stack := .arguments callee [] :: m.stack }).operand t
  | .ended e | .closed e => m.afterOperand e t
  | .consequence c b =>
    if t.kind = .kwElse then .ok (m.inMode (.elseOpen c b))
    else m.afterOperand (.conditional c b .missing) t
  | .letName => take .ident (m.inMode (.letAssign t.literal))
  | .letAssign name => take .assign (m.push (.letValue name) .operand)
  | .ifOpen => take .lparen (m.push .condition .operand)
  | .conditionClosed c => take .lbrace (m.push (.block (.consequence c) []) .statement)
  | .elseOpen c b => take .lbrace (m.push (.block (.alternative c b) []) .statement)
  | .fnOpen => take .lparen (m.inMode .parametersOpen)
  | .parametersOpen =>
    match t.kind with
    | .ident => .ok (m.inMode (.parameter [t.literal]))
    | .rparen => .ok (m.inMode (.parametersClosed []))
    | _ => .error (unexpected t)
  | .parameter ps =>
    match t.kind with
    | .comma => .ok (m.inMode (.parameterNext ps))
    | .rparen => .ok (m.inMode (.parametersClosed ps.reverse))
    | _ => .error (unexpected t)
  | .parameterNext ps => take .ident (m.inMode (.parameter (t.literal :: ps)))
  | .parametersClosed ps => take .lbrace (m.push (.block (.body ps) []) .statement)

/-- The machine at the end of a text, or the first thing in it that cannot be. -/
def run (m : Machine) (s : Source) : Except Diagnostic Machine :=
  match _h : s.scan m.mode.accepts with
  | .stray c p => .error (.unexpectedCharacter (String.singleton c) p)
  | .token t rest =>
    match m.feed t with
    | .error d => .error d
    | .ok m => if _ht : t.kind = .eof then .ok m else m.run rest
termination_by s.rest.length
decreasing_by exact Source.rest_scan_length_lt _h _ht

def program (m : Machine) : Code :=
  .program m.done.reverse

end Machine

end MonkeyLang.Grammar
