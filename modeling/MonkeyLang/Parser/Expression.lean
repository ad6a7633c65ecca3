import MonkeyLang.Parser.Basic
import MonkeyLang.Parser.Precedence
import MonkeyLang.Tree.Basic
import MonkeyLang.Word

/-!
Expressions and statements by precedence climbing. A reader starts with the first token of its
construct in hand and ends with the last one in hand.

Only `expression` calls itself, through all the other readers: they take the reader of inner
expressions as the argument `inner`. Its budget bounds how deep expressions nest. A loop goes
round `fuel` times at most; each round moves on by a token, so it never does where there are fewer
tokens to come.
-/

namespace MonkeyLang.Parse

/-- The reader of an expression whose operators bind tighter than a precedence. -/
abbrev ExpressionReader := Precedence → Parse Code

/-! ### Statements -/

/-- A `let` statement, which is missing where its name or its `=` is. -/
def letStatement (inner : ExpressionReader) : Parse Code :=
  requiring .ident do
    let name := (← current).literal
    requiring .assign do
      advance
      let value ← inner .lowest
      let _ ← accept .semicolon
      return .letStatement name value

/-- A `return` statement, with or without a value. -/
def returnStatement (inner : ExpressionReader) : Parse Code := do
  match (← peek).kind with
  | .semicolon =>
    advance
    return .returnStatement .missing
  | .rbrace | .eof => return .returnStatement .missing
  | _ =>
    advance
    let value ← inner .lowest
    let _ ← accept .semicolon
    return .returnStatement value

/-- An expression that stands as a statement. -/
def expressionStatement (inner : ExpressionReader) : Parse Code := do
  let value ← inner .lowest
  let _ ← accept .semicolon
  return .expressionStatement value

/-- Any statement. -/
def statement (inner : ExpressionReader) : Parse Code := do
  match (← current).kind with
  | .kwLet => letStatement inner
  | .kwReturn => returnStatement inner
  | _ => expressionStatement inner

/-- The statements up to a token of one of the kinds `closing`. Statements that are missing are
left out. -/
def statements (inner : ExpressionReader) (closing : List Kind) :
    (fuel : Nat) → Parse (List Code)
  | 0 => failure
  | fuel + 1 => do
    if (← current).kind ∈ closing then
      return []
    else
      let s ← statement inner
      advance
      let rest ← statements inner closing fuel
      return if s.isMissing then rest else s :: rest

/-- A block, from its opening brace. The end of the text closes it too. -/
def block (fuel : Nat) (inner : ExpressionReader) : Parse Code := do
  advance
  return .block (← statements inner [.rbrace, .eof] fuel)

/-! ### Operands -/

/-- An integer literal, which is missing where it is out of range. -/
def integerLiteral : Parse Code := do
  let t ← current
  match Word.ofLiteral? t.literal with
  | some n => return .integer n
  | none =>
    report (.integerRange t.literal t.position)
    return .missing

def prefixed (inner : ExpressionReader) : Parse Code := do
  let operator := (← current).literal
  advance
  return .prefixed operator (← inner .unary)

/-- An expression in parentheses, which is missing where they are not closed. -/
def grouped (inner : ExpressionReader) : Parse Code := do
  advance
  let e ← inner .lowest
  requiring .rparen (return e)

/-- A conditional, which is missing where one of its parentheses or braces is. -/
def conditional (fuel : Nat) (inner : ExpressionReader) : Parse Code :=
  requiring .lparen do
    advance
    let condition ← inner .lowest
    requiring .rparen <| requiring .lbrace do
      let consequence ← block fuel inner
      if ← accept .kwElse then
        requiring .lbrace do
          return .conditional condition consequence (← block fuel inner)
      else
        return .conditional condition consequence .missing

/-- The parameters after the first, and the closing parenthesis. -/
def moreParameters : (fuel : Nat) → Parse (Option (List String))
  | 0 => failure
  | fuel + 1 => do
    if ← accept .comma then
      if ← expect .ident then
        let name := (← current).literal
        return (← moreParameters fuel).map (name :: ·)
      else
        return none
    else if ← expect .rparen then
      return some []
    else
      return none

/-- The parameters of a function, from its opening parenthesis to the closing one. -/
def parameters (fuel : Nat) : Parse (Option (List String)) := do
  if ← accept .rparen then
    return some []
  else if ← expect .ident then
    let name := (← current).literal
    return (← moreParameters fuel).map (name :: ·)
  else
    return none

/-- A function, which is missing where its parameters or its braces are. -/
def function (fuel : Nat) (inner : ExpressionReader) : Parse Code :=
  requiring .lparen do
    match ← parameters fuel with
    | some names =>
      requiring .lbrace do
        return .function names (← block fuel inner)
    | none => return .missing

/-- The operand that starts with the token `t` in hand. -/
def operand (fuel : Nat) (inner : ExpressionReader) (t : Token) : Parse Code :=
  match t.kind with
  | .ident => return .identifier t.literal
  | .int => integerLiteral
  | .string => return .string t.literal
  | .kwTrue => return .boolean true
  | .kwFalse => return .boolean false
  | .bang | .minus => prefixed inner
  | .lparen => grouped inner
  | .kwIf => conditional fuel inner
  | .kwFn => function fuel inner
  | _ => return .missing

/-! ### Operations -/

/-- The arguments after the first, and the closing parenthesis. There is no result where an
argument is missing or the parenthesis is. -/
def moreArguments (inner : ExpressionReader) : (fuel : Nat) → Parse (Option (List Code))
  | 0 => failure
  | fuel + 1 => do
    if ← accept .comma then
      advance
      let a ← inner .lowest
      if a.isMissing then
        return none
      else
        return (← moreArguments inner fuel).map (a :: ·)
    else if ← expect .rparen then
      return some []
    else
      return none

/-- The arguments of a call, from its opening parenthesis to the closing one. -/
def arguments (fuel : Nat) (inner : ExpressionReader) : Parse (Option (List Code)) := do
  if ← accept .rparen then
    return some []
  else
    advance
    let a ← inner .lowest
    if a.isMissing then
      return none
    else
      return (← moreArguments inner fuel).map (a :: ·)

/-- The operation that the token in hand makes of the operand `left`: a call, or an infix
operation whose right operand binds tighter. -/
def operation (fuel : Nat) (inner : ExpressionReader) (left : Code) : Parse Code := do
  let t ← current
  if t.kind = .lparen then
    match ← arguments fuel inner with
    | some as => return .call left as
    | none => return .missing
  else
    advance
    return .infixed left t.literal (← inner t.kind.precedence)

/-- Continues the expression `left` as long as the next token binds tighter than `precedence`. -/
def operations (fuel : Nat) (inner : ExpressionReader) (precedence : Precedence) :
    (rounds : Nat) → Code → Parse Code
  | 0, _ => failure
  | rounds + 1, left => do
    if precedence < (← peek).kind.precedence then
      advance
      operations fuel inner precedence rounds (← operation fuel inner left)
    else
      return left

/-- An expression whose inner expressions are read by `inner`. It is missing where its first
operand cannot start. -/
def expressionWith (fuel : Nat) (inner : ExpressionReader) (precedence : Precedence) :
    Parse Code := do
  let t ← current
  if t.kind.startsOperand then
    let left ← operand fuel inner t
    operations fuel inner precedence fuel left
  else if t.kind = .illegal then
    -- It was reported when it was read.
    return .missing
  else
    report (.noExpression t.kind t.position)
    return .missing

/-- An expression whose operators bind tighter than `precedence`, nesting below `budget`
levels. -/
def expression (fuel : Nat) : (budget : Nat) → ExpressionReader
  | 0, _ => failure
  | budget + 1, precedence => expressionWith fuel (expression fuel budget) precedence

end MonkeyLang.Parse
