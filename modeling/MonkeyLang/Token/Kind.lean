/-!
The kinds of token, with the tables of the keywords and of the tokens of one character.
-/

namespace MonkeyLang

/-- The kinds of token. Every text is cut into tokens of these kinds; a character that starts no
token is `illegal`, and the end of the text is `eof`. -/
inductive Kind where
  | illegal
  | eof
  | ident
  | int
  | string
  | assign
  | plus
  | minus
  | bang
  | asterisk
  | slash
  | lt
  | gt
  | eq
  | notEq
  | comma
  | semicolon
  | lparen
  | rparen
  | lbrace
  | rbrace
  | kwFn
  | kwLet
  | kwReturn
  | kwTrue
  | kwFalse
  | kwIf
  | kwElse
  deriving DecidableEq, Repr, Inhabited

namespace Kind

/-- How diagnostics show a kind: operators and delimiters by their text, the rest by a word. -/
def display : Kind → String
  | .illegal => "ILLEGAL"
  | .eof => "EOF"
  | .ident => "IDENT"
  | .int => "INT"
  | .string => "STRING"
  | .assign => "="
  | .plus => "+"
  | .minus => "-"
  | .bang => "!"
  | .asterisk => "*"
  | .slash => "/"
  | .lt => "<"
  | .gt => ">"
  | .eq => "=="
  | .notEq => "!="
  | .comma => ","
  | .semicolon => ";"
  | .lparen => "("
  | .rparen => ")"
  | .lbrace => "\x7b"
  | .rbrace => "\x7d"
  | .kwFn => "FUNCTION"
  | .kwLet => "LET"
  | .kwReturn => "RETURN"
  | .kwTrue => "TRUE"
  | .kwFalse => "FALSE"
  | .kwIf => "IF"
  | .kwElse => "ELSE"

/-- The kinds of the words with a meaning of their own. -/
def keyword? : String → Option Kind
  | "fn" => some .kwFn
  | "let" => some .kwLet
  | "return" => some .kwReturn
  | "true" => some .kwTrue
  | "false" => some .kwFalse
  | "if" => some .kwIf
  | "else" => some .kwElse
  | _ => none

/-- The kind of a word: that of a keyword, or an identifier. -/
def ofWord (word : String) : Kind :=
  (keyword? word).getD .ident

/-- The kinds of the characters that are a token each, whatever follows. The characters `=` and
`!` are not among them, since `==` and `!=` are tokens too. -/
def ofSymbol? : Char → Option Kind
  | '+' => some .plus
  | '-' => some .minus
  | '*' => some .asterisk
  | '/' => some .slash
  | '<' => some .lt
  | '>' => some .gt
  | ',' => some .comma
  | ';' => some .semicolon
  | '(' => some .lparen
  | ')' => some .rparen
  | '{' => some .lbrace
  | '}' => some .rbrace
  | _ => none

end Kind

end MonkeyLang
