import MonkeyLang.Text.Digit
import MonkeyLang.Text.Quoted

/-!
The arguments of the command line. Options stand anywhere, a long one by any beginning that only
it has, and with its value after `=` or in the next argument; short flags can share a dash, and an
equals sign after the first one does not matter. After `--` nothing is an option. The first
argument that is no option is the program file.
-/

namespace MonkeyLang.CommandLine

/-- The options. -/
inductive Opt where
  | help
  | verbose
  | strictArity
  | grammar
  | emitAst
  | ast
  deriving DecidableEq, Repr

namespace Opt

def spellings : List (List Char × Opt) :=
  [("-h".toList, .help), ("--help".toList, .help), ("-v".toList, .verbose),
    ("--strict-arity".toList, .strictArity), ("--grammar".toList, .grammar),
    ("--emit-ast".toList, .emitAst), ("--ast".toList, .ast)]

def ofSpelling? (cs : List Char) : Option Opt :=
  (spellings.find? fun p => p.1 = cs).map (·.2)

/-- The name of an option in messages. -/
def name : Opt → String
  | .help => "-h/--help"
  | .verbose => "-v"
  | .strictArity => "--strict-arity"
  | .grammar => "--grammar"
  | .emitAst => "--emit-ast"
  | .ast => "--ast"

def hasValue : Opt → Bool
  | .emitAst | .ast => true
  | _ => false

end Opt

/-- What is wrong with the arguments. -/
inductive UsageError where
  | unrecognized (arguments : List String)
  | missingValue (o : Opt)
  | unwantedValue (o : Opt) (value : String)
  | conflict (o earlier : Opt)
  | ambiguous (argument : String) (candidates : List String)
  deriving DecidableEq, Repr

/-- The wording of an error. -/
def UsageError.message : UsageError → String
  | .unrecognized arguments => "unrecognized arguments: " ++ " ".intercalate arguments
  | .missingValue o => "argument " ++ o.name ++ ": expected one argument"
  | .unwantedValue o value =>
    "argument " ++ o.name ++ ": ignored explicit argument " ++ Text.quoted value
  | .conflict o earlier =>
    "argument " ++ o.name ++ ": not allowed with argument " ++ earlier.name
  | .ambiguous argument candidates =>
    "ambiguous option: " ++ argument ++ " could match " ++ ", ".intercalate candidates

/-- What an argument is by itself. -/
inductive Item where
  /-- The two dashes that end the options. -/
  | dashes
  | plain (argument : String)
  /-- The flags of one argument. -/
  | flags (os : List Opt)
  /-- An option with its value. -/
  | valued (o : Opt) (value : String)
  /-- An option whose value is the next argument. -/
  | wanting (o : Opt)
  /-- A dash and something that is no option. -/
  | unknown (argument : String)
  /-- An option in a form that it cannot have. -/
  | faulty (e : UsageError)
  deriving DecidableEq, Repr

def dropLineFeed (cs : List Char) : List Char :=
  if cs.getLast? = some '\n' then cs.dropLast else cs

/-- Whether an argument looks like a negative number, and so is no option: a dash, digits, and
perhaps a point with more digits. One line feed may follow. -/
def isNegativeNumber (cs : List Char) : Bool :=
  let isDigit := fun c => (Text.decimalDigit? c).isSome
  match dropLineFeed cs with
  | '-' :: cs =>
    match cs.dropWhile isDigit with
    | [] => !cs.isEmpty
    | '.' :: places => !places.isEmpty && places.all isDigit
    | _ => false
  | _ => false

/-- The text before the first equals sign, and the text after it if there is one. -/
def splitEquals (cs : List Char) : List Char × Option (List Char) :=
  match cs.dropWhile (· ≠ '=') with
  | [] => (cs, none)
  | _ :: value => (cs.takeWhile (· ≠ '='), some value)

/-- The flags that share a dash: those before `o`, then `o`, then the characters after it. Short
options have no values, so a character that is none is blamed on the flag before it. -/
def sharedDash (before : List Opt) (o : Opt) : List Char → Item
  | [] => .flags (before ++ [o])
  | c :: cs =>
    match Opt.ofSpelling? ['-', c] with
    | some next => sharedDash (before ++ [o]) next cs
    | none => .faulty (.unwantedValue o (String.ofList (c :: cs)))

/-- A long option with the value after its equals sign, if there is one. Two dashes are the same
as an empty value there. -/
def longOption (o : Opt) (value : Option (List Char)) : Item :=
  match value with
  | none => if o.hasValue then .wanting o else .flags [o]
  | some v =>
    if o.hasValue then .valued o (if v = ['-', '-'] then "" else String.ofList v)
    else .faulty (.unwantedValue o (String.ofList v))

/-- A short option with what follows its equals sign, if there is one. -/
def shortOption (o : Opt) (rest : Option (List Char)) : Item :=
  match rest with
  | none => .flags [o]
  | some [] => .faulty (.unwantedValue o "")
  | some cs => sharedDash [] o cs

/-- What an argument is that starts with a dash and has more than one character. -/
def classifyDashed (argument : String) (cs : List Char) : Except UsageError Item :=
  let (head, value) := splitEquals cs
  let isLong : Bool := cs.take 2 = ['-', '-']
  match Opt.ofSpelling? head with
  | some o => .ok (if isLong then longOption o value else shortOption o value)
  | none =>
    let otherwise : Item :=
      if isNegativeNumber cs || cs.contains ' ' then .plain argument else .unknown argument
    if isLong then
      match Opt.spellings.filter fun p => head.isPrefixOf p.1 with
      | [] => .ok otherwise
      | [(_, o)] => .ok (longOption o value)
      | several => .error (.ambiguous argument (several.map fun p => String.ofList p.1))
    else
      match Opt.ofSpelling? (cs.take 2) with
      | some o => .ok (sharedDash [] o (cs.drop 2))
      | none => .ok otherwise

/-- What an argument before `--` is by itself. -/
def classify (argument : String) : Except UsageError Item :=
  match argument.toList with
  | '-' :: c :: cs => classifyDashed argument ('-' :: c :: cs)
  | _ => .ok (.plain argument)

/-- What all arguments are. -/
def classifyAll : List String → Except UsageError (List Item)
  | [] => .ok []
  | a :: arguments =>
    if a = "--" then .ok (.dashes :: arguments.map .plain)
    else do
      let item ← classify a
      return item :: (← classifyAll arguments)

/-- What the arguments ask for. -/
structure Options where
  verbosity : Nat := 0
  strictArity : Bool := false
  grammar : Bool := false
  emitAst : Option String := none
  ast : Option String := none
  program : Option String := none
  deriving DecidableEq, Repr, Inhabited

inductive Stop where
  | help
  | error (e : UsageError)
  deriving DecidableEq, Repr

/-- The arguments read so far: what they ask for, those that are too many, and whether the place
of the program file is taken. -/
structure Progress where
  options : Options := {}
  extras : List String := []
  programTaken : Bool := false
  deriving Repr, Inhabited

namespace Progress

def extra (p : Progress) (argument : String) : Progress :=
  { p with extras := p.extras ++ [argument] }

/-- An argument for the place of the program file, which is too many where that is taken. -/
def file (p : Progress) (argument : String) : Progress :=
  if p.programTaken then p.extra argument
  else { p with options := { p.options with program := some argument }, programTaken := true }

/-- Does what an option says. Of two options that exclude each other the later one is to blame. -/
def apply (p : Progress) (o : Opt) (value : String) : Except Stop Progress :=
  let set (options : Options) : Except Stop Progress := .ok { p with options }
  match o with
  | .help => .error .help
  | .verbose => set { p.options with verbosity := p.options.verbosity + 1 }
  | .strictArity => set { p.options with strictArity := true }
  | .grammar => set { p.options with grammar := true }
  | .emitAst =>
    if p.options.ast.isSome then .error (.error (.conflict .emitAst .ast))
    else set { p.options with emitAst := some value }
  | .ast =>
    if p.options.emitAst.isSome then .error (.error (.conflict .ast .emitAst))
    else set { p.options with ast := some value }

def applyAll (p : Progress) : List Opt → Except Stop Progress
  | [] => .ok p
  | o :: os => do applyAll (← p.apply o "") os

/-- Does what all items say. The dashes before or right after the program file belong to it. -/
def read (p : Progress) : List Item → Except Stop Progress
  | [] => .ok p
  | .flags os :: items => do read (← p.applyAll os) items
  | .valued o value :: items => do read (← p.apply o value) items
  | .wanting o :: .plain value :: items => do read (← p.apply o value) items
  | .wanting o :: _ => .error (.error (.missingValue o))
  | .unknown argument :: items => read (p.extra argument) items
  | .faulty e :: _ => .error (.error e)
  | .dashes :: .plain argument :: items =>
    if p.programTaken then read ((p.extra "--").extra argument) items
    else read (p.file argument) items
  | .dashes :: items => read (if p.programTaken then p.extra "--" else p) items
  | .plain argument :: .dashes :: items =>
    if p.programTaken then read ((p.extra argument).extra "--") items
    else read (p.file argument) items
  | .plain argument :: items => read (p.file argument) items

end Progress

/-- What the arguments ask for, or why they ask for no run. -/
def Options.ofArguments (arguments : List String) : Except Stop Options :=
  match classifyAll arguments with
  | .error e => .error (.error e)
  | .ok items => do
    let p ← ({} : Progress).read items
    if p.extras.isEmpty then return p.options else throw (.error (.unrecognized p.extras))

end MonkeyLang.CommandLine
