/-!
File paths, and a directory as a set of files by their paths. A path is kept in a normal form, so
two spellings of one place are equal and print alike.
-/

namespace MonkeyLang.CommandLine

/-- A file path: how it is anchored, and its parts without empty ones and single dots. -/
structure Path where
  root : List Char := []
  parts : List (List Char) := []
  deriving DecidableEq, Repr, Inhabited

namespace Path

/-- The parts of a text between slashes. -/
def splitSlash : List Char → List (List Char)
  | [] => [[]]
  | '/' :: cs => [] :: splitSlash cs
  | c :: cs =>
    match splitSlash cs with
    | [] => [[c]]
    | part :: parts => (c :: part) :: parts

/-- The anchor of a path: two slashes at the start are kept as two, any other number above zero
is one. -/
def anchor : List Char → List Char
  | '/' :: '/' :: '/' :: _ => ['/']
  | '/' :: '/' :: _ => ['/', '/']
  | '/' :: _ => ['/']
  | _ => []

def ofString (text : String) : Path :=
  let cs := text.toList
  ⟨anchor cs, (splitSlash cs).filter fun part => part ≠ [] ∧ part ≠ ['.']⟩

/-- The text of a path. A path without anchor and parts is a single dot. -/
def text (p : Path) : String :=
  let body := List.intercalate ['/'] p.parts
  if p.root.isEmpty && p.parts.isEmpty then "." else String.ofList (p.root ++ body)

def extended (p : Path) (suffix : String) : Path :=
  match p.parts.getLast? with
  | some last => { p with parts := p.parts.dropLast ++ [last ++ suffix.toList] }
  | none => p

/-- The place that a walk through directories comes to from the place `here`, which is given from
the innermost part to the outermost one. Two dots go back by one; there is no result where they go
back too far. -/
def steps (here : List (List Char)) : List (List Char) → Option (List (List Char))
  | [] => some here.reverse
  | part :: parts =>
    if part = ['.', '.'] then
      match here with
      | _ :: outer => steps outer parts
      | [] => none
    else steps (part :: here) parts

/-- The place of a path inside the directory that paths start from. -/
def place? (p : Path) : Option (List (List Char)) :=
  if p.root.isEmpty then steps [] p.parts else none

end Path

/-- What stands at a path. -/
inductive Found where
  | missing
  | directory
  /-- Nothing can stand there, since the path or a part of it is too long. -/
  | tooLong
  | file (content : ByteArray)
  deriving Inhabited

/-- A directory as the files in it and below, by their paths inside it. -/
structure Directory where
  files : List (List (List Char) × ByteArray)

namespace Directory

/-- What stands at a place inside the directory. A place above another one is a directory. -/
def at? (d : Directory) (parts : List (List Char)) : Found :=
  match d.files.find? fun f => f.1 = parts with
  | some f => .file f.2
  | none =>
    if parts.isEmpty || d.files.any fun f => parts.isPrefixOf f.1 then .directory else .missing

/-- The number of bytes that a part of a path and a whole path can have. -/
def partLimit : Nat := 255
def pathLimit : Nat := 4095

/-- What stands at the end of the walk `parts` from the place `here`, which is given from the
innermost part to the outermost one. Each place on the way must be a directory. -/
def walk (d : Directory) (here : List (List Char)) : List (List Char) → Found
  | [] => d.at? here.reverse
  | part :: parts =>
    match d.at? here.reverse with
    | .directory =>
      if part = ['.', '.'] then
        match here with
        | _ :: outer => walk d outer parts
        -- Of what is outside only the directories right above are known.
        | [] => if parts.all (· = ['.', '.']) then .directory else .missing
      else if partLimit < (String.ofList part).utf8ByteSize then .tooLong
      else walk d (part :: here) parts
    | _ => .missing

/-- What stands at a path. Of the anchored paths only the anchor itself is known. -/
def find (d : Directory) (p : Path) : Found :=
  if pathLimit < p.text.utf8ByteSize then .tooLong
  else if p.root.isEmpty then d.walk [] p.parts
  else if p.parts.isEmpty then .directory
  else .missing

def ofFiles (files : List (String × ByteArray)) : Directory :=
  ⟨files.map fun f => ((Path.ofString f.1).parts, f.2)⟩

end Directory

end MonkeyLang.CommandLine
