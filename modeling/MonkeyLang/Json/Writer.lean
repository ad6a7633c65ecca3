import MonkeyLang.Json.Basic

/-!
JSON values as text, one field or element to a line, each level two columns further in.
-/

namespace MonkeyLang.Json

/-- One character of a string: the quote, the backslash and the controls are escaped. -/
def writeChar (c : Char) : List Char :=
  if c = '"' then ['\\', '"']
  else if c = '\\' then ['\\', '\\']
  else if c = '\n' then ['\\', 'n']
  else if c = '\r' then ['\\', 'r']
  else if c = '\t' then ['\\', 't']
  else if c = '\x08' then ['\\', 'b']
  else if c = '\x0c' then ['\\', 'f']
  else if c.toNat < 0x20 then '\\' :: 'u' :: Text.hex 4 c.toNat
  else [c]

def writeString (s : String) : List Char :=
  '"' :: s.toList.flatMap writeChar ++ ['"']

/-- A number with a point or an exponent; the special ones are words. -/
def writeReal : Real64 → List Char
  | .nan => "NaN".toList
  | .infinite negative => if negative then "-Infinity".toList else "Infinity".toList
  | x => x.text

/-- A new line at the given level. -/
def lineAt (level : Nat) : List Char :=
  '\n' :: List.replicate (2 * level) ' '

mutual

/-- A value that starts at the given level. -/
def write (level : Nat) : Json → List Char
  | .null => "null".toList
  | .bool b => (if b then "true" else "false").toList
  | .int n => (toString n).toList
  | .real x => writeReal x
  | .string s => writeString s
  | .array [] => ['[', ']']
  | .array (j :: js) =>
    '[' :: lineAt (level + 1) ++ (j.write (level + 1) ++ writeElements (level + 1) js) ++
      lineAt level ++ [']']
  | .object [] => ['{', '}']
  | .object ((k, j) :: fs) =>
    '{' :: lineAt (level + 1) ++
      (writeString k ++ ':' :: ' ' :: j.write (level + 1) ++ writeFields (level + 1) fs) ++
      lineAt level ++ ['}']
termination_by structural j => j

/-- The elements after the first, each with the comma before it. -/
def writeElements (level : Nat) : List Json → List Char
  | [] => []
  | j :: js => ',' :: lineAt level ++ j.write level ++ writeElements level js
termination_by structural js => js

/-- The fields after the first, each with the comma before it. -/
def writeFields (level : Nat) : List (String × Json) → List Char
  | [] => []
  | (k, j) :: fs =>
    ',' :: lineAt level ++ writeString k ++ ':' :: ' ' :: j.write level ++ writeFields level fs
termination_by structural fs => fs

end

def pretty (j : Json) : String :=
  String.ofList (j.write 0)

end MonkeyLang.Json
