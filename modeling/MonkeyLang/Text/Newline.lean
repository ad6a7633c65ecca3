/-!
Line ends: how they are read from a file, and how an input falls into lines.
-/

namespace MonkeyLang.Text

/-- A stored text as it is read: a carriage return, alone or before a line feed, is a line feed. -/
def normalizeNewlines : List Char → List Char
  | [] => []
  | '\r' :: '\n' :: cs => '\n' :: normalizeNewlines cs
  | '\r' :: cs => '\n' :: normalizeNewlines cs
  | c :: cs => c :: normalizeNewlines cs

/-- The lines of an input, each without its line feed. Text after the last line feed is a line
only when there is some. -/
def lines : List Char → List (List Char)
  | [] => []
  | '\n' :: cs => [] :: lines cs
  | c :: cs =>
    match lines cs with
    | [] => [[c]]
    | l :: ls => (c :: l) :: ls

end MonkeyLang.Text
