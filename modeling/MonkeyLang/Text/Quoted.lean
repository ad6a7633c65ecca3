import MonkeyLang.Text.Printable

/-!
Texts between quotes, with every character that has no picture written as an escape.
-/

namespace MonkeyLang.Text

/-- The hexadecimal digits of `n` in lower case, filled up with zeros to `width`. -/
def hex (width n : Nat) : List Char :=
  let digits := Nat.toDigits 16 n
  List.replicate (width - digits.length) '0' ++ digits

/-- The quote that stands around a text: the single one, unless the text holds that one and no
double one. -/
def quoteFor (cs : List Char) : Char :=
  if cs.contains '\'' && !cs.contains '"' then '"' else '\''

/-- One character between quotes `q`: the quote and the backslash are escaped, a character that
cannot be printed is written by its short form or by its number in two, four or eight digits. -/
def quoteChar (q c : Char) : List Char :=
  if c = q || c = '\\' then ['\\', c]
  else if c = '\t' then ['\\', 't']
  else if c = '\n' then ['\\', 'n']
  else if c = '\r' then ['\\', 'r']
  else if isPrintable c then [c]
  else
    let n := c.toNat
    if n < 0x100 then '\\' :: 'x' :: hex 2 n
    else if n < 0x10000 then '\\' :: 'u' :: hex 4 n
    else '\\' :: 'U' :: hex 8 n

def quotedChars (cs : List Char) : List Char :=
  let q := quoteFor cs
  q :: cs.flatMap (quoteChar q) ++ [q]

/-- A text between quotes, as diagnostics and debug notes show it. -/
def quoted (s : String) : String :=
  String.ofList (quotedChars s.toList)

end MonkeyLang.Text
