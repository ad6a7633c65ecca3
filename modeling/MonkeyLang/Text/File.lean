import MonkeyLang.Text.Newline

/-!
The text of a stored file.
-/

namespace MonkeyLang

/-- The text of a stored file, if its bytes are UTF-8. Its line ends are read as line feeds. -/
def readText? (bytes : ByteArray) : Option String :=
  (String.fromUTF8? bytes).map fun s => String.ofList (Text.normalizeNewlines s.toList)

end MonkeyLang
