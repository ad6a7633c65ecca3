import MonkeyLang.Text.Position
import MonkeyLang.Token.Basic

/-!
A text on its way through a reader: the characters that are left, and where they start.
-/

namespace MonkeyLang

/-- What is left to read of a text, and the place where it starts. -/
structure Source where
  rest : List Char
  position : Position := {}
  deriving DecidableEq, Repr, Inhabited

namespace Source

def ofString (text : String) : Source :=
  ⟨text.toList, {}⟩

/-- The source after the characters `taken`, where `rest` is what follows them. -/
def past (s : Source) (taken rest : List Char) : Source :=
  ⟨rest, s.position.after taken⟩

/-- The longest run of characters in `p` at the start, and the source after it. -/
def span (p : Char → Bool) (s : Source) : List Char × Source :=
  let taken := s.rest.takeWhile p
  (taken, s.past taken (s.rest.dropWhile p))

def skipSpace (s : Source) : Source :=
  (s.span isSpace).2

@[simp]
theorem rest_past (s : Source) (taken rest : List Char) : (s.past taken rest).rest = rest := rfl

@[simp]
theorem rest_skipSpace (s : Source) : s.skipSpace.rest = s.rest.dropWhile isSpace := rfl

theorem rest_skipSpace_length_le (s : Source) : s.skipSpace.rest.length ≤ s.rest.length :=
  (List.dropWhile_sublist _).length_le

end Source

end MonkeyLang
