import MonkeyLang.Token.Source

/-!
Cutting a text into tokens. `Source.token` reads one token after the blanks before it; at the end
of the text it gives the `eof` token, again and again. `Source.tokens` reads all of them.
-/

namespace MonkeyLang

namespace Source

/-- The token at the first character of `s`, which is `c` with `cs` after it, and the source
after that token. -/
def tokenAt (s : Source) (c : Char) (cs : List Char) : Token × Source :=
  let token (kind : Kind) (literal : List Char) : Token :=
    ⟨kind, String.ofList literal, s.position⟩
  if c = '=' then
    match cs with
    | '=' :: rest => (token .eq ['=', '='], s.past ['=', '='] rest)
    | _ => (token .assign ['='], s.past ['='] cs)
  else if c = '!' then
    match cs with
    | '=' :: rest => (token .notEq ['!', '='], s.past ['!', '='] rest)
    | _ => (token .bang ['!'], s.past ['!'] cs)
  else if c = '"' then
    -- There are no escapes, and a string that is not closed runs to the end of the text.
    let body := cs.takeWhile (· ≠ '"')
    match cs.dropWhile (· ≠ '"') with
    | [] => (token .string body, s.past ('"' :: body) [])
    | _ :: rest => (token .string body, s.past ('"' :: body ++ ['"']) rest)
  else if isLetter c then
    let word := c :: cs.takeWhile isLetter
    (token (.ofWord (String.ofList word)) word, s.past word (cs.dropWhile isLetter))
  else if isDigit c then
    let digits := c :: cs.takeWhile isDigit
    (token .int digits, s.past digits (cs.dropWhile isDigit))
  else
    (token ((Kind.ofSymbol? c).getD .illegal) [c], s.past [c] cs)

/-- The next token, and the source after it. -/
def token (s : Source) : Token × Source :=
  let s := s.skipSpace
  match s.rest with
  | [] => (⟨.eof, "", s.position⟩, s)
  | c :: cs => s.tokenAt c cs

theorem length_dropWhile_le (p : Char → Bool) (cs : List Char) :
    (cs.dropWhile p).length ≤ cs.length :=
  (List.dropWhile_sublist _).length_le

/-- A token takes its first character away. -/
theorem rest_tokenAt_length_le (s : Source) (c : Char) (cs : List Char) :
    (s.tokenAt c cs).2.rest.length ≤ cs.length := by
  have hl := length_dropWhile_le isLetter cs
  have hd := length_dropWhile_le isDigit cs
  have hq := length_dropWhile_le (fun c => decide (c ≠ '"')) cs
  unfold tokenAt
  dsimp only
  split
  -- `=`, then `!`
  · split <;> simp
  split
  · split <;> simp
  split
  · split
    · simp
    -- the closing quotation mark is taken with the text
    · next h => simp only [h, List.length_cons] at hq; simp only [rest_past]; omega
  split
  · exact hl
  split
  · exact hd
  · exact Nat.le_refl _

/-- A text that has a token left becomes shorter by reading it. -/
theorem rest_token_length_lt {s : Source} (h : s.skipSpace.rest ≠ []) :
    s.token.2.rest.length < s.rest.length := by
  unfold token
  dsimp only
  split
  · contradiction
  · next c cs hc =>
    have h₁ := rest_tokenAt_length_le s.skipSpace c cs
    have h₂ := s.rest_skipSpace_length_le
    rw [hc] at h₂
    simp only [List.length_cons] at h₂
    omega

/-- All tokens of a text; the last one is its only `eof`. -/
def tokens (s : Source) : List Token :=
  if _h : s.skipSpace.rest = [] then [s.token.1]
  else s.token.1 :: s.token.2.tokens
termination_by s.rest.length
decreasing_by exact rest_token_length_lt _h

/-- The first `n` tokens that reading gives, with `eof` repeated past the end. -/
def firstTokens : Nat → Source → List Token
  | 0, _ => []
  | n + 1, s => s.token.1 :: firstTokens n s.token.2

end Source

def tokenize (text : String) : List Token :=
  (Source.ofString text).tokens

end MonkeyLang
