import MonkeyLang.Token.Lexer

/-!
Reading tokens in context. Where a token is wanted, only some kinds of token can stand, and that
decides what the characters are: a keyword that cannot stand there is a plain word, and `==` is
two tokens where only `=` can. Where no kind that can stand fits, the token is the one that the
characters are without a context, and where there is none the character is a stray one.
-/

namespace MonkeyLang

/-- What comes next in a text. -/
inductive Scanned where
  /-- A token, which is `eof` at the end, and the source after it. -/
  | token (t : Token) (rest : Source)
  /-- A character that starts no token. -/
  | stray (c : Char) (position : Position)
  deriving Repr

/-- The text of a token as it was written. -/
def Token.spelling (t : Token) : String :=
  if t.kind = .string then "\"" ++ t.literal ++ "\"" else t.literal

namespace Source

/-- The kind of a word where the kinds in `accepts` can stand. -/
def wordKind (accepts : Kind → Bool) (word : String) : Kind :=
  match Kind.keyword? word with
  | some kind => if !accepts kind && accepts .ident then .ident else kind
  | none => .ident

/-- Whether two characters are read as one token of the kind `long` rather than as one of the kind
`short` and another. -/
def readsLong (accepts : Kind → Bool) (long short : Kind) : Bool :=
  accepts long || !accepts short

/-- The token of the character `c` and of one more `=`, or of `c` alone. -/
def operatorAt (accepts : Kind → Bool) (s : Source) (long short : Kind) (c : Char)
    (cs : List Char) : Scanned :=
  match cs with
  | '=' :: rest =>
    if readsLong accepts long short then
      .token ⟨long, String.ofList [c, '='], s.position⟩ (s.past [c, '='] rest)
    else
      .token ⟨short, String.ofList [c], s.position⟩ (s.past [c] cs)
  | _ => .token ⟨short, String.ofList [c], s.position⟩ (s.past [c] cs)

/-- What comes at the first character of `s`, which is `c` with `cs` after it. -/
def scanAt (accepts : Kind → Bool) (s : Source) (c : Char) (cs : List Char) : Scanned :=
  if c = '=' then
    s.operatorAt accepts .eq .assign c cs
  else if c = '!' then
    s.operatorAt accepts .notEq .bang c cs
  else if c = '"' then
    let body := cs.takeWhile (· ≠ '"')
    match cs.dropWhile (· ≠ '"') with
    | [] => .stray c s.position
    | _ :: rest =>
      .token ⟨.string, String.ofList body, s.position⟩ (s.past ('"' :: body ++ ['"']) rest)
  else if isLetter c then
    let word := c :: cs.takeWhile isLetter
    let text := String.ofList word
    .token ⟨wordKind accepts text, text, s.position⟩ (s.past word (cs.dropWhile isLetter))
  else if isDigit c then
    let digits := c :: cs.takeWhile isDigit
    .token ⟨.int, String.ofList digits, s.position⟩ (s.past digits (cs.dropWhile isDigit))
  else
    match Kind.ofSymbol? c with
    | some kind => .token ⟨kind, String.ofList [c], s.position⟩ (s.past [c] cs)
    | none => .stray c s.position

/-- What comes next where the kinds in `accepts` can stand. -/
def scan (accepts : Kind → Bool) (s : Source) : Scanned :=
  let s := s.skipSpace
  match s.rest with
  | [] => .token ⟨.eof, "", s.position⟩ s
  | c :: cs => s.scanAt accepts c cs

/-- A token at a character takes it away. -/
theorem rest_scanAt_length_le {accepts : Kind → Bool} {s s' : Source} {c : Char} {cs : List Char}
    {t : Token} (h : s.scanAt accepts c cs = .token t s') : s'.rest.length ≤ cs.length := by
  have hl := length_dropWhile_le isLetter cs
  have hd := length_dropWhile_le isDigit cs
  have hq := length_dropWhile_le (fun c => decide (c ≠ '"')) cs
  have ho : ∀ long short, s.operatorAt accepts long short c cs = .token t s' →
      s'.rest.length ≤ cs.length := by
    intro long short h
    unfold operatorAt at h
    split at h
    · split at h <;> cases h <;> simp
    · cases h
      exact Nat.le_refl _
  unfold scanAt at h
  dsimp only at h
  split at h
  -- `=`, then `!`
  · exact ho _ _ h
  split at h
  · exact ho _ _ h
  split at h
  -- a quotation mark, which takes its partner too
  · split at h
    · cases h
    · next hd => cases h; simp only [hd, List.length_cons] at hq; simp only [rest_past]; omega
  split at h
  -- a word, a number, and the other characters
  · cases h; exact hl
  split at h
  · cases h; exact hd
  split at h
  · cases h; exact Nat.le_refl _
  · cases h

/-- A text becomes shorter by reading a token other than its end. -/
theorem rest_scan_length_lt {accepts : Kind → Bool} {s s' : Source} {t : Token}
    (h : s.scan accepts = .token t s') (ht : t.kind ≠ .eof) : s'.rest.length < s.rest.length := by
  unfold scan at h
  dsimp only at h
  split at h
  · cases h
    exact absurd rfl ht
  · next c cs hc =>
    have h₁ := rest_scanAt_length_le h
    have h₂ := s.rest_skipSpace_length_le
    rw [hc] at h₂
    simp only [List.length_cons] at h₂
    omega

end Source

end MonkeyLang
