import MonkeyLang.Proofs.Token.Spelling

/-!
# Texts that are written from lexemes

A text is cut into the lexemes that its characters form one after another, each with those behind it
in view: `Cut.map_lexeme_tokens`. A text that is made of lexemes with blanks between them is cut into
these lexemes again, whatever the blanks are: `map_lexeme_tokens`. The blanks matter only in that
there are some. A lexeme ends where a blank follows it, since no blank goes on a word, a number or an
`=`.
-/

namespace MonkeyLang

namespace Lexeme

/-- How a lexeme is written: strings stand between quotes, all others as they are. -/
def spelling (x : Lexeme) : String :=
  if x.kind = .string then "\"" ++ x.literal ++ "\"" else x.literal

/-- The lexemes that a text can have. -/
inductive Valid : Lexeme → Prop where
  | word {cs : List Char} : cs ≠ [] → (∀ c ∈ cs, isLetter c = true) →
      Valid ⟨.ofWord (String.ofList cs), String.ofList cs⟩
  | int {cs : List Char} : cs ≠ [] → (∀ c ∈ cs, isDigit c = true) → Valid ⟨.int, String.ofList cs⟩
  | string {cs : List Char} : '"' ∉ cs → Valid ⟨.string, String.ofList cs⟩
  | assign : Valid ⟨.assign, "="⟩
  | eq : Valid ⟨.eq, "=="⟩
  | bang : Valid ⟨.bang, "!"⟩
  | notEq : Valid ⟨.notEq, "!="⟩
  | single {c : Char} : IsSingle c →
      Valid ⟨(Kind.ofSymbol? c).getD .illegal, String.ofList [c]⟩

/-- What is formed somewhere is a lexeme of a text. -/
theorem Valid.of_forms {rest span : List Char} {x : Lexeme} (h : Forms rest span x) : x.Valid := by
  cases h with
  | word hn hl _ => exact .word hn hl
  | int hn hl _ => exact .int hn hl
  | string hq | openString hq _ => exact .string hq
  | assign _ => exact .assign
  | eq => exact .eq
  | bang _ => exact .bang
  | notEq => exact .notEq
  | symbol hk =>
    have h := Valid.single (IsSingle.of_ofSymbol? hk)
    rwa [hk] at h
  | illegal hc hk =>
    have h := Valid.single hc
    rwa [hk] at h

end Lexeme

/-! ## One lexeme -/

/-- The characters that follow go on no lexeme: the first of them is no letter, no digit and no
`=`. -/
def Stops (rest : List Char) : Prop :=
  ∀ c ∈ rest.head?, isLetter c = false ∧ isDigit c = false ∧ c ≠ '='

/-- A character that goes on no lexeme ends each. -/
theorem stops_cons {c : Char} (cs : List Char)
    (h : isLetter c = false ∧ isDigit c = false ∧ c ≠ '=') : Stops (c :: cs) := by
  intro d hd
  rw [List.head?_cons, Option.mem_some] at hd
  exact hd ▸ h

/-- The end of the text, or a blank: what ends every lexeme. -/
def Separated : List Char → Prop
  | [] => True
  | c :: _ => isSpace c = true

/-- A blank ends every lexeme. -/
theorem Separated.stops {rest : List Char} (h : Separated rest) : Stops rest := by
  cases rest with
  | nil => nofun
  | cons c cs =>
    have hc : isSpace c = true := h
    refine stops_cons cs ⟨isLetter_of_isSpace hc, isDigit_of_isSpace hc, ?_⟩
    rintro rfl
    exact absurd hc (by decide)

/-- Every lexeme is formed by its spelling, if nothing follows that goes on it. -/
theorem Lexeme.Valid.forms {x : Lexeme} {rest : List Char} (h : x.Valid) (hs : Stops rest) :
    Forms rest x.spelling.toList x := by
  -- what follows is no `=`, so `=` and `!` stand for themselves
  have hne : rest.head? ≠ some '=' := fun he => (hs '=' he).2.2 rfl
  cases h with
  | @word cs hn hl =>
    have hk : Kind.ofWord (String.ofList cs) ≠ .string :=
      Kind.forall_ofWord (P := (· ≠ .string)) (by decide) _
    rw [Lexeme.spelling, if_neg hk, String.toList_ofList]
    exact .word hn hl fun c hc => (hs c hc).1
  | int hn hl =>
    have hk : ¬ Kind.int = .string := by decide
    rw [Lexeme.spelling, if_neg hk, String.toList_ofList]
    exact .int hn hl fun c hc => (hs c hc).2.1
  | @string cs hq =>
    have he : (Lexeme.mk .string (String.ofList cs)).spelling.toList = '"' :: cs ++ ['"'] := by
      rw [Lexeme.spelling, if_pos rfl, String.toList_append, String.toList_append]
      simp
    rw [he]
    exact .string hq
  | assign => exact .assign hne
  | eq => exact .eq
  | bang => exact .bang hne
  | notEq => exact .notEq
  | @single c hc =>
    cases hk : Kind.ofSymbol? c with
    | none =>
      have he : (Lexeme.mk .illegal (String.ofList [c])).spelling.toList = [c] :=
        String.toList_ofList
      rw [Option.getD_none, he]
      exact .illegal hc hk
    | some k =>
      -- no symbol is that of a text
      have hn : k ≠ .string := by
        rintro rfl
        unfold Kind.ofSymbol? at hk
        split at hk <;> cases hk
      rw [Option.getD_some, Lexeme.spelling, if_neg hn, String.toList_ofList]
      exact .symbol hk

/-! ## All lexemes of a text -/

/-- The characters `cs` are cut into the lexemes `xs`: each lexeme is formed by some characters where
the rest of the text follows them, with blanks before it or none. -/
inductive Cut : List Lexeme → List Char → Prop where
  | nil {blanks : List Char} : (∀ c ∈ blanks, isSpace c = true) → Cut [] blanks
  | cons {x : Lexeme} {xs : List Lexeme} {blanks span cs : List Char} :
      (∀ c ∈ blanks, isSpace c = true) → Forms cs span x → Cut xs cs →
      Cut (x :: xs) (blanks ++ (span ++ cs))

/-- The characters `cs` write the lexemes `xs` one after another, with blanks between any two of
them and perhaps around all of them. -/
inductive Written : List Lexeme → List Char → Prop where
  | nil {blanks : List Char} : (∀ c ∈ blanks, isSpace c = true) → Written [] blanks
  | cons {x : Lexeme} {xs : List Lexeme} {blanks cs : List Char} :
      (∀ c ∈ blanks, isSpace c = true) → x.Valid → Separated cs → Written xs cs →
      Written (x :: xs) (blanks ++ (x.spelling.toList ++ cs))

/-- What is written with blanks is cut at them. -/
theorem Written.cut {xs : List Lexeme} {cs : List Char} (h : Written xs cs) : Cut xs cs := by
  induction h with
  | nil hb => exact .nil hb
  | cons hb hx hs _ ih => exact .cons hb (hx.forms hs.stops) ih

/-- One blank more in front changes nothing. -/
theorem Written.skipBlank {c : Char} {xs : List Lexeme} {cs : List Char} (hc : isSpace c = true)
    (h : Written xs cs) : Written xs (c :: cs) := by
  cases h with
  | nil hb =>
    exact .nil fun d hd => (List.mem_cons.1 hd).elim (fun he => he ▸ hc) (hb d)
  | @cons x xs blanks cs hb hx hs h =>
    rw [← List.cons_append]
    exact .cons (fun d hd => (List.mem_cons.1 hd).elim (fun he => he ▸ hc) (hb d)) hx hs h

/-- Lexemes with a blank between any two of them. -/
theorem written_intercalate {xs : List Lexeme} (h : ∀ x ∈ xs, x.Valid) :
    Written xs (" ".intercalate (xs.map Lexeme.spelling)).toList := by
  induction xs with
  | nil => exact .nil (by simp)
  | cons x xs ih =>
    have hx : x.Valid := h x List.mem_cons_self
    have ih := ih fun y hy => h y (List.mem_cons_of_mem x hy)
    cases xs with
    | nil =>
      rw [List.map_cons, List.map_nil, String.intercalate_singleton,
        ← List.append_nil x.spelling.toList]
      exact @Written.cons x [] [] [] (by simp) hx trivial (.nil (by simp))
    | cons y ys =>
      rw [List.map_cons, List.map_cons, String.intercalate_cons_cons, String.toList_append,
        String.toList_append, List.append_assoc]
      exact @Written.cons x (y :: ys) [] _ (by simp) hx rfl (ih.skipBlank rfl)

namespace Source

/-- Behind the last lexeme comes the end of the text, again and again. -/
theorem token_of_eq_nil {s : Source} (h : s.skipSpace.rest = []) :
    s.token = (⟨.eof, "", s.skipSpace.position⟩, s.skipSpace) := by
  rw [token]
  simp only [h]

/-- The next token is read at the first character that is no blank. -/
theorem token_of_eq_cons {s : Source} {c : Char} {cs : List Char}
    (h : s.skipSpace.rest = c :: cs) : s.token = s.skipSpace.tokenAt c cs := by
  rw [token]
  simp only [h]

/-- A text of blanks has the end of the text for its only token. -/
theorem tokens_of_eq_nil {s : Source} (h : s.skipSpace.rest = []) :
    s.tokens = [⟨.eof, "", s.skipSpace.position⟩] := by
  rw [tokens, dif_pos h, token_of_eq_nil h]

/-- Any other text has the tokens behind the first one after it. -/
theorem tokens_of_eq_cons {s : Source} {c : Char} {cs : List Char}
    (h : s.skipSpace.rest = c :: cs) :
    s.tokens = (s.skipSpace.tokenAt c cs).1 :: (s.skipSpace.tokenAt c cs).2.tokens := by
  have hn : s.skipSpace.rest ≠ [] := by rw [h]; exact List.cons_ne_nil _ _
  rw [tokens, dif_neg hn, token_of_eq_cons h]

end Source

/-- The tokens of a text that is cut into lexemes are these lexemes and the end of the text. -/
theorem Cut.map_lexeme_tokens {xs : List Lexeme} {cs : List Char} (h : Cut xs cs) (p : Position) :
    (⟨cs, p⟩ : Source).tokens.map Token.lexeme = xs ++ [⟨.eof, ""⟩] := by
  induction h generalizing p with
  | @nil blanks hb =>
    have hr : (⟨blanks, p⟩ : Source).skipSpace.rest = [] := by
      have hd : (blanks ++ []).dropWhile isSpace = _ := List.dropWhile_append_of_pos hb
      rwa [List.append_nil] at hd
    rw [Source.tokens_of_eq_nil hr]
    rfl
  | @cons x xs blanks span cs hb hx _ ih =>
    obtain ⟨c, ds, he, hc, ht⟩ := hx.read
    have hr : (⟨blanks ++ (span ++ cs), p⟩ : Source).skipSpace.rest = c :: (ds ++ cs) := by
      rw [Source.rest_skipSpace, List.dropWhile_append_of_pos hb, he, List.cons_append,
        List.dropWhile_cons, hc]
      rfl
    rw [Source.tokens_of_eq_cons hr, ht, List.map_cons]
    exact congrArg (x :: ·) (ih _)

/-- A text that is written from lexemes is cut into them. -/
theorem map_lexeme_tokens {xs : List Lexeme} {cs : List Char} (h : Written xs cs) (p : Position) :
    (⟨cs, p⟩ : Source).tokens.map Token.lexeme = xs ++ [⟨.eof, ""⟩] :=
  h.cut.map_lexeme_tokens p

end MonkeyLang
