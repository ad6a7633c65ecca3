import Mathlib.Data.List.TakeWhile
import MonkeyLang.Token.Lexer

/-!
# How tokens are spelled

`Forms rest span x` says which characters `span` are the lexeme `x` where the characters `rest`
follow them. It has one rule for each way to write a token, with what may not follow it, and does not
speak of reading. Reading a token takes just the characters that form it: `forms_tokenAt` says so
of every token that is read, and `Forms.read` of everything that is formed.
-/

namespace MonkeyLang

/-- What a token is without its place: its kind and the text that matters. -/
structure Lexeme where
  kind : Kind
  literal : String
  deriving DecidableEq, Repr

def Token.lexeme (t : Token) : Lexeme :=
  ⟨t.kind, t.literal⟩

/-- The characters that are no part of a longer token. -/
def Lexeme.IsSingle (c : Char) : Prop :=
  c ≠ '=' ∧ c ≠ '!' ∧ c ≠ '"' ∧ isLetter c = false ∧ isDigit c = false ∧ isSpace c = false

instance (c : Char) : Decidable (Lexeme.IsSingle c) :=
  inferInstanceAs (Decidable (_ ∧ _))

/-- The characters `span` are the lexeme `x` if `rest` follows them. A word and a number go on as
far as they can, and so does an `=` or a `!`; a string is closed, unless the text ends with it. A
character that starts none of these is a symbol, or illegal where it is in no table. -/
inductive Forms (rest : List Char) : (span : List Char) → Lexeme → Prop where
  | word {cs : List Char} : cs ≠ [] → (∀ c ∈ cs, isLetter c = true) →
      (∀ c ∈ rest.head?, isLetter c = false) →
      Forms rest cs ⟨.ofWord (String.ofList cs), String.ofList cs⟩
  | int {cs : List Char} : cs ≠ [] → (∀ c ∈ cs, isDigit c = true) →
      (∀ c ∈ rest.head?, isDigit c = false) → Forms rest cs ⟨.int, String.ofList cs⟩
  | string {cs : List Char} : '"' ∉ cs →
      Forms rest ('"' :: cs ++ ['"']) ⟨.string, String.ofList cs⟩
  | openString {cs : List Char} : '"' ∉ cs → rest = [] →
      Forms rest ('"' :: cs) ⟨.string, String.ofList cs⟩
  | assign : rest.head? ≠ some '=' → Forms rest ['='] ⟨.assign, "="⟩
  | eq : Forms rest ['=', '='] ⟨.eq, "=="⟩
  | bang : rest.head? ≠ some '=' → Forms rest ['!'] ⟨.bang, "!"⟩
  | notEq : Forms rest ['!', '='] ⟨.notEq, "!="⟩
  | symbol {c : Char} {k : Kind} : Kind.ofSymbol? c = some k →
      Forms rest [c] ⟨k, String.ofList [c]⟩
  | illegal {c : Char} : Lexeme.IsSingle c → Kind.ofSymbol? c = none →
      Forms rest [c] ⟨.illegal, String.ofList [c]⟩

/-! ## Characters -/

theorem eq_of_isSpace {c : Char} (h : isSpace c = true) :
    c = ' ' ∨ c = '\t' ∨ c = '\r' ∨ c = '\n' := by
  simp only [isSpace, Bool.or_eq_true, decide_eq_true_eq] at h
  rcases h with ((h | h) | h) | h <;> simp [h]

theorem isLetter_of_isSpace {c : Char} (h : isSpace c = true) : isLetter c = false := by
  rcases eq_of_isSpace h with rfl | rfl | rfl | rfl <;> decide

theorem isDigit_of_isSpace {c : Char} (h : isSpace c = true) : isDigit c = false := by
  rcases eq_of_isSpace h with rfl | rfl | rfl | rfl <;> decide

/-- A letter is no blank. -/
theorem isSpace_of_isLetter {c : Char} (h : isLetter c = true) : isSpace c = false := by
  cases hs : isSpace c with
  | false => rfl
  | true =>
    rw [isLetter_of_isSpace hs] at h
    exact absurd h Bool.false_ne_true

/-- A digit is no blank. -/
theorem isSpace_of_isDigit {c : Char} (h : isDigit c = true) : isSpace c = false := by
  cases hs : isSpace c with
  | false => rfl
  | true =>
    rw [isDigit_of_isSpace hs] at h
    exact absurd h Bool.false_ne_true

/-- A digit is no letter. -/
theorem isLetter_of_isDigit {c : Char} (h : isDigit c = true) : isLetter c = false := by
  simp only [isDigit, Bool.and_eq_true, decide_eq_true_eq, Char.le_def, UInt32.le_iff_toNat_le] at h
  simp only [isLetter, Bool.or_eq_false_iff, Bool.and_eq_false_iff, decide_eq_false_iff_not,
    Char.le_def, UInt32.le_iff_toNat_le]
  have h₁ : ('0' : Char).val.toNat = 48 := rfl
  have h₂ : ('9' : Char).val.toNat = 57 := rfl
  have h₃ : ('a' : Char).val.toNat = 97 := rfl
  have h₄ : ('A' : Char).val.toNat = 65 := rfl
  refine ⟨⟨by omega, by omega⟩, ?_⟩
  rintro rfl
  exact absurd h.2 (by decide)

/-! ## Kinds of words -/

/-- What holds of the kind of names and of the kinds of keywords holds of the kind of every word. -/
theorem Kind.forall_ofWord {P : Kind → Prop}
    (h : ∀ k ∈ [Kind.ident, .kwFn, .kwLet, .kwReturn, .kwTrue, .kwFalse, .kwIf, .kwElse], P k)
    (word : String) : P (.ofWord word) := by
  refine h _ ?_
  unfold Kind.ofWord Kind.keyword?
  split <;> decide

theorem Kind.keyword?_eq_none {word : String} (h : Kind.ofWord word = .ident) :
    Kind.keyword? word = none := by
  revert h
  unfold Kind.ofWord Kind.keyword?
  split <;> first | exact fun h => absurd h (by decide) | exact fun _ => rfl

/-- A symbol is no part of a longer token. -/
theorem Lexeme.IsSingle.of_ofSymbol? {c : Char} {k : Kind} (h : Kind.ofSymbol? c = some k) :
    Lexeme.IsSingle c := by
  unfold Kind.ofSymbol? at h
  split at h
  all_goals first | decide | cases h

/-! ## Runs of characters -/

section

variable {q : Char → Bool} {ds rest : List Char}

/-- A run of characters ends before one that is not of its kind. -/
theorem takeWhile_append_of_stop (hd : ∀ c ∈ ds, q c = true) (hr : ∀ c ∈ rest.head?, q c = false) :
    (ds ++ rest).takeWhile q = ds := by
  rw [List.takeWhile_append_of_pos hd]
  cases rest with
  | nil => simp
  | cons c cs => simp [hr c rfl]

/-- What follows a run starts at that character. -/
theorem dropWhile_append_of_stop (hd : ∀ c ∈ ds, q c = true) (hr : ∀ c ∈ rest.head?, q c = false) :
    (ds ++ rest).dropWhile q = rest := by
  rw [List.dropWhile_append_of_pos hd]
  cases rest with
  | nil => rfl
  | cons c cs => simp [hr c rfl]

/-- What follows a run starts with a character that is not of its kind. -/
theorem head?_dropWhile (q : Char → Bool) (cs : List Char) :
    ∀ c ∈ (cs.dropWhile q).head?, q c = false := by
  intro c hc
  have h := List.head?_dropWhile_not q cs
  rw [Option.mem_def.1 hc] at h
  simpa using h

end

/-! ## Reading what is formed -/

section

variable {s : Source} {c : Char} {cs ds rest : List Char}

/-- A letter starts a word, which goes on with all letters behind it. -/
theorem tokenAt_letter (hc : isLetter c = true) :
    s.tokenAt c cs =
      (⟨.ofWord (String.ofList (c :: cs.takeWhile isLetter)), String.ofList (c :: cs.takeWhile isLetter),
        s.position⟩, s.past (c :: cs.takeWhile isLetter) (cs.dropWhile isLetter)) := by
  have h₁ : c ≠ '=' := by rintro rfl; exact absurd hc (by decide)
  have h₂ : c ≠ '!' := by rintro rfl; exact absurd hc (by decide)
  have h₃ : c ≠ '"' := by rintro rfl; exact absurd hc (by decide)
  simp only [Source.tokenAt, if_neg h₁, if_neg h₂, if_neg h₃, if_pos hc]

/-- A digit starts a number, which goes on with all digits behind it. -/
theorem tokenAt_digit (hc : isDigit c = true) :
    s.tokenAt c cs =
      (⟨.int, String.ofList (c :: cs.takeWhile isDigit), s.position⟩,
        s.past (c :: cs.takeWhile isDigit) (cs.dropWhile isDigit)) := by
  have h₁ : c ≠ '=' := by rintro rfl; exact absurd hc (by decide)
  have h₂ : c ≠ '!' := by rintro rfl; exact absurd hc (by decide)
  have h₃ : c ≠ '"' := by rintro rfl; exact absurd hc (by decide)
  have h₄ : ¬ isLetter c = true := by rw [isLetter_of_isDigit hc]; decide
  simp only [Source.tokenAt, if_neg h₁, if_neg h₂, if_neg h₃, if_neg h₄, if_pos hc]

/-- A character that starts no longer token is one by itself. -/
theorem tokenAt_single (hc : Lexeme.IsSingle c) :
    s.tokenAt c cs =
      (⟨(Kind.ofSymbol? c).getD .illegal, String.ofList [c], s.position⟩, s.past [c] cs) := by
  obtain ⟨h₁, h₂, h₃, hl, hd, -⟩ := hc
  simp only [Source.tokenAt, if_neg h₁, if_neg h₂, if_neg h₃, hl, hd]
  rfl

/-- A string without a closing quote ends with the text. -/
theorem tokenAt_quote_of_eq_nil (h : cs.dropWhile (fun c => decide (c ≠ '"')) = []) :
    s.tokenAt '"' cs =
      (⟨.string, String.ofList (cs.takeWhile fun c => decide (c ≠ '"')), s.position⟩,
        s.past ('"' :: cs.takeWhile fun c => decide (c ≠ '"')) []) := by
  have h₁ : ¬ '"' = '=' := by decide
  have h₂ : ¬ '"' = '!' := by decide
  simp only [Source.tokenAt, if_neg h₁, if_neg h₂, if_true, h]

/-- A string ends with the next quote, which is taken too. -/
theorem tokenAt_quote_of_eq_cons (h : cs.dropWhile (fun c => decide (c ≠ '"')) = c :: rest) :
    s.tokenAt '"' cs =
      (⟨.string, String.ofList (cs.takeWhile fun c => decide (c ≠ '"')), s.position⟩,
        s.past ('"' :: cs.takeWhile (fun c => decide (c ≠ '"')) ++ ['"']) rest) := by
  have h₁ : ¬ '"' = '=' := by decide
  have h₂ : ¬ '"' = '!' := by decide
  simp only [Source.tokenAt, if_neg h₁, if_neg h₂, if_true, h]

/-- An `=` that no other follows is an assignment. -/
theorem tokenAt_equals (h : cs.head? ≠ some '=') :
    s.tokenAt '=' cs = (⟨.assign, "=", s.position⟩, s.past ['='] cs) := by
  simp only [Source.tokenAt, if_true]
  split
  · next h' => rw [List.head?_cons] at h; exact absurd rfl h
  · rfl

/-- A `!` that no `=` follows is a negation. -/
theorem tokenAt_exclamation (h : cs.head? ≠ some '=') :
    s.tokenAt '!' cs = (⟨.bang, "!", s.position⟩, s.past ['!'] cs) := by
  have h₁ : ¬ '!' = '=' := by decide
  simp only [Source.tokenAt, if_neg h₁, if_true]
  split
  · next h' => rw [List.head?_cons] at h; exact absurd rfl h
  · rfl

end

/-- Where characters form a lexeme, they start with one that is no blank, and reading from it takes
all of them and gives the lexeme. -/
theorem Forms.read {rest span : List Char} {x : Lexeme} (h : Forms rest span x) :
    ∃ c ds, span = c :: ds ∧ isSpace c = false ∧ ∀ s : Source,
      s.tokenAt c (ds ++ rest) = (⟨x.kind, x.literal, s.position⟩, s.past span rest) := by
  cases h with
  | word hn hl hr =>
    obtain ⟨c, ds, rfl⟩ := List.exists_cons_of_ne_nil hn
    obtain ⟨hc, hd⟩ := List.forall_mem_cons.1 hl
    refine ⟨c, ds, rfl, isSpace_of_isLetter hc, fun s => ?_⟩
    rw [tokenAt_letter hc, takeWhile_append_of_stop hd hr, dropWhile_append_of_stop hd hr]
  | int hn hl hr =>
    obtain ⟨c, ds, rfl⟩ := List.exists_cons_of_ne_nil hn
    obtain ⟨hc, hd⟩ := List.forall_mem_cons.1 hl
    refine ⟨c, ds, rfl, isSpace_of_isDigit hc, fun s => ?_⟩
    rw [tokenAt_digit hc, takeWhile_append_of_stop hd hr, dropWhile_append_of_stop hd hr]
  | @string cs hq =>
    -- the reader takes all up to the next quote, and the first one in sight is the closing one
    have hd : ∀ c ∈ cs, decide (c ≠ '"') = true := fun c hc => decide_eq_true fun h => hq (h ▸ hc)
    have hr : ∀ c ∈ ('"' :: rest).head?, decide (c ≠ '"') = false := by simp
    refine ⟨'"', cs ++ ['"'], rfl, by decide, fun s => ?_⟩
    rw [List.append_assoc, List.singleton_append,
      tokenAt_quote_of_eq_cons (dropWhile_append_of_stop hd hr), takeWhile_append_of_stop hd hr]
  | @openString cs hq hr =>
    subst hr
    have hd : ∀ c ∈ cs, decide (c ≠ '"') = true := fun c hc => decide_eq_true fun h => hq (h ▸ hc)
    have hr : ∀ c ∈ ([] : List Char).head?, decide (c ≠ '"') = false := by simp
    refine ⟨'"', cs, rfl, by decide, fun s => ?_⟩
    rw [tokenAt_quote_of_eq_nil (dropWhile_append_of_stop hd hr), takeWhile_append_of_stop hd hr]
  | assign hr => exact ⟨'=', [], rfl, by decide, fun s => tokenAt_equals hr⟩
  | eq => exact ⟨'=', ['='], rfl, by decide, fun s => rfl⟩
  | bang hr => exact ⟨'!', [], rfl, by decide, fun s => tokenAt_exclamation hr⟩
  | notEq => exact ⟨'!', ['='], rfl, by decide, fun s => rfl⟩
  | @symbol c k hk =>
    have hc := Lexeme.IsSingle.of_ofSymbol? hk
    refine ⟨c, [], rfl, hc.2.2.2.2.2, fun s => ?_⟩
    rw [tokenAt_single hc, hk]
    rfl
  | @illegal c hc hk =>
    refine ⟨c, [], rfl, hc.2.2.2.2.2, fun s => ?_⟩
    rw [tokenAt_single hc, hk]
    rfl

/-- What is read of a text that starts with no blank: some characters that form the token. -/
theorem forms_tokenAt (s : Source) {c : Char} (cs : List Char) (hc : isSpace c = false) :
    ∃ rest span x, c :: cs = span ++ rest ∧ Forms rest span x ∧
      s.tokenAt c cs = (⟨x.kind, x.literal, s.position⟩, s.past span rest) := by
  -- The rules of `Forms` read as they say, so each case only has to name its rule.
  have done {rest span : List Char} {x : Lexeme} (he : c :: cs = span ++ rest)
      (h : Forms rest span x) : ∃ rest span x, c :: cs = span ++ rest ∧ Forms rest span x ∧
        s.tokenAt c cs = (⟨x.kind, x.literal, s.position⟩, s.past span rest) := by
    obtain ⟨d, ds, rfl, -, hr⟩ := h.read
    obtain ⟨rfl, rfl⟩ := List.cons.inj he
    exact ⟨rest, _, x, rfl, h, hr s⟩
  have head {q : Char} {ds : List Char} (h : ds.head? = some q) : ∃ es, ds = q :: es := by
    cases ds with
    | nil => cases h
    | cons d es => exact ⟨es, by rw [List.head?_cons] at h; cases h; rfl⟩
  -- the cases are those of reading, in its order
  by_cases h₁ : c = '='
  · subst h₁
    by_cases hn : cs.head? = some '='
    · obtain ⟨ds, rfl⟩ := head hn
      exact done rfl .eq
    · exact done rfl (.assign hn)
  by_cases h₂ : c = '!'
  · subst h₂
    by_cases hn : cs.head? = some '='
    · obtain ⟨ds, rfl⟩ := head hn
      exact done rfl .notEq
    · exact done rfl (.bang hn)
  by_cases h₃ : c = '"'
  · subst h₃
    have hsplit := List.takeWhile_append_dropWhile (p := fun c => decide (c ≠ '"')) (l := cs)
    have hq : '"' ∉ cs.takeWhile (fun c => decide (c ≠ '"')) := fun hm =>
      absurd (List.mem_takeWhile_imp hm) (by decide)
    cases hd : cs.dropWhile (fun c => decide (c ≠ '"')) with
    | nil =>
      rw [hd, List.append_nil] at hsplit
      rw [hsplit] at hq
      exact done (List.append_nil _).symm (.openString hq rfl)
    | cons d ds =>
      have hstop := head?_dropWhile (fun c => decide (c ≠ '"')) cs d (by rw [hd]; rfl)
      obtain rfl : d = '"' := by simpa using hstop
      rw [hd] at hsplit
      have he : '"' :: cs = ('"' :: cs.takeWhile (fun c => decide (c ≠ '"')) ++ ['"']) ++ ds := by
        rw [List.append_assoc, List.singleton_append, List.cons_append, hsplit]
      exact done he (.string hq)
  by_cases h₄ : isLetter c = true
  · refine done ?_ (.word (List.cons_ne_nil c (cs.takeWhile isLetter)) ?_ (head?_dropWhile _ cs))
    · rw [List.cons_append, List.takeWhile_append_dropWhile]
    · exact List.forall_mem_cons.2 ⟨h₄, fun d hd => List.mem_takeWhile_imp hd⟩
  by_cases h₅ : isDigit c = true
  · refine done ?_ (.int (List.cons_ne_nil c (cs.takeWhile isDigit)) ?_ (head?_dropWhile _ cs))
    · rw [List.cons_append, List.takeWhile_append_dropWhile]
    · exact List.forall_mem_cons.2 ⟨h₅, fun d hd => List.mem_takeWhile_imp hd⟩
  have hs : Lexeme.IsSingle c := ⟨h₁, h₂, h₃, by simpa using h₄, by simpa using h₅, hc⟩
  cases hk : Kind.ofSymbol? c with
  | none => exact done rfl (.illegal hs hk)
  | some k => exact done rfl (.symbol hk)

end MonkeyLang
