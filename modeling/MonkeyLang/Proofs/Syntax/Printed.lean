import MonkeyLang.Parser.Precedence
import MonkeyLang.Proofs.Text.Numeral
import MonkeyLang.Proofs.Token.Written
import MonkeyLang.Tree.Basic

/-!
# Programs as text with as few parentheses as possible

`Proper` has the trees that a program text can write, and `Tree.minimalText` writes them. A
parenthesis stands only where the operators alone would group in another way: around an operand
whose own operator binds no tighter than its place asks. Every lexeme of that text is one that a
text can have: `valid_of_mem_lexemes`.
-/

namespace MonkeyLang

/-! ## The trees of program texts -/

/-- A word that is not a keyword. -/
structure IsName (x : String) : Prop where
  nonempty : x.toList ≠ []
  letters : ∀ c ∈ x.toList, isLetter c = true
  plain : Kind.keyword? x = none

/-- The token that an infix operator is. -/
def infixKind? : String → Option Kind
  | "==" => some .eq
  | "!=" => some .notEq
  | "<" => some .lt
  | ">" => some .gt
  | "+" => some .plus
  | "-" => some .minus
  | "*" => some .asterisk
  | "/" => some .slash
  | _ => none

def prefixKind? : String → Option Kind
  | "!" => some .bang
  | "-" => some .minus
  | _ => none

/-- The places that a tree can stand in. -/
inductive Role where
  | program
  | statement
  | block
  | expression

/-- The trees that a text can write in each place. Only the value of a `return` and the
alternative of a conditional may be missing. -/
inductive Proper : Role → Code → Prop where
  | program {ss : List Code} : (∀ s ∈ ss, Proper .statement s) → Proper .program (.program ss)
  | letStatement {x : String} {e : Code} : IsName x → Proper .expression e →
      Proper .statement (.letStatement x e)
  | bareReturn : Proper .statement (.returnStatement .missing)
  | returnStatement {e : Code} : Proper .expression e → Proper .statement (.returnStatement e)
  | expressionStatement {e : Code} : Proper .expression e →
      Proper .statement (.expressionStatement e)
  | block {ss : List Code} : (∀ s ∈ ss, Proper .statement s) → Proper .block (.block ss)
  | identifier {x : String} : IsName x → Proper .expression (.identifier x)
  | integer {n : Int} : 0 ≤ n → n ≤ Word.max → Proper .expression (.integer n)
  | string {s : String} : '"' ∉ s.toList → Proper .expression (.string s)
  | boolean (b : Bool) : Proper .expression (.boolean b)
  | prefixed {o : String} {k : Kind} {e : Code} : prefixKind? o = some k → Proper .expression e →
      Proper .expression (.prefixed o e)
  | infixed {o : String} {k : Kind} {l r : Code} : infixKind? o = some k → Proper .expression l →
      Proper .expression r → Proper .expression (.infixed l o r)
  | conditional {c b : Code} : Proper .expression c → Proper .block b →
      Proper .expression (.conditional c b .missing)
  | alternative {c b b' : Code} : Proper .expression c → Proper .block b → Proper .block b' →
      Proper .expression (.conditional c b b')
  | function {ps : List String} {b : Code} : (∀ x ∈ ps, IsName x) → Proper .block b →
      Proper .expression (.function ps b)
  | call {f : Code} {as : List Code} : Proper .expression f → (∀ a ∈ as, Proper .expression a) →
      Proper .expression (.call f as)

/-! ## Lexemes -/

namespace Lexeme

def openParenthesis : Lexeme := ⟨.lparen, "("⟩
def closeParenthesis : Lexeme := ⟨.rparen, ")"⟩
def comma : Lexeme := ⟨.comma, ","⟩
def semicolon : Lexeme := ⟨.semicolon, ";"⟩

/-- Lexemes in parentheses, where these are needed. -/
def enclose (needed : Bool) (xs : List Lexeme) : List Lexeme :=
  if needed then openParenthesis :: xs ++ [closeParenthesis] else xs

/-- The elements of a list after its first, and the parenthesis that closes it. -/
def following : List (List Lexeme) → List Lexeme
  | [] => [closeParenthesis]
  | xs :: elements => comma :: (xs ++ following elements)

/-- The elements of a list in parentheses, with commas between them. -/
def listed : List (List Lexeme) → List Lexeme
  | [] => [openParenthesis, closeParenthesis]
  | xs :: elements => openParenthesis :: (xs ++ following elements)

def infixOperator (o : String) : Lexeme := ⟨(infixKind? o).getD .illegal, o⟩

def prefixOperator (o : String) : Lexeme := ⟨(prefixKind? o).getD .illegal, o⟩

end Lexeme

def infixPrecedence (o : String) : Precedence :=
  (Lexeme.infixOperator o).kind.precedence

namespace Tree

open Lexeme

/-- How tightly the outermost operator of an expression binds: an infix operator by its own
precedence, a prefix operator as `unary`. What is no operation holds together like a call. -/
def tightness : Code → Precedence
  | .infixed _ o _ => infixPrecedence o
  | .prefixed _ _ => .unary
  | _ => .call

mutual

/-- The lexemes of a tree. The left operand of an infix operator is in parentheses if its own
operator binds less tightly, the right one also if it binds equally; a prefix operator needs them
around an infix operation, and a call around any operation. Every statement ends with a
semicolon. -/
def lexemes : Code → List Lexeme
  | .missing => []
  | .program ss => (lexemesEach ss).flatten
  | .letStatement x e =>
    ⟨.kwLet, "let"⟩ :: ⟨.ident, x⟩ :: ⟨.assign, "="⟩ :: e.lexemes ++ [semicolon]
  | .returnStatement e => ⟨.kwReturn, "return"⟩ :: e.lexemes ++ [semicolon]
  | .expressionStatement e => e.lexemes ++ [semicolon]
  | .block ss => ⟨.lbrace, "\x7b"⟩ :: (lexemesEach ss).flatten ++ [⟨.rbrace, "\x7d"⟩]
  | .identifier x => [⟨.ident, x⟩]
  | .integer n => [⟨.int, toString n⟩]
  | .string s => [⟨.string, s⟩]
  | .boolean true => [⟨.kwTrue, "true"⟩]
  | .boolean false => [⟨.kwFalse, "false"⟩]
  | .prefixed o e => prefixOperator o :: enclose (e.tightness < .unary) e.lexemes
  | .infixed l o r =>
    enclose (l.tightness < infixPrecedence o) l.lexemes ++
      infixOperator o :: enclose (¬ infixPrecedence o < r.tightness) r.lexemes
  | .conditional c b e =>
    ⟨.kwIf, "if"⟩ :: enclose true c.lexemes ++
      (b.lexemes ++ if e.isMissing then [] else ⟨.kwElse, "else"⟩ :: e.lexemes)
  | .function ps b => ⟨.kwFn, "fn"⟩ :: listed (ps.map fun x => [⟨.ident, x⟩]) ++ b.lexemes
  | .call f as => enclose (f.tightness < .call) f.lexemes ++ listed (lexemesEach as)
termination_by structural t => t

def lexemesEach : List Code → List (List Lexeme)
  | [] => []
  | t :: ts => t.lexemes :: lexemesEach ts
termination_by structural ts => ts

end

/-- The text of a tree, with a blank between any two lexemes. -/
def minimalText (t : Code) : String :=
  " ".intercalate (t.lexemes.map Lexeme.spelling)

theorem lexemesEach_eq_map (ts : List Code) : lexemesEach ts = ts.map lexemes := by
  induction ts with
  | nil => rfl
  | cons t ts ih => rw [lexemesEach, List.map_cons, ih]

end Tree

/-! ## Every lexeme is one of a text -/

theorem IsName.kind_ofWord {x : String} (h : IsName x) : Kind.ofWord x = .ident := by
  rw [Kind.ofWord, h.plain]
  rfl

namespace Lexeme

/-- A name is a word of a text. -/
theorem valid_name {name : String} (h : IsName name) : Valid ⟨.ident, name⟩ := by
  have hv := Valid.word h.nonempty h.letters
  rwa [String.ofList_toList, h.kind_ofWord] at hv

/-- A keyword is a word of a text. -/
theorem valid_keyword {word : String} {k : Kind} (hk : Kind.keyword? word = some k)
    (hn : word.toList ≠ []) (hl : word.toList.all isLetter = true) : Valid ⟨k, word⟩ := by
  have hv := Valid.word hn (List.all_eq_true.1 hl)
  rwa [String.ofList_toList, Kind.ofWord, hk] at hv

/-- A symbol is a lexeme by itself. -/
theorem valid_symbol {c : Char} {k : Kind} {literal : String} (hk : Kind.ofSymbol? c = some k)
    (hl : literal = String.ofList [c]) (hc : IsSingle c) : Valid ⟨k, literal⟩ := by
  have hv := Valid.single hc
  rwa [hk, ← hl] at hv

/-- A number that is not negative is written in digits. -/
theorem valid_integer {n : Int} (h : 0 ≤ n) : Valid ⟨.int, toString n⟩ := by
  obtain ⟨k, rfl⟩ := Int.eq_ofNat_of_zero_le h
  have hv := Valid.int (Nat.toDigits_ne_nil (n := k)) fun _ => isDigit_of_mem_toDigits
  rwa [← Nat.toList_repr, String.ofList_toList] at hv

/-- Every infix operator is one lexeme. -/
theorem valid_infixOperator {o : String} {k : Kind} (h : infixKind? o = some k) :
    (infixOperator o).Valid := by
  unfold infixKind? at h
  split at h
  · exact .eq
  · exact .notEq
  · exact valid_symbol (c := '<') rfl rfl (by decide)
  · exact valid_symbol (c := '>') rfl rfl (by decide)
  · exact valid_symbol (c := '+') rfl rfl (by decide)
  · exact valid_symbol (c := '-') rfl rfl (by decide)
  · exact valid_symbol (c := '*') rfl rfl (by decide)
  · exact valid_symbol (c := '/') rfl rfl (by decide)
  · cases h

/-- Every prefix operator is one lexeme. -/
theorem valid_prefixOperator {o : String} {k : Kind} (h : prefixKind? o = some k) :
    (prefixOperator o).Valid := by
  unfold prefixKind? at h
  split at h
  · exact .bang
  · exact valid_symbol (c := '-') rfl rfl (by decide)
  · cases h

theorem valid_openParenthesis : openParenthesis.Valid :=
  valid_symbol (c := '(') rfl rfl (by decide)

theorem valid_closeParenthesis : closeParenthesis.Valid :=
  valid_symbol (c := ')') rfl rfl (by decide)

theorem valid_semicolon : semicolon.Valid :=
  valid_symbol (c := ';') rfl rfl (by decide)

/-- Parentheses around lexemes of a text give such lexemes. -/
theorem valid_enclose {needed : Bool} {xs : List Lexeme} (h : ∀ y ∈ xs, y.Valid) :
    ∀ y ∈ enclose needed xs, y.Valid := by
  unfold enclose
  split
  · rw [List.forall_mem_append, List.forall_mem_cons, List.forall_mem_singleton]
    exact ⟨⟨valid_openParenthesis, h⟩, valid_closeParenthesis⟩
  · exact h

/-- So do the commas and the parenthesis behind the elements of a list. -/
theorem valid_following {elements : List (List Lexeme)}
    (h : ∀ xs ∈ elements, ∀ y ∈ xs, y.Valid) : ∀ y ∈ following elements, y.Valid := by
  induction elements with
  | nil =>
    rw [following, List.forall_mem_singleton]
    exact valid_closeParenthesis
  | cons xs elements ih =>
    rw [List.forall_mem_cons] at h
    rw [following, List.forall_mem_cons, List.forall_mem_append]
    exact ⟨valid_symbol (c := ',') rfl rfl (by decide), h.1, ih h.2⟩

/-- So does a whole list in parentheses. -/
theorem valid_listed {elements : List (List Lexeme)} (h : ∀ xs ∈ elements, ∀ y ∈ xs, y.Valid) :
    ∀ y ∈ listed elements, y.Valid := by
  cases elements with
  | nil =>
    rw [listed, List.forall_mem_cons, List.forall_mem_singleton]
    exact ⟨valid_openParenthesis, valid_closeParenthesis⟩
  | cons xs elements =>
    rw [List.forall_mem_cons] at h
    rw [listed, List.forall_mem_cons, List.forall_mem_append]
    exact ⟨valid_openParenthesis, h.1, valid_following h.2⟩

end Lexeme

open Lexeme

/-- The lexemes of a proper tree are those of a text. -/
theorem valid_of_mem_lexemes {r : Role} {t : Code} (h : Proper r t) :
    ∀ x ∈ t.lexemes, x.Valid := by
  -- what is put between separators is the lexemes of one tree after the other
  have sequence : ∀ {ts : List Code}, (∀ t ∈ ts, ∀ x ∈ t.lexemes, x.Valid) →
      ∀ xs ∈ Tree.lexemesEach ts, ∀ x ∈ xs, x.Valid := by
    intro ts ih xs hxs
    rw [Tree.lexemesEach_eq_map] at hxs
    obtain ⟨t, ht, rfl⟩ := List.mem_map.1 hxs
    exact ih t ht
  induction h with
  | program _ ih =>
    intro x hx
    rw [Tree.lexemes] at hx
    obtain ⟨xs, hxs, hx⟩ := List.mem_flatten.1 hx
    exact sequence ih xs hxs x hx
  | letStatement hn _ ih =>
    rw [Tree.lexemes, List.forall_mem_append, List.forall_mem_cons, List.forall_mem_cons,
      List.forall_mem_cons, List.forall_mem_singleton]
    exact ⟨⟨valid_keyword rfl (by decide) rfl, valid_name hn, .assign, ih⟩, valid_semicolon⟩
  | bareReturn =>
    rw [Tree.lexemes, List.forall_mem_append, List.forall_mem_cons, List.forall_mem_singleton]
    exact ⟨⟨valid_keyword rfl (by decide) rfl, nofun⟩, valid_semicolon⟩
  | returnStatement _ ih =>
    rw [Tree.lexemes, List.forall_mem_append, List.forall_mem_cons, List.forall_mem_singleton]
    exact ⟨⟨valid_keyword rfl (by decide) rfl, ih⟩, valid_semicolon⟩
  | expressionStatement _ ih =>
    rw [Tree.lexemes, List.forall_mem_append, List.forall_mem_singleton]
    exact ⟨ih, valid_semicolon⟩
  | block _ ih =>
    rw [Tree.lexemes, List.forall_mem_append, List.forall_mem_cons, List.forall_mem_singleton]
    refine ⟨⟨valid_symbol (c := '{') rfl rfl (by decide), fun x hx => ?_⟩,
      valid_symbol (c := '}') rfl rfl (by decide)⟩
    obtain ⟨xs, hxs, hx⟩ := List.mem_flatten.1 hx
    exact sequence ih xs hxs x hx
  | identifier hn =>
    rw [Tree.lexemes, List.forall_mem_singleton]
    exact valid_name hn
  | integer hn _ =>
    rw [Tree.lexemes, List.forall_mem_singleton]
    exact valid_integer hn
  | @string s hs =>
    rw [Tree.lexemes, List.forall_mem_singleton, ← String.ofList_toList (s := s)]
    exact .string hs
  | boolean b =>
    cases b <;> rw [Tree.lexemes, List.forall_mem_singleton] <;>
      exact valid_keyword rfl (by decide) rfl
  | prefixed ho _ ih =>
    rw [Tree.lexemes, List.forall_mem_cons]
    exact ⟨valid_prefixOperator ho, valid_enclose ih⟩
  | infixed ho _ _ ihl ihr =>
    rw [Tree.lexemes, List.forall_mem_append, List.forall_mem_cons]
    exact ⟨valid_enclose ihl, valid_infixOperator ho,
      valid_enclose ihr⟩
  | conditional _ _ ihc ihb =>
    simp only [Tree.lexemes, List.cons_append, List.forall_mem_cons, List.forall_mem_append]
    exact ⟨valid_keyword rfl (by decide) rfl, valid_enclose ihc, ihb, nofun⟩
  | alternative _ _ hb' ihc ihb ihb' =>
    have hm : ∀ b : Code, Proper .block b → b.isMissing = false := by
      rintro _ ⟨_⟩
      rfl
    simp only [Tree.lexemes, hm _ hb', List.cons_append, List.forall_mem_cons,
      List.forall_mem_append, Bool.false_eq_true, if_false]
    exact ⟨valid_keyword rfl (by decide) rfl, valid_enclose ihc, ihb,
      valid_keyword rfl (by decide) rfl, ihb'⟩
  | function hn _ ih =>
    simp only [Tree.lexemes, List.cons_append, List.forall_mem_cons, List.forall_mem_append]
    refine ⟨valid_keyword rfl (by decide) rfl, valid_listed ?_, ih⟩
    intro xs hxs
    obtain ⟨y, hy, rfl⟩ := List.mem_map.1 hxs
    rw [List.forall_mem_singleton]
    exact valid_name (hn y hy)
  | call _ _ ihf iha =>
    rw [Tree.lexemes, List.forall_mem_append]
    exact ⟨valid_enclose ihf, valid_listed (sequence iha)⟩

/-- The text of a proper tree is cut into the lexemes of the tree. -/
theorem map_lexeme_tokenize_minimalText {r : Role} {t : Code} (h : Proper r t) :
    (tokenize t.minimalText).map Token.lexeme = t.lexemes ++ [⟨.eof, ""⟩] :=
  map_lexeme_tokens (written_intercalate (valid_of_mem_lexemes h)) _

end MonkeyLang
