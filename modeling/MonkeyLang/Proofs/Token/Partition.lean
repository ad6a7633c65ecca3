import Mathlib.Data.List.Induction
import MonkeyLang.Proofs.Token.Written

/-!
# The pieces of a text

Reading a text cuts it into pieces: some blanks, then the characters of one token. A `Partition` of a
text is such a cut that loses nothing, in which every token goes on as far as it can and has the place
where its characters start. Main statement: `tokenize_partition` says that every text has a partition,
and that the tokens of any partition are those that are read, with the end of the text behind them.
-/

namespace MonkeyLang

/-! ## Places -/

/-- The place behind the characters `cs` of a text. Its line is one more than the line feeds among
them, its column one more than the characters since the last line feed. -/
def placeBehind (cs : List Char) : Position :=
  ⟨1 + cs.count '\n', 1 + (cs.reverse.takeWhile (· ≠ '\n')).length⟩

theorem placeBehind_concat (cs : List Char) (c : Char) :
    placeBehind (cs ++ [c]) = (placeBehind cs).next c := by
  unfold placeBehind Position.next
  by_cases h : c = '\n'
  · subst h
    simp [Nat.add_assoc]
  · simp [h, Nat.add_assoc]

/-- The place that reading comes to is the one behind all that was read. -/
theorem placeBehind_append (cs ds : List Char) :
    placeBehind (cs ++ ds) = (placeBehind cs).after ds := by
  induction ds using List.reverseRecOn with
  | nil => simp
  | append_singleton ds d ih =>
    rw [← List.append_assoc, placeBehind_concat, ih, Position.after_append]
    rfl

/-! ## Pieces -/

/-- The blanks before a token, the characters of the token, and the token itself. -/
structure Piece where
  blanks : List Char
  span : List Char
  token : Token

def Piece.text (q : Piece) : List Char :=
  q.blanks ++ q.span

/-- The piece is one of a text that has `done` before it and `rest` behind it. -/
structure Piece.Stands (done rest : List Char) (q : Piece) : Prop where
  blank : ∀ c ∈ q.blanks, isSpace c = true
  forms : Forms rest q.span q.token.lexeme
  place : q.token.position = placeBehind (done ++ q.blanks)

/-- The characters `cs` behind `done` are the `pieces` and then the blanks `last`. -/
structure Partition (done cs : List Char) (pieces : List Piece) (last : List Char) : Prop where
  text_eq : cs = pieces.flatMap Piece.text ++ last
  blank : ∀ c ∈ last, isSpace c = true
  stands : ∀ before q after, pieces = before ++ q :: after →
    q.Stands (done ++ before.flatMap Piece.text) (after.flatMap Piece.text ++ last)

namespace Partition

variable {done cs rest last : List Char} {q : Piece} {pieces : List Piece}

theorem nil (h : ∀ c ∈ last, isSpace c = true) : Partition done last [] last where
  text_eq := rfl
  blank := h
  stands before q after he := by simp at he

theorem cons (hq : q.Stands done rest) (h : Partition (done ++ q.text) rest pieces last) :
    Partition done (q.text ++ rest) (q :: pieces) last where
  text_eq := by rw [List.flatMap_cons, List.append_assoc, ← h.text_eq]
  blank := h.blank
  stands before r after he := by
    cases before with
    | nil =>
      obtain ⟨rfl, rfl⟩ := List.cons.inj he
      rw [← h.text_eq]
      simpa using hq
    | cons b before =>
      obtain ⟨rfl, hpieces⟩ := List.cons.inj he
      have hr := h.stands before r after hpieces
      rwa [List.append_assoc, ← List.flatMap_cons] at hr

/-- The first piece of a partition, and the partition of what follows it. -/
theorem of_cons (h : Partition done cs (q :: pieces) last) :
    ∃ rest, cs = q.text ++ rest ∧ q.Stands done rest ∧
      Partition (done ++ q.text) rest pieces last := by
  refine ⟨pieces.flatMap Piece.text ++ last, ?_, ?_, rfl, h.blank, ?_⟩
  · rw [h.text_eq, List.flatMap_cons, List.append_assoc]
  · simpa using h.stands [] q pieces rfl
  · intro before r after he
    have hr := h.stands (q :: before) r after (by rw [he]; rfl)
    rwa [List.flatMap_cons, ← List.append_assoc] at hr

end Partition

/-! ## Reading a piece -/

namespace Source

variable {done blanks cs rest last : List Char} {q : Piece}

/-- Behind the blanks comes no blank. -/
theorem isSpace_of_skipSpace {s : Source} {c : Char} (h : s.skipSpace.rest = c :: cs) :
    isSpace c = false := by
  refine head?_dropWhile isSpace s.rest c ?_
  rw [← rest_skipSpace, h]
  rfl

theorem skipSpace_append (hb : ∀ c ∈ blanks, isSpace c = true)
    (hr : ∀ c ∈ cs.head?, isSpace c = false) (p : Position) :
    (⟨blanks ++ cs, p⟩ : Source).skipSpace = ⟨cs, p.after blanks⟩ := by
  show (⟨(blanks ++ cs).dropWhile isSpace, p.after ((blanks ++ cs).takeWhile isSpace)⟩ : Source) = _
  rw [takeWhile_append_of_stop hb hr, dropWhile_append_of_stop hb hr]

/-- Where only blanks are left, reading gives the end of the text. -/
theorem token_of_blank (done : List Char) (h : ∀ c ∈ last, isSpace c = true) :
    (⟨last, placeBehind done⟩ : Source).skipSpace.rest = [] ∧
      (⟨last, placeBehind done⟩ : Source).token =
        (⟨.eof, "", placeBehind (done ++ last)⟩, ⟨[], placeBehind (done ++ last)⟩) := by
  have hs : (⟨last, placeBehind done⟩ : Source).skipSpace = ⟨[], placeBehind (done ++ last)⟩ := by
    rw [placeBehind_append, ← skipSpace_append h (by simp), List.append_nil]
  have hr : (⟨last, placeBehind done⟩ : Source).skipSpace.rest = [] := by rw [hs]
  exact ⟨hr, by rw [token_of_eq_nil hr, hs]⟩

/-- Where a piece comes next, reading gives its token and goes on behind it. -/
theorem token_of_stands (h : q.Stands done rest) :
    (⟨q.text ++ rest, placeBehind done⟩ : Source).skipSpace.rest ≠ [] ∧
      (⟨q.text ++ rest, placeBehind done⟩ : Source).token =
        (q.token, ⟨rest, placeBehind (done ++ q.text)⟩) := by
  obtain ⟨c, ds, he, hc, ht⟩ := h.forms.read
  have hs : (⟨q.text ++ rest, placeBehind done⟩ : Source).skipSpace =
      ⟨c :: (ds ++ rest), placeBehind (done ++ q.blanks)⟩ := by
    rw [Piece.text, List.append_assoc, he, List.cons_append, placeBehind_append]
    refine skipSpace_append h.blank ?_ _
    simpa using hc
  have hr : (⟨q.text ++ rest, placeBehind done⟩ : Source).skipSpace.rest = c :: (ds ++ rest) := by
    rw [hs]
  refine ⟨by rw [hr]; exact List.cons_ne_nil _ _, ?_⟩
  rw [token_of_eq_cons hr, hs, ht, past, ← placeBehind_append, List.append_assoc, ← Piece.text,
    ← h.place]
  rfl

/-! ## All pieces of a text -/

/-- Every text has a partition. The induction is on reading the text. -/
theorem exists_partition (s : Source) (done : List Char) :
    ∃ pieces last, Partition done s.rest pieces last := by
  fun_induction Source.tokens s generalizing done with
  | case1 s h =>
    refine ⟨[], s.rest, .nil ?_⟩
    exact List.dropWhile_eq_nil_iff.1 h
  | case2 s h ih =>
    obtain ⟨c, cs, hs⟩ := List.exists_cons_of_ne_nil h
    obtain ⟨rest, span, x, he, hf, ht⟩ := forms_tokenAt s.skipSpace cs (isSpace_of_skipSpace hs)
    -- the first piece: the blanks, and the characters of the token behind them
    let q : Piece :=
      ⟨s.rest.takeWhile isSpace, span, x.kind, x.literal,
        placeBehind (done ++ s.rest.takeWhile isSpace)⟩
    have hq : q.Stands done rest := ⟨fun c hc => List.mem_takeWhile_imp hc, hf, rfl⟩
    obtain ⟨pieces, last, hp⟩ := ih (done ++ q.text)
    rw [token_of_eq_cons hs, ht] at hp
    refine ⟨q :: pieces, last, ?_⟩
    have hsplit : s.rest = q.text ++ rest := by
      show _ = (s.rest.takeWhile isSpace ++ span) ++ rest
      rw [List.append_assoc, ← he, ← hs, rest_skipSpace, List.takeWhile_append_dropWhile]
    rw [hsplit]
    exact .cons hq hp

end Source

namespace Partition

variable {done cs last : List Char} {pieces : List Piece}

/-- The tokens that are read are those of the pieces. -/
theorem tokens_eq (h : Partition done cs pieces last) :
    (⟨cs, placeBehind done⟩ : Source).tokens =
      pieces.map Piece.token ++ [⟨.eof, "", placeBehind (done ++ cs)⟩] := by
  induction pieces generalizing done cs with
  | nil =>
    obtain rfl : cs = last := h.text_eq
    obtain ⟨hs, ht⟩ := Source.token_of_blank done h.blank
    rw [Source.tokens, dif_pos hs, ht]
    rfl
  | cons q pieces ih =>
    obtain ⟨rest, rfl, hq, hp⟩ := h.of_cons
    obtain ⟨hs, ht⟩ := Source.token_of_stands hq
    rw [Source.tokens, dif_neg hs, ht, ih hp, List.append_assoc]
    rfl

/-- Behind the last token the end of the text is read again and again. -/
theorem firstTokens_eq (h : Partition done cs pieces last) (n : Nat) :
    Source.firstTokens (pieces.length + n) ⟨cs, placeBehind done⟩ =
      pieces.map Piece.token ++ List.replicate n ⟨.eof, "", placeBehind (done ++ cs)⟩ := by
  induction pieces generalizing done cs with
  | nil =>
    obtain rfl : cs = last := h.text_eq
    rw [List.length_nil, Nat.zero_add, List.map_nil, List.nil_append]
    -- After the first end of the text the source is empty, and stays so.
    induction n generalizing done cs with
    | zero => rfl
    | succ n ih =>
      have ht := (Source.token_of_blank done h.blank).2
      have hr := ih (Partition.nil (by simp) : Partition (done ++ cs) [] [] [])
      rw [List.append_nil] at hr
      rw [Source.firstTokens, ht, hr, List.replicate_succ]
  | cons q pieces ih =>
    obtain ⟨rest, rfl, hq, hp⟩ := h.of_cons
    have ht := (Source.token_of_stands hq).2
    have hl : (q :: pieces).length + n = (pieces.length + n) + 1 := by
      rw [List.length_cons]
      omega
    rw [hl, Source.firstTokens, ht, ih hp, List.append_assoc]
    rfl

end Partition

/-- Every text falls into the pieces of a partition, and whatever partition of it is taken, the tokens
that are read are those of its pieces and then the end of the text, which has the place behind all
characters and is read again and again. -/
theorem tokenize_partition (text : String) :
    (∃ pieces last, Partition [] text.toList pieces last) ∧
    ∀ pieces last, Partition [] text.toList pieces last →
      tokenize text = pieces.map Piece.token ++ [⟨.eof, "", placeBehind text.toList⟩] ∧
      ∀ n, Source.firstTokens (pieces.length + n) (Source.ofString text) =
        pieces.map Piece.token ++ List.replicate n ⟨.eof, "", placeBehind text.toList⟩ := by
  refine ⟨Source.exists_partition (Source.ofString text) [], fun pieces last h => ⟨?_, fun n => ?_⟩⟩
  · exact h.tokens_eq
  · exact h.firstTokens_eq n

/-- A word, an operator of two characters behind a blank, and on the next line a string that is not
closed. -/
theorem tokenize_openString :
    let word : Piece := ⟨[], ['x'], .ident, "x", ⟨1, 1⟩⟩
    let operator : Piece := ⟨[' '], ['!', '='], .notEq, "!=", ⟨1, 3⟩⟩
    let string : Piece := ⟨['\n'], ['"', 'a', ' '], .string, "a ", ⟨2, 1⟩⟩
    Partition [] "x !=\n\"a ".toList [word, operator, string] [] ∧
      tokenize "x !=\n\"a " =
        [word.token, operator.token, string.token, ⟨.eof, "", ⟨2, 4⟩⟩] := by
  intro word operator string
  have hs : string.Stands "x !=".toList [] :=
    ⟨List.forall_mem_singleton.2 rfl, @Forms.openString _ ['a', ' '] (by decide) rfl, rfl⟩
  have ho : operator.Stands ['x'] "\n\"a ".toList :=
    ⟨List.forall_mem_singleton.2 rfl, .notEq, rfl⟩
  have hw : word.Stands [] " !=\n\"a ".toList :=
    ⟨nofun, @Forms.word _ ['x'] (by decide) (List.forall_mem_singleton.2 rfl)
      (by rintro c ⟨⟩; rfl), rfl⟩
  have hp := Partition.cons hw (.cons ho (.cons hs (.nil (by simp))))
  exact ⟨hp, ((tokenize_partition "x !=\n\"a ").2 _ [] hp).1⟩

/-! ## One text behind the other -/

/-- What a token goes on with does not matter, if something is there to stop it. -/
theorem Forms.append {rest span : List Char} {x : Lexeme} (h : Forms rest span x) (hr : rest ≠ [])
    (more : List Char) : Forms (rest ++ more) span x := by
  have hh : (rest ++ more).head? = rest.head? := by
    obtain ⟨c, cs, rfl⟩ := List.exists_cons_of_ne_nil hr
    rfl
  cases h with
  | word hn hl hs => exact .word hn hl (hh ▸ hs)
  | int hn hl hs => exact .int hn hl (hh ▸ hs)
  | string hq => exact .string hq
  | openString _ he => exact absurd he hr
  | assign hs => exact .assign (hh ▸ hs)
  | eq => exact .eq
  | bang hs => exact .bang (hh ▸ hs)
  | notEq => exact .notEq
  | symbol hk => exact .symbol hk
  | illegal hc hk => exact .illegal hc hk

/-- A semicolon ends by itself. -/
theorem Forms.append_of_semicolon {rest span : List Char} {x : Lexeme} (h : Forms rest span x)
    (hk : x.kind = .semicolon) (more : List Char) : Forms (rest ++ more) span x := by
  cases h with
  | word _ _ _ =>
    exact absurd hk (Kind.forall_ofWord (P := (· ≠ .semicolon)) (by decide) _)
  | symbol hs => exact .symbol hs
  | _ => cases hk

namespace Source

/-- Blanks at the start of a text have no token. -/
theorem tokens_blank_append {blanks : List Char} (h : ∀ c ∈ blanks, isSpace c = true)
    (cs : List Char) (p : Position) :
    (⟨blanks ++ cs, p⟩ : Source).tokens = (⟨cs, p.after blanks⟩ : Source).tokens := by
  have hs : (⟨blanks ++ cs, p⟩ : Source).skipSpace = (⟨cs, p.after blanks⟩ : Source).skipSpace := by
    show (⟨(blanks ++ cs).dropWhile isSpace, p.after ((blanks ++ cs).takeWhile isSpace)⟩ : Source) =
      ⟨cs.dropWhile isSpace, (p.after blanks).after (cs.takeWhile isSpace)⟩
    rw [List.dropWhile_append_of_pos h, List.takeWhile_append_of_pos h, Position.after_append]
  have ht : (⟨blanks ++ cs, p⟩ : Source).token = (⟨cs, p.after blanks⟩ : Source).token := by
    unfold token
    rw [hs]
  rw [tokens, ht, hs, ← tokens]

/-- Where a text starts decides only the places of its tokens. -/
theorem map_lexeme_tokens_congr {s s' : Source} (h : s.rest = s'.rest) :
    s.tokens.map Token.lexeme = s'.tokens.map Token.lexeme := by
  fun_induction Source.tokens s generalizing s' with
  | case1 s hs =>
    have hs' : s'.skipSpace.rest = [] := by rw [rest_skipSpace, ← h, ← rest_skipSpace, hs]
    rw [tokens_of_eq_nil hs', token_of_eq_nil hs]
    rfl
  | case2 s hs ih =>
    obtain ⟨c, cs, hc⟩ := List.exists_cons_of_ne_nil hs
    have hc' : s'.skipSpace.rest = c :: cs := by rw [rest_skipSpace, ← h, ← rest_skipSpace, hc]
    obtain ⟨rest, span, x, he, hf, ht⟩ := forms_tokenAt s.skipSpace cs (isSpace_of_skipSpace hc)
    obtain ⟨d, ds, rfl, -, ht'⟩ := hf.read
    rw [List.cons_append, List.cons.injEq] at he
    obtain ⟨rfl, rfl⟩ := he
    rw [token_of_eq_cons hc, ht] at ih ⊢
    rw [tokens_of_eq_cons hc', ht', List.map_cons, List.map_cons]
    exact congrArg (Lexeme.mk x.kind x.literal :: ·) (ih rfl)

end Source

/-- A text behind one whose last token is a semicolon: its tokens come behind those of the other, as
if it stood alone at its place. -/
theorem Partition.tokens_append {done cs last : List Char} {pieces : List Piece}
    (h : Partition done cs pieces last) (hk : ∀ q ∈ pieces.getLast?, q.token.kind = .semicolon)
    (more : List Char) :
    (⟨cs ++ more, placeBehind done⟩ : Source).tokens =
      pieces.map Piece.token ++ (⟨more, placeBehind (done ++ cs)⟩ : Source).tokens := by
  induction pieces generalizing done cs with
  | nil =>
    obtain rfl : cs = last := h.text_eq
    rw [Source.tokens_blank_append h.blank, placeBehind_append]
    rfl
  | cons q pieces ih =>
    obtain ⟨rest, rfl, hq, hp⟩ := h.of_cons
    have hq' : q.Stands done (rest ++ more) := by
      refine ⟨hq.blank, ?_, hq.place⟩
      cases pieces with
      | nil => exact hq.forms.append_of_semicolon (hk q rfl) more
      | cons r pieces =>
        -- The next piece has a character to stop this one.
        obtain ⟨rest', rfl, hr, -⟩ := hp.of_cons
        obtain ⟨c, ds, he, -, -⟩ := hr.forms.read
        refine hq.forms.append ?_ more
        simp [Piece.text, he]
    have hk' : ∀ r ∈ pieces.getLast?, r.token.kind = .semicolon := by
      intro r hr
      refine hk r ?_
      rw [List.getLast?_cons, Option.mem_def.1 hr]
      rfl
    obtain ⟨hs, ht⟩ := Source.token_of_stands hq'
    rw [List.append_assoc, Source.tokens, dif_neg hs, ht, ih hp hk', List.append_assoc]
    rfl

end MonkeyLang
