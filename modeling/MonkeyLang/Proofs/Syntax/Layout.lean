import Mathlib.Data.List.Forall2
import MonkeyLang.Proofs.Syntax.Halting

/-!
# The layout of a text does not matter

The tokens of a text may be written again with any blanks between them (`layOut`). Reading by
precedence sees only the lexemes of the tokens, and their places only go into the diagnostics, at the
end of each message. Main statement: `parseTokens?_layOut` says of every text, also of one with
mistakes, that the lexemes, the tree and the messages but for the places at their ends stay the same.
-/

namespace MonkeyLang

/-! ## Messages and their places -/

/-- Two messages that differ at most in the place that both end with. -/
def SameButPlace (m m' : String) : Prop :=
  ∃ (stem : String) (p p' : Position), m = stem ++ " at " ++ p.text ∧ m' = stem ++ " at " ++ p'.text

theorem SameButPlace.symm {m m' : String} (h : SameButPlace m m') : SameButPlace m' m := by
  obtain ⟨stem, p, p', hm, hm'⟩ := h
  exact ⟨stem, p', p, hm', hm⟩

namespace Diagnostic

/-- Diagnostics whose messages differ at most in their places. -/
def Alike (d d' : Diagnostic) : Prop :=
  SameButPlace d.message d'.message

/-- An illegal character is reported with its place at the end. -/
theorem alike_illegalCharacter (literal : String) (p p' : Position) :
    Alike (.illegalCharacter literal p) (.illegalCharacter literal p') := by
  refine ⟨"illegal character " ++ Text.quoted literal, p, p', ?_, ?_⟩ <;> rfl

/-- So is a token that was not expected. -/
theorem alike_wrongToken (wanted found : Kind) (p p' : Position) :
    Alike (.wrongToken wanted found p) (.wrongToken wanted found p') := by
  have ending : " instead at " = " instead" ++ " at " := by decide
  refine ⟨"expected next token to be " ++ wanted.display ++ ", got " ++ found.display ++ " instead",
    p, p', ?_, ?_⟩
  all_goals
    unfold message
    simp only [ending, String.append_assoc]

/-- So is a token that starts no expression. -/
theorem alike_noExpression (found : Kind) (p p' : Position) :
    Alike (.noExpression found p) (.noExpression found p') := by
  refine ⟨"no prefix parse function for " ++ found.display, p, p', ?_, ?_⟩ <;> rfl

/-- So is a literal out of range. -/
theorem alike_integerRange (literal : String) (p p' : Position) :
    Alike (.integerRange literal p) (.integerRange literal p') := by
  have ending : " as integer at " = " as integer" ++ " at " := by decide
  refine ⟨"could not parse " ++ literal ++ " as integer", p, p', ?_, ?_⟩
  all_goals
    unfold message
    simp only [ending, String.append_assoc]

end Diagnostic

/-! ## Cursors over the same lexemes -/

/-- Two cursors with the same lexemes before them, and with diagnostics that differ in places only. -/
structure Cursor.SameLexemes (c c' : Cursor) : Prop where
  current : c.current.lexeme = c'.current.lexeme
  upcoming : c.upcoming.map Token.lexeme = c'.upcoming.map Token.lexeme
  diagnostics : List.Forall₂ Diagnostic.Alike c.diagnostics.toList c'.diagnostics.toList

namespace Cursor.SameLexemes

variable {c c' : Cursor}

theorem symm (h : SameLexemes c c') : SameLexemes c' c where
  current := h.current.symm
  upcoming := h.upcoming.symm
  diagnostics := (h.diagnostics.imp fun _ _ hd => SameButPlace.symm hd).flip

/-- Both cursors may report, if the diagnostics differ in their places only. -/
theorem report {d d' : Diagnostic} (h : SameLexemes c c') (hd : d.Alike d') :
    SameLexemes (c.report d) (c'.report d') where
  current := h.current
  upcoming := h.upcoming
  diagnostics := by
    rw [Cursor.report, Cursor.report, Array.toList_push, Array.toList_push]
    exact List.rel_append h.diagnostics (.cons hd .nil)

/-- Both cursors report an illegal character, or neither does. -/
theorem reportIllegal {literal : String} {p p' : Position} {q : Prop} [Decidable q]
    (h : SameLexemes c c') :
    SameLexemes (if q then c.report (.illegalCharacter literal p) else c)
      (if q then c'.report (.illegalCharacter literal p') else c') := by
  split
  · exact h.report (Diagnostic.alike_illegalCharacter _ _ _)
  · exact h

/-- Both cursors look at the same lexeme and report it or not. -/
theorem inspectPeek (h : SameLexemes c c') : SameLexemes c.inspectPeek c'.inspectPeek := by
  have hu := h.upcoming
  unfold Cursor.inspectPeek
  cases hc : c.upcoming with
  | nil =>
    rw [hc, List.map_nil, eq_comm, List.map_eq_nil_iff] at hu
    rw [hu]
    exact h
  | cons t ts =>
    rw [hc, List.map_cons] at hu
    obtain ⟨t', ts', hc', ht, -⟩ := List.map_eq_cons_iff.1 hu.symm
    obtain ⟨hk, hl⟩ := Lexeme.mk.inj ht
    rw [hc']
    dsimp only
    rw [hk, hl]
    exact h.reportIllegal

/-- Both cursors show the same lexeme ahead. -/
theorem lexeme_peek (h : SameLexemes c c') : c.peek.lexeme = c'.peek.lexeme := by
  have hu := congrArg List.head? h.upcoming
  rw [List.head?_map, List.head?_map] at hu
  rw [peek, peek, List.headD_eq_head?_getD, List.headD_eq_head?_getD]
  cases hc : c.upcoming.head? <;> cases hc' : c'.upcoming.head? <;> simp_all [h.current]

/-- Both cursors take the same lexeme in hand. -/
theorem advance (h : SameLexemes c c') : SameLexemes c.advance c'.advance := by
  have hu := h.upcoming
  cases hc : c.upcoming with
  | nil =>
    rw [hc, List.map_nil, eq_comm, List.map_eq_nil_iff] at hu
    rwa [advance_nil hc, advance_nil hu]
  | cons t ts =>
    rw [hc, List.map_cons] at hu
    obtain ⟨t', ts', hc', ht, hts⟩ := List.map_eq_cons_iff.1 hu.symm
    rw [advance_cons hc, advance_cons hc']
    exact inspectPeek ⟨ht.symm, hts.symm, h.diagnostics⟩

/-- The cursors at the start of the same lexemes. -/
theorem start {tokens tokens' : List Token}
    (h : tokens.map Token.lexeme = tokens'.map Token.lexeme) :
    SameLexemes (Cursor.start tokens) (Cursor.start tokens') := by
  cases tokens with
  | nil =>
    rw [List.map_nil, eq_comm, List.map_eq_nil_iff] at h
    rw [h]
    exact ⟨rfl, rfl, .nil⟩
  | cons t ts =>
    obtain ⟨t', ts', rfl, ht, hts⟩ := List.map_eq_cons_iff.1 h.symm
    obtain ⟨hk, hl⟩ := Lexeme.mk.inj ht
    have hc : SameLexemes ⟨t, ts, #[]⟩ ⟨t', ts', #[]⟩ := ⟨ht.symm, hts.symm, .nil⟩
    unfold Cursor.start
    dsimp only
    rw [hk, hl]
    exact hc.reportIllegal.inspectPeek

/-- No reader can tell cursors over the same lexemes apart. -/
theorem simulation : Simulation SameLexemes where
  kind h := (Lexeme.mk.inj h.current).1
  literal h := (Lexeme.mk.inj h.current).2
  kind_peek h := (Lexeme.mk.inj h.lexeme_peek).1
  advance := advance
  wrongToken k h := h.report (by
    rw [(Lexeme.mk.inj h.lexeme_peek).1]
    exact Diagnostic.alike_wrongToken _ _ _ _)
  noExpression h := h.report (by
    rw [(Lexeme.mk.inj h.current).1]
    exact Diagnostic.alike_noExpression _ _ _)
  integerRange h := h.report (by
    rw [(Lexeme.mk.inj h.current).2]
    exact Diagnostic.alike_integerRange _ _ _)

end Cursor.SameLexemes

/-! ## Programs of the same lexemes -/

/-- The same tree, and messages that differ at most in their places. -/
structure Parsed.SameButPlaces (p p' : Parsed) : Prop where
  tree : p.tree = p'.tree
  messages : List.Forall₂ SameButPlace p.messages p'.messages

/-- Where there is a result, there is one for the same lexemes elsewhere too. -/
theorem exists_parseTokens?_of_lexemes {budget : Nat} {tokens tokens' : List Token} {p : Parsed}
    (h : tokens.map Token.lexeme = tokens'.map Token.lexeme)
    (hp : parseTokens? budget tokens = some p) :
    ∃ p', parseTokens? budget tokens' = some p' ∧ p.SameButPlaces p' := by
  rw [parseTokens?_eq] at hp
  obtain ⟨⟨tree, c⟩, hx, rfl⟩ := Option.map_eq_some_iff.1 hp
  have hl : tokens.length = tokens'.length := by simpa using congrArg List.length h
  have hf := Parse.program_follows Cursor.SameLexemes.simulation
    (Nat.le_refl (tokens.length + 1)) (Nat.le_refl budget) (Cursor.SameLexemes.start h)
  obtain ⟨c', hx', hc⟩ := hf tree c hx
  refine ⟨⟨tree, c'.diagnostics.toList⟩, ?_, rfl, ?_⟩
  · rw [parseTokens?_eq, ← hl, hx']
    rfl
  · exact List.forall₂_map_left_iff.2 (List.forall₂_map_right_iff.2 hc.diagnostics)

/-- The lexemes of a text decide its tree and its messages but for their places. -/
theorem parseTokens?_of_lexemes {tokens tokens' : List Token}
    (h : tokens.map Token.lexeme = tokens'.map Token.lexeme) (budget : Nat) :
    Option.Rel Parsed.SameButPlaces (parseTokens? budget tokens) (parseTokens? budget tokens') := by
  cases hp : parseTokens? budget tokens with
  | some p =>
    obtain ⟨p', hp', hs⟩ := exists_parseTokens?_of_lexemes h hp
    rw [hp']
    exact .some hs
  -- A result of the second text would be one of the first text too.
  | none =>
    cases hp' : parseTokens? budget tokens' with
    | none => exact .none
    | some p' =>
      obtain ⟨p, hq, -⟩ := exists_parseTokens?_of_lexemes h.symm hp'
      rw [hp] at hq
      cases hq

/-! ## Texts laid out anew -/

/-- The lexemes one after the other, with `blank i` before the lexeme in the place `i` and with the
blank of the next place behind the last one. -/
def layOut (blank : Nat → String) : (i : Nat) → List Lexeme → String
  | i, [] => blank i
  | i, x :: xs => blank i ++ (x.spelling ++ layOut blank (i + 1) xs)

/-- Laying lexemes out writes them, if there is a blank between any two. -/
theorem written_layOut {blank : Nat → String} {xs : List Lexeme} {i : Nat}
    (hb : ∀ i, ∀ c ∈ (blank i).toList, isSpace c = true) (hx : ∀ x ∈ xs, x.Valid)
    (hn : ∀ j, 0 < j → j < xs.length → blank (i + j) ≠ "") :
    Written xs (layOut blank i xs).toList := by
  induction xs generalizing i with
  | nil => exact .nil (hb i)
  | cons x xs ih =>
    rw [layOut, String.toList_append, String.toList_append]
    refine .cons (hb i) (hx x List.mem_cons_self) ?_ (ih (fun y hy => hx y (.tail x hy)) ?_)
    · -- What follows the lexeme are the blanks of the next place.
      cases xs with
      | nil =>
        rw [layOut]
        cases hc : (blank (i + 1)).toList with
        | nil => trivial
        | cons c cs => exact hb (i + 1) c (by rw [hc]; exact List.mem_cons_self)
      | cons y ys =>
        have hne : (blank (i + 1)).toList ≠ [] := by
          rw [ne_eq, String.toList_eq_nil_iff]
          exact hn 1 (by decide) (by simp)
        obtain ⟨c, cs, hc⟩ := List.exists_cons_of_ne_nil hne
        rw [layOut, String.toList_append, hc]
        exact hb (i + 1) c (by rw [hc]; exact List.mem_cons_self)
    · intro j hj hlt
      rw [show i + 1 + j = i + (j + 1) by omega]
      exact hn (j + 1) (by omega) (by simpa using hlt)

/-- The lexemes of a text are such that a text can have, and the end of the text comes behind them. -/
theorem map_lexeme_tokenize (text : String) :
    ∃ xs : List Lexeme, (tokenize text).map Token.lexeme = xs ++ [⟨.eof, ""⟩] ∧ ∀ x ∈ xs, x.Valid := by
  obtain ⟨pieces, last, hp⟩ := Source.exists_partition (Source.ofString text) []
  refine ⟨pieces.map (Token.lexeme ∘ Piece.token), ?_, ?_⟩
  · have ht : tokenize text = _ := hp.tokens_eq
    rw [ht, List.map_append, List.map_map]
    rfl
  · intro x hx
    obtain ⟨q, hq, rfl⟩ := List.mem_map.1 hx
    obtain ⟨before, after, he⟩ := List.append_of_mem hq
    exact .of_forms (hp.stands before q after he).forms

/-- Any text may be laid out anew, with some blanks between any two of its tokens. The lexemes stay.
Both texts have a result, which any budget of at least the number of the tokens gives; it is the same
tree, with as many messages, which are the same but for the places at their ends. And no budget
gives a result of one of the texts alone. -/
theorem parseTokens?_layOut (text : String) (blank : Nat → String)
    (hb : ∀ i, ∀ c ∈ (blank i).toList, isSpace c = true)
    (hn : ∀ i, 0 < i → i + 1 < (tokenize text).length → blank i ≠ "") :
    let text' := layOut blank 0 ((tokenize text).map Token.lexeme).dropLast
    (tokenize text').map Token.lexeme = (tokenize text).map Token.lexeme ∧
      (∃ p p', p.SameButPlaces p' ∧ ∀ budget, (tokenize text).length ≤ budget →
        parseTokens? budget (tokenize text) = some p ∧
          parseTokens? budget (tokenize text') = some p') ∧
      ∀ budget, Option.Rel Parsed.SameButPlaces (parseTokens? budget (tokenize text))
        (parseTokens? budget (tokenize text')) := by
  intro text'
  obtain ⟨xs, hxs, hv⟩ := map_lexeme_tokenize text
  have hlen : (tokenize text).length = xs.length + 1 := by
    simpa using congrArg List.length hxs
  have hw : Written xs text'.toList := by
    show Written xs (layOut blank 0 ((tokenize text).map Token.lexeme).dropLast).toList
    rw [hxs, List.dropLast_concat]
    refine written_layOut hb hv fun j hj hlt => ?_
    rw [Nat.zero_add]
    exact hn j hj (by omega)
  have he : (tokenize text').map Token.lexeme = (tokenize text).map Token.lexeme := by
    rw [hxs]
    exact map_lexeme_tokens hw _
  refine ⟨he, ?_, fun budget => parseTokens?_of_lexemes he.symm budget⟩
  -- The result of the first text is there with as much budget as tokens, and the second text has as
  -- many.
  obtain ⟨p, hp⟩ := exists_parseTokens? text
  obtain ⟨p', hp', hs⟩ := exists_parseTokens?_of_lexemes he.symm (hp _ (Nat.le_refl _))
  exact ⟨p, p', hs, fun budget hb => ⟨hp budget hb, parseTokens?_mono hb hp'⟩⟩

/-- A text with an illegal character, a missing name and a string that is not closed, each of its
tokens on a line of its own. -/
theorem parseTokens?_layOut_lines :
    let text := "let 5 $ \"a"
    let text' := layOut (fun _ => "\r\n") 0 ((tokenize text).map Token.lexeme).dropLast
    let tree : Code := .program [.expressionStatement (.integer 5), .expressionStatement .missing,
      .expressionStatement (.string "a")]
    text' = "\r\nlet\r\n5\r\n$\r\n\"a\"\r\n" ∧
      (tokenize text').map Token.lexeme = (tokenize text).map Token.lexeme ∧
      ∀ budget, 5 ≤ budget → ∃ p p', parseTokens? budget (tokenize text) = some p ∧
        parseTokens? budget (tokenize text') = some p' ∧ p.SameButPlaces p' ∧ p.tree = tree ∧
        p.messages = ["expected next token to be IDENT, got INT instead at 1:5",
          "illegal character '$' at 1:7"] ∧
        p'.messages = ["expected next token to be IDENT, got INT instead at 3:1",
          "illegal character '$' at 4:1"] := by
  intro text text' tree
  have hb : ∀ c ∈ ['\r', '\n'], isSpace c = true :=
    List.forall_mem_cons.2 ⟨rfl, List.forall_mem_singleton.2 rfl⟩
  obtain ⟨he, ⟨p, p', hs, hboth⟩, -⟩ := parseTokens?_layOut text (fun _ => "\r\n") (fun _ => hb)
    (fun _ _ _ => by decide)
  have htext : text' = "\r\nlet\r\n5\r\n$\r\n\"a\"\r\n" := by decide +kernel
  have hlen : (tokenize text).length = 5 := by decide +kernel
  -- a budget of five gives both results, and no other one gives others
  have hp : parseTokens? 5 (tokenize text) = some ⟨tree,
      [.wrongToken .ident .int ⟨1, 5⟩, .illegalCharacter "$" ⟨1, 7⟩]⟩ := by
    decide +kernel
  have hp' : parseTokens? 5 (tokenize text') = some ⟨tree,
      [.wrongToken .ident .int ⟨3, 1⟩, .illegalCharacter "$" ⟨4, 1⟩]⟩ := by
    rw [htext]
    decide +kernel
  refine ⟨htext, he, fun budget hbudget => ?_⟩
  obtain ⟨h, h'⟩ := hboth budget (hlen ▸ hbudget)
  obtain rfl := parseTokens?_unique h hp
  obtain rfl := parseTokens?_unique h' hp'
  exact ⟨_, _, h, h', hs, rfl, by decide +kernel, by decide +kernel⟩

end MonkeyLang
