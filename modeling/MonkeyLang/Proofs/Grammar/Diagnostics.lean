import MonkeyLang.Grammar.Program
import MonkeyLang.Proofs.Syntax.Halting

/-!
# Which tokens are reported

An illegal character and an integer literal out of range are mistakes wherever they stand. Reading
by precedence reports each of them once, in the order of the text, however it recovers from the
other mistakes: `lexical_messages`.

On the way of a reader through the tokens nothing is lost and nothing is told twice. An illegal
character is reported when it becomes the next token, so the reported ones and those behind the next
token are always the ones of the whole text (`Stage.illegal`). A literal out of range is reported
when its token is dealt with, so the reported ones and those that are still to be dealt with are
(`Stage.outOfRange`). The machine of the grammar deals with each token that it takes, and reports
nothing else while it goes on (`notes_feed`).
-/

namespace MonkeyLang

/-- The diagnostic for an illegal character. -/
def Token.illegal? (t : Token) : Option Diagnostic :=
  if t.kind = .illegal then some (.illegalCharacter t.literal t.position) else none

/-- The diagnostic for an integer literal that no word holds. -/
def Token.outOfRange? (t : Token) : Option Diagnostic :=
  if t.isOutOfRange then some (.integerRange t.literal t.position) else none

/-- A token of a kind other than a numeral is never out of range. -/
theorem Token.outOfRange?_of_ne {t : Token} {k : Kind} (h : t.kind = k) (hk : k ≠ .int) :
    t.outOfRange? = none := by
  simp [outOfRange?, isOutOfRange_of_ne h hk]

namespace Diagnostic

def isIllegal : Diagnostic → Bool
  | .illegalCharacter .. => true
  | _ => false

def isOutOfRange : Diagnostic → Bool
  | .integerRange .. => true
  | _ => false

/-- A mistake of the grammar is about no token in itself. -/
theorem of_isLexical {d : Diagnostic} (h : d.isLexical = false) :
    d.isIllegal = false ∧ d.isOutOfRange = false := by
  cases d <;> first | exact ⟨rfl, rfl⟩ | cases h

end Diagnostic

/-- What is told of illegal characters is not told of numerals. -/
theorem isIllegal_of_mem {ts : List Token} {d : Diagnostic}
    (hd : d ∈ ts.filterMap Token.illegal?) : d.isIllegal = true ∧ d.isOutOfRange = false := by
  obtain ⟨t, -, ht⟩ := List.mem_filterMap.1 hd
  unfold Token.illegal? at ht
  split at ht <;> cases ht
  exact ⟨rfl, rfl⟩

/-- All diagnostics for illegal characters are kept by their own filter. -/
theorem filter_isIllegal_filterMap (ts : List Token) :
    (ts.filterMap Token.illegal?).filter Diagnostic.isIllegal = ts.filterMap Token.illegal? :=
  List.filter_eq_self.2 fun _ hd => (isIllegal_of_mem hd).1

/-- None of them is kept by the filter for numerals. -/
theorem filter_isOutOfRange_filterMap (ts : List Token) :
    (ts.filterMap Token.illegal?).filter Diagnostic.isOutOfRange = [] :=
  List.filter_eq_nil_iff.2 fun _ hd => by simp [(isIllegal_of_mem hd).2]

/-! ## Laws of the steps -/

namespace Cursor

/-- A look at the next token reports it if it is illegal. -/
theorem diagnostics_inspectPeek (c : Cursor) :
    c.inspectPeek.diagnostics.toList =
      c.diagnostics.toList ++ (c.upcoming.take 1).filterMap Token.illegal? := by
  unfold inspectPeek
  split
  · next t ts hu =>
    -- The next token is illegal and reported, or it is neither.
    by_cases hk : t.kind = .illegal <;> simp [hu, hk, Token.illegal?, report]
  · next hu => simp [hu]

/-- Moving on reports the token that becomes the next one, if it is illegal. -/
theorem diagnostics_advance (c : Cursor) :
    c.advance.diagnostics.toList =
      c.diagnostics.toList ++ (c.upcoming.tail.take 1).filterMap Token.illegal? := by
  cases hu : c.upcoming with
  | nil => simp [advance_nil hu]
  | cons t ts => rw [advance_cons hu, diagnostics_inspectPeek]; rfl

/-- At the start the first two tokens are looked at. -/
theorem diagnostics_start (t : Token) (ts : List Token) :
    (start (t :: ts)).diagnostics.toList = (t :: ts.take 1).filterMap Token.illegal? := by
  unfold start
  rw [diagnostics_inspectPeek]
  by_cases hk : t.kind = .illegal <;> simp [hk, Token.illegal?, report]

end Cursor

namespace Stage

variable {s s' : Stage}

/-- The illegal characters that are reported, and those that will be. -/
def illegal (s : Stage) : List Diagnostic :=
  s.cursor.diagnostics.toList.filter Diagnostic.isIllegal ++
    s.cursor.upcoming.tail.filterMap Token.illegal?

/-- The tokens that are still to be dealt with. -/
def todo (s : Stage) : List Token :=
  if s.dealt then s.cursor.upcoming else s.cursor.stream

/-- The literals out of range that are reported, and those that will be. -/
def outOfRange (s : Stage) : List Diagnostic :=
  s.cursor.diagnostics.toList.filter Diagnostic.isOutOfRange ++ s.todo.filterMap Token.outOfRange?

/-- No step loses an illegal character or tells of one twice. -/
theorem Step.illegal_eq (h : Step s s') : s'.illegal = s.illegal := by
  cases h with
  | advance c =>
    -- The token that becomes the next one is reported, if it is illegal.
    have hsplit : c.upcoming.tail = c.upcoming.tail.take 1 ++ c.upcoming.tail.tail := by
      rw [← List.drop_one (l := c.upcoming.tail), List.take_append_drop]
    calc (Stage.mk c.advance false).illegal
        = c.diagnostics.toList.filter Diagnostic.isIllegal ++
            ((c.upcoming.tail.take 1).filterMap Token.illegal? ++
              c.upcoming.tail.tail.filterMap Token.illegal?) := by
          rw [illegal, Cursor.diagnostics_advance, List.filter_append, filter_isIllegal_filterMap,
            Cursor.upcoming_advance, List.append_assoc]
      _ = (Stage.mk c true).illegal := by rw [← List.filterMap_append, ← hsplit]; rfl
  | pass _ => rfl
  | integerRange _ => simp [illegal, Cursor.report, Diagnostic.isIllegal]
  | mistake hd => simp [illegal, Cursor.report, (Diagnostic.of_isLexical hd).1]

/-- No step loses a literal out of range or tells of one twice. -/
theorem Step.outOfRange_eq (h : Step s s') (hc : s.cursor.Checked) :
    s'.outOfRange = s.outOfRange := by
  cases h with
  | advance c =>
    have htodo : c.advance.stream.filterMap Token.outOfRange? =
        c.upcoming.filterMap Token.outOfRange? := by
      cases hu : c.upcoming with
      | nil =>
        -- The end of the text stays in hand, and it is no literal.
        have he : c.current.outOfRange? = none :=
          Token.outOfRange?_of_ne (hc.kind_of_nil hu) (by decide)
        rw [Cursor.advance_nil hu, Cursor.stream, hu, List.filterMap_cons_none he]
      | cons t ts => rw [Cursor.stream_advance hu, hu]
    rw [outOfRange, Cursor.diagnostics_advance, List.filter_append, filter_isOutOfRange_filterMap,
      List.append_nil]
    exact congrArg _ htodo
  | @pass c h => simp [outOfRange, todo, Cursor.stream, Token.outOfRange?, h]
  | @integerRange c h =>
    -- The token is told of instead of to be dealt with.
    have ht : c.current.outOfRange? = some (.integerRange c.current.literal c.current.position) :=
      if_pos h
    show (c.diagnostics.push _).toList.filter _ ++ _ = _ ++ (c.current :: c.upcoming).filterMap _
    rw [Array.toList_push, List.filter_append, List.append_assoc, List.filterMap_cons_some ht]
    rfl
  | mistake hd =>
    simp [outOfRange, todo, Cursor.stream, Cursor.report, (Diagnostic.of_isLexical hd).2]

/-- A whole way of steps keeps the illegal characters that are and will be told of. -/
theorem Path.illegal_eq (h : Path s s') : s'.illegal = s.illegal := by
  induction h with
  | refl => rfl
  | tail _ hstep ih => exact hstep.illegal_eq.trans ih

/-- A whole way of steps keeps the literals out of range that are and will be told of. -/
theorem Path.outOfRange_eq (h : Path s s') (hc : s.cursor.Checked) :
    s'.outOfRange = s.outOfRange := by
  induction h with
  | refl => rfl
  | tail hp hstep ih => exact (hstep.outOfRange_eq (Path.checked hp hc)).trans ih

/-- At the start they are the illegal characters of the text. -/
theorem illegal_start {ts : List Token} (h : EndsText ts) :
    (Stage.mk (Cursor.start ts) false).illegal = ts.filterMap Token.illegal? := by
  obtain ⟨-, hs⟩ := Cursor.Checked.start h
  cases ts with
  | nil => cases hs
  | cons t us =>
    obtain ⟨-, hu⟩ := List.cons.inj hs
    have hsplit : t :: us = (t :: us.take 1) ++ us.tail := by
      rw [List.cons_append, ← List.drop_one, List.take_append_drop]
    rw [illegal, Cursor.diagnostics_start, filter_isIllegal_filterMap, hu, ← List.filterMap_append,
      ← hsplit]

/-- At the start they are the literals out of range of the text. -/
theorem outOfRange_start {ts : List Token} (h : EndsText ts) :
    (Stage.mk (Cursor.start ts) false).outOfRange = ts.filterMap Token.outOfRange? := by
  obtain ⟨-, hs⟩ := Cursor.Checked.start h
  cases ts with
  | nil => cases hs
  | cons t us =>
    rw [outOfRange, Cursor.diagnostics_start, filter_isOutOfRange_filterMap, todo, hs]
    rfl

end Stage

/-! ## Reading by precedence -/

/-- The diagnostics `ds` tell of every illegal character and of every literal out of range among the
tokens `ts`, once and in their order. -/
structure TellsLexical (ts : List Token) (ds : List Diagnostic) : Prop where
  illegal : ds.filter Diagnostic.isIllegal = ts.filterMap Token.illegal?
  outOfRange : ds.filter Diagnostic.isOutOfRange = ts.filterMap Token.outOfRange?

/-- A way to the end of the text has told of all of them: none is left for later. -/
theorem Stage.Path.tellsLexical {ts : List Token} {c : Cursor} (he : EndsText ts)
    (h : Stage.Path ⟨Cursor.start ts, false⟩ ⟨c, true⟩) (hc : c.upcoming = []) :
    TellsLexical ts c.diagnostics.toList := by
  have hi := h.illegal_eq
  have ho := h.outOfRange_eq (Cursor.Checked.start he).1
  rw [Stage.illegal_start he, Stage.illegal, hc] at hi
  rw [Stage.outOfRange_start he, Stage.outOfRange, Stage.todo, if_pos rfl, hc] at ho
  exact ⟨by simpa using hi, by simpa using ho⟩

/-- A text has one result, whatever the budget is, and a budget of the number of its tokens is
enough for it. -/
theorem exists_parsed (text : String) : ∃ parsed : Parsed,
    (∀ budget, (tokenize text).length ≤ budget →
      parseTokens? budget (tokenize text) = some parsed) ∧
    (∀ budget p, parseTokens? budget (tokenize text) = some p → p = parsed) ∧
    TellsLexical (tokenize text) parsed.diagnostics := by
  obtain ⟨tree, c, hr, hp, hc⟩ := exists_program_tokenize text
  have hends : EndsText (tokenize text) := (Source.ended_tokens _).endsText
  refine ⟨⟨tree, c.diagnostics.toList⟩, fun budget hb => parseTokens?_of_program hr hb, ?_, ?_⟩
  · exact fun budget p h => parseTokens?_unique h (parseTokens?_of_program hr (Nat.le_refl _))
  · exact hp.tellsLexical hends hc

/-! ## Reading by the grammar -/

/-- A keyword that was taken for a name is out of range no more than the name. -/
theorem Token.outOfRange?_plain (t : Token) : t.plain.outOfRange? = t.outOfRange? := by
  by_cases hk : t.kind = .ident
  · have hw : Kind.ofWord t.literal ≠ .int :=
      Kind.forall_ofWord (P := (· ≠ .int)) (by decide) _
    rw [outOfRange?_of_ne hk (by decide), plain, if_pos hk]
    exact outOfRange?_of_ne rfl hw
  · rw [plain_of_ne hk]

namespace Grammar

namespace Machine

/-- The result `r` of the machine `m` at the token `t`, if there is one, has one more diagnostic if
the token is a literal out of range, and no other one. -/
def Notes (m : Machine) (t : Token) (r : Except Diagnostic Machine) : Prop :=
  ∀ m', r = .ok m' → m'.diagnostics.toList = m.diagnostics.toList ++ t.outOfRange?.toList

namespace Notes

variable {m m₁ : Machine} {t : Token} {k : Kind} {d : Diagnostic}

theorem error : Notes m t (.error d) := by
  intro m' h
  cases h

/-- A token that is no literal is not noted. -/
theorem ok (ht : t.kind = k) (hk : k ≠ .int) (hd : m₁.diagnostics = m.diagnostics) :
    Notes m t (.ok m₁) := by
  intro m' h
  cases h
  rw [Token.outOfRange?_of_ne ht hk, hd]
  exact (List.append_nil _).symm

/-- One expected kind that is no literal: taken without a note, or the end of the run. -/
theorem take (hk : k ≠ .int) (hd : m₁.diagnostics = m.diagnostics) :
    Notes m t (if t.kind = k then .ok m₁ else .error d) := by
  split
  · next ht => exact .ok ht hk hd
  · exact .error

end Notes

variable (m : Machine) (t : Token)

/-- An operand is the one place where a literal is taken, and there its range is looked at. -/
theorem notes_operand : Notes m t (m.operand t) := by
  unfold operand
  cases hk : t.kind
  -- A literal in range gives its value and one out of range a diagnostic.
  case int =>
    dsimp only
    split
    · next n hn =>
      intro m' h
      cases h
      simp [Token.outOfRange?, Token.isOutOfRange, hn, inMode]
    · next hn =>
      intro m' h
      cases h
      simp [Token.outOfRange?, Token.isOutOfRange, hk, hn]
  case ident | string | kwTrue | kwFalse | bang | minus | lparen | kwIf | kwFn =>
    exact .ok hk (by decide) rfl
  all_goals exact .error

/-- A brace that closes a block is not noted. -/
theorem notes_endBlock (hk : t.kind = .rbrace) : Notes m t (m.endBlock t) := by
  unfold endBlock
  split
  · split <;> exact .ok hk (by decide) rfl
  · exact .error

/-- The start of a statement notes what the start of an operand does, as it may be one. -/
theorem notes_statement : Notes m t (m.statement t) := by
  unfold statement
  cases hk : t.kind
  case kwLet | kwReturn => exact .ok hk (by decide) rfl
  case rbrace => exact notes_endBlock m t hk
  case eof =>
    dsimp only
    split
    · exact .ok hk (by decide) rfl
    · exact .error
  -- Every other token starts an expression that is a statement.
  all_goals exact notes_operand { m with stack := .statementValue :: m.stack } t

/-- A token behind a statement is its semicolon or starts the next one. -/
theorem notes_afterStatement (s : Code) : Notes m t (m.afterStatement s t) := by
  have hd : (m.endStatement s).diagnostics = m.diagnostics := (endStatement_blocks m s).2
  unfold afterStatement
  dsimp only
  split
  · next hk => exact .ok hk (by decide) hd
  -- The statement is filed without a note, so the notes are those of the next one.
  · intro m' h
    rw [← hd]
    exact notes_statement _ t m' h

/-- A token behind an expression is noted only where it starts a statement. -/
theorem notes_conclude (e : Code) (s : List Pending) : Notes m t (m.conclude t e s) := by
  unfold conclude
  split
  · exact notes_afterStatement (m.set _ .statement) t _
  · exact notes_afterStatement (m.set _ .statement) t _
  · exact notes_afterStatement (m.set _ .statement) t _
  · exact .take (by decide) rfl
  · exact .take (by decide) rfl
  · cases hk : t.kind
    case comma | rparen => exact .ok hk (by decide) rfl
    all_goals exact .error
  · exact .error

/-- A token behind an operand is an operator or ends the expression. -/
theorem notes_afterOperand (e : Code) : Notes m t (m.afterOperand e t) := by
  unfold afterOperand
  split
  · next hk => exact .ok hk (by decide) rfl
  split
  · have he := endExpression_set m m.stack m.mode e t
    have h := notes_conclude m t (reduce .lowest e m.stack).1 (reduce .lowest e m.stack).2
    rwa [← he] at h
  · next hp =>
    refine .ok rfl (fun hk => hp ?_) rfl
    -- A literal has no precedence, so it is not an operator.
    rw [hk]
    rfl

/-- The machine notes a literal out of range when it takes its token. -/
theorem notes_feed : Notes m t (m.feed t) := by
  unfold feed
  dsimp only
  cases m.mode with
  | statement => exact notes_statement m t
  -- modes that try the token as the start of something, and otherwise as its end
  | returned =>
    dsimp only
    split
    · exact notes_operand { m with stack := .returnValue :: m.stack } t
    · exact notes_afterStatement m t _
  | operand => exact notes_operand m t
  | callOpen callee =>
    dsimp only
    split
    · next hk => exact .ok hk (by decide) rfl
    · exact notes_operand { m with stack := .arguments callee [] :: m.stack } t
  | ended e | closed e => exact notes_afterOperand m t e
  | consequence c b =>
    dsimp only
    split
    · next hk => exact .ok hk (by decide) rfl
    · exact notes_afterOperand m t _
  -- modes that wait for a token of a few kinds
  | parametersOpen =>
    cases hk : t.kind
    case ident | rparen => exact .ok hk (by decide) rfl
    all_goals exact .error
  | parameter ps =>
    cases hk : t.kind
    case comma | rparen => exact .ok hk (by decide) rfl
    all_goals exact .error
  | letName | letAssign | ifOpen | fnOpen | conditionClosed | elseOpen | parameterNext
  | parametersClosed => exact .take (by decide) rfl

end Machine

/-- A run notes the literals out of range among the tokens that it takes, in their order. -/
theorem Runs.diagnostics_eq {m m' : Machine} {s : Source} {ts : List Token} (h : Runs m s ts m') :
    m'.diagnostics.toList = m.diagnostics.toList ++ ts.filterMap Token.outOfRange? := by
  induction h with
  | @stop m m' s s' t _ _ hf =>
    rw [Machine.notes_feed m t m' hf]
    cases h : t.outOfRange? <;> simp [h]
  | @step m m₁ m' s s' t ts _ _ hf _ ih =>
    rw [ih, Machine.notes_feed m t m₁ hf, List.append_assoc]
    cases h : t.outOfRange? <;> simp [h]

/-- A text that the grammar derives has the literals out of range of the text as its diagnostics. -/
theorem diagnostics_of_run {text : String} {m : Machine}
    (h : ({} : Machine).run (Source.ofString text) = .ok m) :
    m.diagnostics.toList = (tokenize text).filterMap Token.outOfRange? := by
  obtain ⟨ts, hr⟩ := Runs.of_run h
  have ht : tokenize text = ts.map Token.plain := hr.tokens_eq.1
  -- The run reads a keyword as a name where it can, and the plain token has the same literal.
  have hp : Token.outOfRange? ∘ Token.plain = Token.outOfRange? := funext Token.outOfRange?_plain
  rw [hr.diagnostics_eq, ht, List.filterMap_map, hp]
  rfl

end Grammar

/-! ## Messages -/

/-- The messages that tell of the illegal characters among some tokens. -/
def illegalMessages (ts : List Token) : List String :=
  (ts.filter (·.kind = .illegal)).map fun t =>
    "illegal character " ++ Text.quoted t.literal ++ " at " ++ t.position.text

/-- The messages that tell of the integer literals out of range among some tokens. -/
def outOfRangeMessages (ts : List Token) : List String :=
  (ts.filter (·.isOutOfRange)).map fun t =>
    "could not parse " ++ t.literal ++ " as integer at " ++ t.position.text

/-- Whether a message begins with some words. -/
def beginsWith (words message : String) : Bool :=
  words.toList.isPrefixOf message.toList

/-- A map of only the elements that pass a test. -/
theorem filterMap_ite (p : Token → Prop) [DecidablePred p] (f : Token → Diagnostic)
    (ts : List Token) :
    ts.filterMap (fun t => if p t then some (f t) else none) = (ts.filter p).map f := by
  induction ts with
  | nil => rfl
  | cons t ts ih => by_cases h : p t <;> simp [h, ih]

theorem illegalMessages_eq (ts : List Token) :
    illegalMessages ts = (ts.filterMap Token.illegal?).map Diagnostic.message := by
  have h : ts.filterMap Token.illegal? = _ := filterMap_ite _ _ ts
  rw [h, List.map_map]
  rfl

theorem outOfRangeMessages_eq (ts : List Token) :
    outOfRangeMessages ts = (ts.filterMap Token.outOfRange?).map Diagnostic.message := by
  have h : ts.filterMap Token.outOfRange? = _ := filterMap_ite _ _ ts
  simp only [h, List.map_map, Bool.decide_eq_true]
  rfl

/-- The words of a message say what it tells of. -/
theorem beginsWith_message (d : Diagnostic) :
    beginsWith "illegal character " d.message = d.isIllegal ∧
      beginsWith "could not parse " d.message = d.isOutOfRange := by
  unfold beginsWith Diagnostic.message
  cases d with
  | unexpectedEnd => exact ⟨rfl, rfl⟩
  | _ =>
    simp only [String.toList_append, List.append_assoc]
    exact ⟨rfl, rfl⟩

/-- What is told in diagnostics is told in messages, since these begin with the words of their kind.
-/
theorem TellsLexical.messages {ts : List Token} {p : Parsed} (h : TellsLexical ts p.diagnostics) :
    p.messages.filter (beginsWith "illegal character ") = illegalMessages ts ∧
      p.messages.filter (beginsWith "could not parse ") = outOfRangeMessages ts := by
  have hi : beginsWith "illegal character " ∘ Diagnostic.message = Diagnostic.isIllegal :=
    funext fun d => (beginsWith_message d).1
  have ho : beginsWith "could not parse " ∘ Diagnostic.message = Diagnostic.isOutOfRange :=
    funext fun d => (beginsWith_message d).2
  rw [Parsed.messages, List.filter_map, List.filter_map, hi, ho, h.illegal, h.outOfRange,
    illegalMessages_eq, outOfRangeMessages_eq]
  exact ⟨rfl, rfl⟩

/-- No message about a token in itself is lost or repeated. Every text has one result of reading by
precedence, whatever the budget is that gives it. Its messages about illegal characters are one for
each illegal token of the text, in their order, and so are those about integer literals that no word
holds. Where the grammar derives a text, the messages are those about its literals and no other
ones. -/
theorem lexical_messages (text : String) :
    (∃ parsed : Parsed,
      (∀ budget, (tokenize text).length ≤ budget →
        parseTokens? budget (tokenize text) = some parsed) ∧
      (∀ budget p, parseTokens? budget (tokenize text) = some p → p = parsed) ∧
      parsed.messages.filter (beginsWith "illegal character ") =
        illegalMessages (tokenize text) ∧
      parsed.messages.filter (beginsWith "could not parse ") =
        outOfRangeMessages (tokenize text)) ∧
    ∀ m, ({} : Grammar.Machine).run (Source.ofString text) = .ok m →
      m.diagnostics.toList.map Diagnostic.message = outOfRangeMessages (tokenize text) ∧
      (parseGrammar? text).map Parsed.messages =
        if m.program.fits nestingLimit then some (outOfRangeMessages (tokenize text))
        else none := by
  constructor
  · obtain ⟨parsed, hb, hu, ht⟩ := exists_parsed text
    exact ⟨parsed, hb, hu, ht.messages⟩
  -- the machine reports nothing but what is out of range
  · intro m hm
    have hd : m.diagnostics.toList.map Diagnostic.message = outOfRangeMessages (tokenize text) := by
      rw [Grammar.diagnostics_of_run hm, outOfRangeMessages_eq]
    refine ⟨hd, ?_⟩
    rw [parseGrammar?, hm]
    dsimp only
    split
    · rw [Option.map_some, Parsed.messages, hd]
    · rfl

/-- A text in which reading by precedence abandons a statement and the arguments of a call, and one
that only the grammar derives. -/
theorem lexical_messages_abandoned :
    (∃ parsed, parse? "let 1 = @; f(9223372036854775808 $ 2, 99999999999999999999" = some parsed ∧
      parsed.messages.filter (beginsWith "illegal character ") =
        ["illegal character '@' at 1:9", "illegal character '$' at 1:34"] ∧
      parsed.messages.filter (beginsWith "could not parse ") =
        ["could not parse 9223372036854775808 as integer at 1:14",
          "could not parse 99999999999999999999 as integer at 1:39"]) ∧
    (parseGrammar? "let fn = 9223372036854775808; return let x = 3;").map Parsed.messages =
      some ["could not parse 9223372036854775808 as integer at 1:10"] := by
  constructor
  · obtain ⟨⟨parsed, hb, -, hi, ho⟩, -⟩ :=
      lexical_messages "let 1 = @; f(9223372036854775808 $ 2, 99999999999999999999"
    refine ⟨parsed, hb nestingLimit (by decide +kernel), hi.trans ?_, ho.trans ?_⟩
    · decide +kernel
    · decide +kernel
  · have hfits : ((({} : Grammar.Machine).run
        (Source.ofString "let fn = 9223372036854775808; return let x = 3;")).toOption.any
          fun m => m.program.fits nestingLimit) = true := by
      decide +kernel
    -- the tree is not looked at, only that it fits
    generalize hm : ({} : Grammar.Machine).run _ = r at hfits
    cases r with
    | error d => cases hfits
    | ok m =>
      have hfits : m.program.fits nestingLimit = true := hfits
      rw [((lexical_messages _).2 m hm).2, if_pos hfits]
      decide +kernel

end MonkeyLang
