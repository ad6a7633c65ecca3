import MonkeyLang.Grammar.Program
import MonkeyLang.Proofs.Grammar.Context
import MonkeyLang.Proofs.Syntax.Transfer
import MonkeyLang.Proofs.Syntax.Completeness
import MonkeyLang.Proofs.Syntax.Soundness

/-!
# The two ways to read a program

A text that reading by precedence takes without a mistake is taken by the grammar with the same tree,
if its strings and its blocks are closed: `parseGrammar?_of_parseTokens?`.

The converse fails. The grammar takes a keyword for a name where only a name can stand, as in
`let fn = 5;`, and it lets a statement begin right behind `return`, as in `return let x = 1;`; reading
by precedence reports both. These two are all there is: `parseTokens?_of_parseGrammar?` says that
reading by precedence takes a text of the grammar if and only if it has neither, and then with the
same tree.
-/

namespace MonkeyLang

open Grammar

/-! ## From precedence to the grammar -/

/-- What reading by precedence takes, the machine of the grammar ends with. -/
theorem run_of_parseTokens? {text : String} {budget : Nat} {p : Code}
    (h : parseTokens? budget (tokenize text) = some ⟨p, []⟩)
    (hs : (Source.ofString text).stringsClosed = true) (hb : braceSurplus (tokenize text) = 0) :
    ∃ m, Runs {} (Source.ofString text) (tokenize text) m ∧ m.program = p ∧
      m.diagnostics = #[] := by
  obtain ⟨ss, t, rfl, hr, ht⟩ := reads_of_balanced (Source.ended_tokens _) h hb
  refine ⟨{ done := ss.reverse }, runs_of_feedAll hs (feedAll_of_reads hr ht), ?_, rfl⟩
  rw [Machine.program, List.reverse_reverse]

/-- A text that reading by precedence takes without a mistake is taken by the grammar with the same
tree, if every string and every block in it is closed. Only a tree that nests deeper than the limit
has no result. -/
theorem parseGrammar?_of_parseTokens? {text : String} {budget : Nat} {p : Code}
    (h : parseTokens? budget (tokenize text) = some ⟨p, []⟩)
    (hs : (Source.ofString text).stringsClosed = true)
    (hb : (tokenize text).countP (·.kind = .lbrace) = (tokenize text).countP (·.kind = .rbrace)) :
    (∃ m, ({} : Grammar.Machine).run (Source.ofString text) = .ok m ∧ m.program = p ∧
      m.diagnostics = #[]) ∧
    parseGrammar? text = if p.fits nestingLimit then some ⟨p, []⟩ else none := by
  have hb' : braceSurplus (tokenize text) = 0 := by
    rw [braceSurplus_eq_count, hb]
    omega
  obtain ⟨m, hr, hp, hd⟩ := run_of_parseTokens? h hs hb'
  refine ⟨⟨m, hr.run_eq, hp, hd⟩, ?_⟩
  rw [parseGrammar?, hr.run_eq]
  simp only [hp, hd]

/-- A text with missing semicolons, a `return` without a value, blanks in odd places and a
conditional as an operand. -/
def oddText : String :=
  "let f = fn(x) \x7b if (x == \"a\") \x7b return \x7d else \x7b return 5 -3 \x7d \x7d f (1) + if (!f) \x7b 1 \x7d"

def oddProgram : Code := .program [
  .letStatement "f" (.function ["x"] (.block [.expressionStatement (.conditional
    (.infixed (.identifier "x") "==" (.string "a")) (.block [.returnStatement .missing])
    (.block [.returnStatement (.infixed (.integer 5) "-" (.integer 3))]))])),
  .expressionStatement (.infixed (.call (.identifier "f") [.integer 1]) "+"
    (.conditional (.prefixed "!" (.identifier "f")) (.block [.expressionStatement (.integer 1)])
      .missing))]

theorem parse?_oddText : parse? oddText = some ⟨oddProgram, []⟩ := by
  decide +kernel

theorem stringsClosed_oddText : (Source.ofString oddText).stringsClosed = true := by
  decide +kernel

theorem countP_oddText : (tokenize oddText).countP (·.kind = .lbrace) =
    (tokenize oddText).countP (·.kind = .rbrace) := by
  decide +kernel

theorem parseGrammar?_oddText :
    parse? oddText = some ⟨oddProgram, []⟩ ∧ parseGrammar? oddText = some ⟨oddProgram, []⟩ :=
  ⟨parse?_oddText,
    (parseGrammar?_of_parseTokens? parse?_oddText stringsClosed_oddText countP_oddText).2⟩

/-! ## From the grammar to precedence -/

/-- The tokens `ts` that the grammar reads in context have neither a keyword in the place of a name
nor a `let` or a `return` right behind a `return`. -/
def Plain (ts : List Token) : Prop :=
  (∀ t ∈ ts, t.kind = .ident → Kind.keyword? t.literal = none) ∧ ReturnsApart ts

/-- Tokens without a keyword in the place of a name are those without a context. -/
theorem map_plain_eq_iff {ts : List Token} :
    ts.map Token.plain = ts ↔ ∀ t ∈ ts, t.kind = .ident → Kind.keyword? t.literal = none := by
  induction ts with
  | nil => simp
  | cons t ts ih =>
    rw [List.map_cons, List.cons.injEq, List.forall_mem_cons, Token.plain_eq_iff, ih]

/-- A machine that is done has closed every block. -/
theorem Grammar.Runs.braceSurplus_eq {m m' : Grammar.Machine} {s : Source} {ts : List Token}
    (h : Runs m s ts m') : (openBlocks m.stack : Int) + braceSurplus ts = 0 := by
  induction h with
  | stop _ ht hf =>
    have hs := Machine.steps_feed _ _ _ hf
    have hb := hs.blocks
    rw [hs.final ht] at hb
    rw [braceSurplus, braceSurplus_nil]
    have h0 : (openBlocks [] : Int) = 0 := rfl
    omega
  | step _ _ hf _ ih =>
    have hb := (Machine.steps_feed _ _ _ hf).blocks
    rw [braceSurplus]
    omega

/-- The grammar without a mistake is a run of the machine. -/
theorem exists_runs_of_parseGrammar? {text : String} {p : Code}
    (h : parseGrammar? text = some ⟨p, []⟩) :
    ∃ m ts, Runs {} (Source.ofString text) ts m ∧ m.program = p ∧ m.diagnostics = #[] := by
  unfold parseGrammar? at h
  split at h
  · cases h
  · next m hm =>
    obtain ⟨ts, hr⟩ := Runs.of_run hm
    split at h
    · rw [Option.some.injEq, Parsed.mk.injEq, Array.toList_eq_nil_iff] at h
      exact ⟨m, ts, hr, h.1, h.2⟩
    · cases h

/-- A text of the grammar is taken by precedence if and only if its tokens are plain, and then with
the same tree, whatever the budget is above some level; if they are not, every result has a
diagnostic. -/
theorem parseTokens?_of_parseGrammar? {text : String} {p : Code}
    (h : parseGrammar? text = some ⟨p, []⟩) :
    ∃ m ts, Runs {} (Source.ofString text) ts m ∧
      (Plain ts → ∃ n, ∀ budget, n ≤ budget →
        parseTokens? budget (tokenize text) = some ⟨p, []⟩) ∧
      (¬ Plain ts → ∀ budget parsed, parseTokens? budget (tokenize text) = some parsed →
        parsed.diagnostics ≠ []) := by
  obtain ⟨m, ts, hr, rfl, hd⟩ := exists_runs_of_parseGrammar? h
  obtain ⟨ht, hc⟩ := hr.tokens_eq
  have ht : tokenize text = ts.map Token.plain := ht
  refine ⟨m, ts, hr, fun hp => ?_, fun hp budget parsed hq hn => hp ?_⟩
  · obtain ⟨hw, ha⟩ := hp
    rw [map_plain_eq_iff.2 hw] at ht
    obtain ⟨n, ss, t, hs, hk⟩ := reads_of_accepts ⟨hr.ended, ha⟩ ⟨m, hr.feedAll_eq, hd⟩
    -- The machine that has followed the reading is the one that has run.
    have hm : m = { done := ss.reverse } :=
      Except.ok.inj (hr.feedAll_eq.symm.trans (feedAll_of_reads hs hk))
    have hp : m.program = .program ss := by rw [hm, Machine.program, List.reverse_reverse]
    refine ⟨n, fun budget hb => ?_⟩
    rw [ht, hp]
    exact parseTokens?_mono hb (parseTokens?_of_reads hs (.of_consumes_eof hs.consumes hk) hk)
  · obtain ⟨q, ds⟩ := parsed
    obtain rfl : ds = [] := hn
    have hb : braceSurplus (tokenize text) = 0 := by
      have hb : (0 : Int) + braceSurplus ts = 0 := hr.braceSurplus_eq
      rw [ht, braceSurplus_map_plain]
      omega
    -- The tokens without a context are read in context too, so these are the ones of the run.
    obtain ⟨m', hr', -, -⟩ := run_of_parseTokens? hq hc hb
    obtain ⟨ss, t, -, hs, hk⟩ := reads_of_balanced (Source.ended_tokens _) hq hb
    have he : ts = tokenize text := hr.unique hr'
    refine ⟨map_plain_eq_iff.1 (ht.symm.trans he.symm), ?_⟩
    rw [he]
    refine hs.returnsApart (by decide) ⟨fun hkr => ?_, trivial⟩
    rw [hk] at hkr
    cases hkr

/-- Right behind `return` the grammar lets a `let` begin, and reading by precedence never does. -/
theorem returnLet_parse :
    parseGrammar? "return let x = 1;" =
      some ⟨.program [.returnStatement .missing, .letStatement "x" (.integer 1)], []⟩ ∧
    ∀ budget parsed, parseTokens? budget (tokenize "return let x = 1;") = some parsed →
      parsed.diagnostics ≠ [] := by
  have h : parseGrammar? "return let x = 1;" =
      some ⟨.program [.returnStatement .missing, .letStatement "x" (.integer 1)], []⟩ := by
    decide +kernel
  obtain ⟨m, ts, hr, -, hn⟩ := parseTokens?_of_parseGrammar? h
  refine ⟨h, hn fun hp => ?_⟩
  have ht : tokenize "return let x = 1;" = ts.map Token.plain := hr.tokens_eq.1
  rw [map_plain_eq_iff.2 hp.1] at ht
  have ha : ReturnsApart (tokenize "return let x = 1;") := ht ▸ hp.2
  exact absurd ha (by decide +kernel)

/-- Texts that the grammar takes and reading by precedence does not: a keyword as a name, and a
statement right behind `return`. -/
theorem parseGrammar?_not_parse? :
    (parseGrammar? "let fn = 5;" = some ⟨.program [.letStatement "fn" (.integer 5)], []⟩ ∧
      ∀ p, parse? "let fn = 5;" ≠ some ⟨p, []⟩) ∧
    (parseGrammar? "return let x = 1;" =
        some ⟨.program [.returnStatement .missing, .letStatement "x" (.integer 1)], []⟩ ∧
      ∀ p, parse? "return let x = 1;" ≠ some ⟨p, []⟩) := by
  have h₁ : ((parse? "let fn = 5;").map fun r => r.diagnostics.isEmpty) = some false := by
    decide +kernel
  have h₂ : ((parse? "return let x = 1;").map fun r => r.diagnostics.isEmpty) = some false := by
    decide +kernel
  refine ⟨⟨by decide +kernel, fun p h => ?_⟩, ⟨by decide +kernel, fun p h => ?_⟩⟩
  · rw [h] at h₁
    cases h₁
  · rw [h] at h₂
    cases h₂

end MonkeyLang
