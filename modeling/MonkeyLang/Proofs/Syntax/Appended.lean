import MonkeyLang.Proofs.Syntax.Completeness
import MonkeyLang.Proofs.Syntax.Layout
import MonkeyLang.Proofs.Syntax.Soundness

/-!
# A program behind another

A program whose blocks are closed and whose last token is a semicolon ends with that semicolon: no
expression goes on behind it. So another program may follow, and reading both at once gives the
statements of the first and then those of the second: `parseTokens?_append`. The first program is
carried over by its reading (`Reads.graft`), since it sees other tokens behind its end; the second by
its run (`Transfer`), since its last blocks may be left open.
-/

namespace MonkeyLang

/-! ## The tokens of a reading are legal -/

/-- Tokens without an illegal character. -/
def NoIllegal (ts : List Token) : Prop :=
  ∀ t ∈ ts, t.kind ≠ .illegal

/-- A phrase takes no illegal character. -/
theorem Reads.noIllegal {closing : List Kind} {n : Nat} {g : Phrase} {ts ts' : List Token}
    (hclosing : ∀ k ∈ closing, k ∉ [.kwReturn, .illegal]) (h : Reads closing n g ts ts')
    (h' : NoIllegal ts') : NoIllegal ts := by
  refine h.carry hclosing (fun {t us} hk hu => ?_) (fun {t us} hr _ hu => ?_) h'
  · exact List.forall_mem_cons.2 ⟨fun he => hk (by rw [he]; decide), hu⟩
  · exact List.forall_mem_cons.2 ⟨by rw [hr]; decide, hu⟩

/-- A program without a mistake has no illegal character. -/
theorem noIllegal_of_parseTokens? {budget : Nat} {tokens : List Token} {p : Code}
    (he : Ended tokens) (h : parseTokens? budget tokens = some ⟨p, []⟩) : NoIllegal tokens := by
  obtain ⟨ss, rest, -, hr, hk⟩ := reads_of_parseTokens? h he.endsText
  refine hr.noIllegal (by decide) ?_
  cases rest with
  | nil => exact nofun
  | cons t us =>
    rw [he.suffix_eq hr.suffix hk]
    rw [nextKind_cons] at hk
    exact List.forall_mem_singleton.2 (by rw [hk]; decide)

/-! ## Other tokens behind the last semicolon -/

/-- The tokens `ts` end with a semicolon and the end of the text, and `vs` are these tokens with `us`
in the place of the end of the text. -/
inductive Grafted (us : List Token) : List Token → List Token → Prop where
  | seam {semi e : Token} : semi.kind = .semicolon → e.kind = .eof → Grafted us [semi, e] (semi :: us)
  | cons {t : Token} {ts vs : List Token} : Grafted us ts vs → Grafted us (t :: ts) (t :: vs)

namespace Grafted

variable {us ts vs : List Token} {t : Token} {k : Kind}

theorem append {semi e : Token} (hs : semi.kind = .semicolon) (he : e.kind = .eof)
    (ts : List Token) : Grafted us (ts ++ [semi, e]) (ts ++ semi :: us) := by
  induction ts with
  | nil => exact .seam hs he
  | cons t ts ih => exact .cons ih

theorem nextKind_eq (h : Grafted us ts vs) : nextKind ts = nextKind vs := by
  cases h <;> rfl

/-- A token that is no semicolon stands before the seam. -/
theorem of_cons (h : Grafted us (t :: ts) vs) (ht : t.kind = k)
    (hk : k ≠ .semicolon := by decide) : ∃ vs', vs = t :: vs' ∧ Grafted us ts vs' := by
  cases h with
  | seam hs _ => exact absurd (ht.symm.trans hs) hk
  | cons h => exact ⟨_, rfl, h⟩

/-- A token that is no semicolon comes next, and it stands before the seam. -/
theorem tail (h : Grafted us ts vs) (ht : nextKind ts = k) (hk : k ≠ .semicolon := by decide) :
    Grafted us ts.tail vs.tail := by
  cases h with
  | seam hs _ => exact absurd (ht.symm.trans hs) hk
  | cons h => exact h

end Grafted

/-- The phrases that can end with a semicolon. -/
def Phrase.IsSequence : Phrase → Prop
  | .statement _ | .statements _ => True
  | _ => False

/-- A phrase of the tokens `ts` is one of the tokens with the graft too. It ends before the seam, or
it is a sequence of statements that ends there. -/
def Grafts (us : List Token) (n : Nat) (g : Phrase) (ts ts' : List Token) : Prop :=
  ∀ vs, Grafted us ts vs →
    (∃ vs', Grafted us ts' vs' ∧ Reads [.rbrace] n g vs vs') ∨
      (g.IsSequence ∧ nextKind ts' = .eof ∧ Reads [.rbrace] n g vs us)

namespace Grafts

variable {us : List Token} {n : Nat} {g : Phrase} {ts ts' vs : List Token}

theorem of_before (h : ∀ vs, Grafted us ts vs →
    ∃ vs', Grafted us ts' vs' ∧ Reads [.rbrace] n g vs vs') : Grafts us n g ts ts' :=
  fun vs hv => .inl (h vs hv)

theorem token {t : Token} {k : Kind} (ht : t.kind = k) (h : ∀ vs, Reads [.rbrace] n g (t :: vs) vs)
    (hk : k ≠ .semicolon := by decide) : Grafts us n g (t :: ts) ts := by
  refine .of_before fun vs hv => ?_
  obtain ⟨vs, rfl, hw⟩ := hv.of_cons ht hk
  exact ⟨vs, hw, h vs⟩

/-- A phrase that is no sequence ends before the seam. -/
theorem before (h : Grafts us n g ts ts') (hg : ¬ g.IsSequence) (hv : Grafted us ts vs) :
    ∃ vs', Grafted us ts' vs' ∧ Reads [.rbrace] n g vs vs' :=
  (h vs hv).resolve_right fun hs => hg hs.1

/-- The semicolon that may end a statement is the seam, or it stands before that. -/
theorem semicolon {s : Code} (hv : Grafted us ts' vs)
    (h : Reads [.rbrace] n (.statement s) ts (skipSemicolon vs)) :
    (∃ vs', Grafted us (skipSemicolon ts') vs' ∧ Reads [.rbrace] n (.statement s) ts vs') ∨
      ((Phrase.statement s).IsSequence ∧ nextKind (skipSemicolon ts') = .eof ∧
        Reads [.rbrace] n (.statement s) ts us) := by
  cases hv with
  | seam hs he =>
    rw [skipSemicolon_of_eq hs] at h ⊢
    exact .inr ⟨trivial, he, h⟩
  | @cons t ts₁ vs₁ hv =>
    refine .inl ⟨_, ?_, h⟩
    by_cases ht : t.kind = .semicolon
    · rw [skipSemicolon_of_eq ht, skipSemicolon_of_eq ht]
      exact hv
    · rw [skipSemicolon_of_ne (by exact ht), skipSemicolon_of_ne (by exact ht)]
      exact .cons hv

end Grafts

/-- At the end of the text there are no more statements. -/
theorem Reads.statements_of_eof {closing : List Kind} {n : Nat} {ss : List Code}
    {ts ts' : List Token} (h : Reads closing n (.statements ss) ts ts') (he : nextKind ts = .eof) :
    ss = [] ∧ ts' = ts := by
  cases h with
  | noStatements => exact ⟨rfl, rfl⟩
  | statements h₁ _ =>
    have hk := h₁.startsWith
    rw [he] at hk
    exact absurd hk (by simp [Phrase.StartsWith, Kind.startsOperand])

/-- Every phrase whose blocks are closed can be grafted. The induction is on the reading: all but
its last token stand before the seam, and the tokens up to the seam are the same. -/
theorem Reads.graft {us : List Token} {n : Nat} {g : Phrase} {ts ts' : List Token}
    (h : Reads [.rbrace] n g ts ts') : Grafts us n g ts ts' := by
  induction h with
  | expression _ _ ih₁ ih₂ =>
    refine .of_before fun vs hv => ?_
    obtain ⟨vs₁, hv₁, h₁⟩ := ih₁.before nofun hv
    obtain ⟨vs₂, hv₂, h₂⟩ := ih₂.before nofun hv₁
    exact ⟨vs₂, hv₂, .expression h₁ h₂⟩
  | identifier hk => exact .token hk fun _ => .identifier hk
  | integer hk hi => exact .token hk fun _ => .integer hk hi
  | string hk => exact .token hk fun _ => .string hk
  | truth hk => exact .token hk fun _ => .truth hk
  | falsity hk => exact .token hk fun _ => .falsity hk
  | prefixed hk _ ih =>
    refine .of_before fun vs hv => ?_
    obtain ⟨vs, rfl, hw⟩ := hv.of_cons rfl (by rcases hk with hk | hk <;> rw [hk] <;> decide)
    obtain ⟨vs₁, hv₁, h₁⟩ := ih.before nofun hw
    exact ⟨vs₁, hv₁, .prefixed hk h₁⟩
  | group ht _ hu ih =>
    refine .of_before fun vs hv => ?_
    obtain ⟨vs, rfl, hw⟩ := hv.of_cons ht
    obtain ⟨_, hv₁, h₁⟩ := ih.before nofun hw
    obtain ⟨vs₁, rfl, hw₁⟩ := hv₁.of_cons hu
    exact ⟨vs₁, hw₁, .group ht h₁ hu⟩
  | conditional ht ho _ hu _ he ih₁ ih₂ =>
    refine .of_before fun vs hv => ?_
    obtain ⟨_, rfl, hw⟩ := hv.of_cons ht
    obtain ⟨vs, rfl, hw'⟩ := hw.of_cons ho
    obtain ⟨_, hv₁, h₁⟩ := ih₁.before nofun hw'
    obtain ⟨vs₁, rfl, hw₁⟩ := hv₁.of_cons hu
    obtain ⟨vs₂, hv₂, h₂⟩ := ih₂.before nofun hw₁
    exact ⟨vs₂, hv₂, .conditional ht ho h₁ hu h₂ (hv₂.nextKind_eq ▸ he)⟩
  | alternative ht ho _ hu _ hl _ ih₁ ih₂ ih₃ =>
    refine .of_before fun vs hv => ?_
    obtain ⟨_, rfl, hw⟩ := hv.of_cons ht
    obtain ⟨vs, rfl, hw'⟩ := hw.of_cons ho
    obtain ⟨_, hv₁, h₁⟩ := ih₁.before nofun hw'
    obtain ⟨vs₁, rfl, hw₁⟩ := hv₁.of_cons hu
    obtain ⟨_, hv₂, h₂⟩ := ih₂.before nofun hw₁
    obtain ⟨vs₂, rfl, hw₂⟩ := hv₂.of_cons hl
    obtain ⟨vs₃, hv₃, h₃⟩ := ih₃.before nofun hw₂
    exact ⟨vs₃, hv₃, .alternative ht ho h₁ hu h₂ hl h₃⟩
  | function ht _ _ ih₁ ih₂ =>
    refine .of_before fun vs hv => ?_
    obtain ⟨vs, rfl, hw⟩ := hv.of_cons ht
    obtain ⟨vs₁, hv₁, h₁⟩ := ih₁.before nofun hw
    obtain ⟨vs₂, hv₂, h₂⟩ := ih₂.before nofun hv₁
    exact ⟨vs₂, hv₂, .function ht h₁ h₂⟩
  | noParameters ho hu =>
    refine .of_before fun vs hv => ?_
    obtain ⟨_, rfl, hw⟩ := hv.of_cons ho
    obtain ⟨vs, rfl, hw'⟩ := hw.of_cons hu
    exact ⟨vs, hw', .noParameters ho hu⟩
  | parameters ho hx _ ih =>
    refine .of_before fun vs hv => ?_
    obtain ⟨_, rfl, hw⟩ := hv.of_cons ho
    obtain ⟨vs, rfl, hw'⟩ := hw.of_cons hx
    obtain ⟨vs₁, hv₁, h₁⟩ := ih.before nofun hw'
    exact ⟨vs₁, hv₁, .parameters ho hx h₁⟩
  | lastParameter hu => exact .token hu fun _ => .lastParameter hu
  | nextParameter hc hx _ ih =>
    refine .of_before fun vs hv => ?_
    obtain ⟨_, rfl, hw⟩ := hv.of_cons hc
    obtain ⟨vs, rfl, hw'⟩ := hw.of_cons hx
    obtain ⟨vs₁, hv₁, h₁⟩ := ih.before nofun hw'
    exact ⟨vs₁, hv₁, .nextParameter hc hx h₁⟩
  | noArguments ho hu =>
    refine .of_before fun vs hv => ?_
    obtain ⟨_, rfl, hw⟩ := hv.of_cons ho
    obtain ⟨vs, rfl, hw'⟩ := hw.of_cons hu
    exact ⟨vs, hw', .noArguments ho hu⟩
  | arguments ho _ _ ih₁ ih₂ =>
    refine .of_before fun vs hv => ?_
    obtain ⟨vs, rfl, hw⟩ := hv.of_cons ho
    obtain ⟨vs₁, hv₁, h₁⟩ := ih₁.before nofun hw
    obtain ⟨vs₂, hv₂, h₂⟩ := ih₂.before nofun hv₁
    exact ⟨vs₂, hv₂, .arguments ho h₁ h₂⟩
  | lastArgument hu => exact .token hu fun _ => .lastArgument hu
  | nextArgument hc _ _ ih₁ ih₂ =>
    refine .of_before fun vs hv => ?_
    obtain ⟨vs, rfl, hw⟩ := hv.of_cons hc
    obtain ⟨vs₁, hv₁, h₁⟩ := ih₁.before nofun hw
    obtain ⟨vs₂, hv₂, h₂⟩ := ih₂.before nofun hv₁
    exact ⟨vs₂, hv₂, .nextArgument hc h₁ h₂⟩
  | stop hp => exact .of_before fun vs hv => ⟨vs, hv, .stop (hv.nextKind_eq ▸ hp)⟩
  | call ht hp _ _ ih₁ ih₂ =>
    refine .of_before fun vs hv => ?_
    obtain ⟨vs₁, hv₁, h₁⟩ := ih₁.before nofun hv
    obtain ⟨vs₂, hv₂, h₂⟩ := ih₂.before nofun hv₁
    obtain ⟨vs, rfl, -⟩ := hv.of_cons ht
    exact ⟨vs₂, hv₂, .call ht hp h₁ h₂⟩
  | @infixed _ p _ _ _ t _ _ _ ht hp _ _ ih₁ ih₂ =>
    refine .of_before fun vs hv => ?_
    have hk : t.kind ≠ .semicolon := Kind.ne_of_lt_precedence hp
    obtain ⟨vs, rfl, hw⟩ := hv.of_cons rfl hk
    obtain ⟨vs₁, hv₁, h₁⟩ := ih₁.before nofun hw
    obtain ⟨vs₂, hv₂, h₂⟩ := ih₂.before nofun hv₁
    exact ⟨vs₂, hv₂, .infixed ht hp h₁ h₂⟩
  | block ho _ hk ih =>
    refine .of_before fun vs hv => ?_
    obtain ⟨vs, rfl, hw⟩ := hv.of_cons ho
    -- The brace that closes the block is still to come, so its statements end before the seam.
    rcases ih vs hw with ⟨vs₁, hv₁, h₁⟩ | ⟨-, he, -⟩
    · exact ⟨_, hv₁.tail (List.mem_singleton.1 hk), .block ho h₁ (hv₁.nextKind_eq ▸ hk)⟩
    · rw [he] at hk
      exact absurd hk (by decide)
  | letStatement ht hx ha _ ih =>
    intro vs hv
    obtain ⟨_, rfl, hw⟩ := hv.of_cons ht
    obtain ⟨_, rfl, hw'⟩ := hw.of_cons hx
    obtain ⟨vs, rfl, hw''⟩ := hw'.of_cons ha
    obtain ⟨vs₁, hv₁, h₁⟩ := ih.before nofun hw''
    exact Grafts.semicolon hv₁ (.letStatement ht hx ha h₁)
  | bareReturn ht hn =>
    intro vs hv
    obtain ⟨vs, rfl, hw⟩ := hv.of_cons ht
    exact Grafts.semicolon hw (.bareReturn ht (hw.nextKind_eq ▸ hn))
  | returnStatement ht _ ih =>
    intro vs hv
    obtain ⟨vs, rfl, hw⟩ := hv.of_cons ht
    obtain ⟨vs₁, hv₁, h₁⟩ := ih.before nofun hw
    exact Grafts.semicolon hv₁ (.returnStatement ht h₁)
  | expressionStatement _ ih =>
    intro vs hv
    obtain ⟨vs₁, hv₁, h₁⟩ := ih.before nofun hv
    exact Grafts.semicolon hv₁ (.expressionStatement h₁)
  | noStatements => exact .of_before fun vs hv => ⟨vs, hv, .noStatements⟩
  | statements _ h₂ ih₁ ih₂ =>
    intro vs hv
    rcases ih₁ vs hv with ⟨vs₁, hv₁, h₁⟩ | ⟨-, he, h₁⟩
    · rcases ih₂ vs₁ hv₁ with ⟨vs₂, hv₂, h₂⟩ | ⟨hs, he, h₂⟩
      · exact .inl ⟨vs₂, hv₂, .statements h₁ h₂⟩
      · exact .inr ⟨hs, he, .statements h₁ h₂⟩
    · -- The first statement ends at the seam, so it is the last one too.
      obtain ⟨rfl, rfl⟩ := h₂.statements_of_eof he
      exact .inr ⟨trivial, he, .statements h₁ .noStatements⟩

/-! ## One run over both programs -/

/-- Every statement has a token. -/
theorem Reads.length_statements {n : Nat} {ss : List Code} {ts ts' : List Token}
    (h : Reads [.rbrace] n (.statements ss) ts ts') : ss.length + ts'.length ≤ ts.length := by
  induction ss generalizing ts with
  | nil =>
    cases h
    exact Nat.le_of_eq (Nat.zero_add _)
  | cons s ss ih =>
    cases h with
    | statements h₁ h₂ =>
      have hl := Takes.length_lt h₁.spans
      have hr := ih h₂
      rw [List.length_cons]
      omega

/-- The statements of a reading come first, one in each round, and the loop goes on behind them. -/
theorem Parse.statements_of_reads {fuel n m : Nat} {ss : List Code} {ts us : List Token} {u : Token}
    {ds : Array Diagnostic} {c : Cursor} (h : Reads [.rbrace] n (.statements ss) ts (u :: us))
    (hr : Readable fuel ts) (hc : c.stream = ts) (hd : c.diagnostics = ds) :
    statements (expression fuel n) [.eof] (ss.length + m) c =
      (statements (expression fuel n) [.eof] m ⟨u, us, ds⟩).map fun r => (ss ++ r.1, r.2) := by
  induction ss generalizing ts c with
  | nil =>
    cases h
    obtain ⟨t, ts, ds'⟩ := c
    obtain ⟨rfl, rfl⟩ := List.cons.inj hc
    subst hd
    rw [List.length_nil, Nat.zero_add]
    exact Option.map_id'.symm
  | cons s ss ih =>
    cases h with
    | @statements _ _ _ _ ts₁ _ h₁ h₂ =>
      have hr₁ := hr.of_consumes h₁.consumes
      obtain ⟨x, vs, rfl⟩ := hr₁.toLegal.exists_cons
      obtain ⟨t, ht⟩ := completes_of_reads h₁ hr c hc
      -- the loop does not stop here, since a statement starts with no end of a text
      have hk : c.current.kind ∉ [Kind.eof] := by
        have hs := h₁.startsWith
        rw [← hc, Cursor.stream, nextKind_cons] at hs
        intro he
        rw [List.mem_singleton.1 he] at hs
        exact absurd hs (by simp [Phrase.StartsWith, Kind.startsOperand])
      have hw : s.isMissing = false := h₁.isWhole
      rw [List.length_cons, Nat.add_right_comm]
      show (if c.current.kind ∈ [Kind.eof] then _ else _ : Parse (List Code)) c = _
      rw [if_neg hk, bind_apply, ht, Option.bind_some]
      show (statements (expression fuel n) [.eof] (ss.length + m) (Cursor.advance _)).bind _ = _
      have ih' := ih (c := ⟨x, vs, c.diagnostics⟩) h₂ hr₁ rfl hd
      rw [Produces.advance_eq hr₁.toLegal, ih', Option.bind_map]
      cases statements (expression fuel n) [.eof] m ⟨u, us, ds⟩ with
      | none => rfl
      | some r =>
        -- only a statement that is missing is left out of the list
        show some ((if s.isMissing = true then _ else _), _) = _
        rw [hw]
        rfl

/-- A program that ends with a semicolon, and whose blocks are closed, is still there if other tokens
come behind it. -/
theorem reads_grafted {n : Nat} {ss : List Code} {ts : List Token} {semi e : Token}
    (hs : semi.kind = .semicolon) (he : Ended (ts ++ [semi, e]))
    (hb : braceSurplus (ts ++ [semi, e]) = 0)
    (h : parseTokens? n (ts ++ [semi, e]) = some ⟨.program ss, []⟩) (us : List Token) :
    Reads [.rbrace] n (.statements ss) (ts ++ semi :: us) us := by
  obtain ⟨ss', t, hss, hr, ht⟩ := reads_of_balanced he h hb
  obtain rfl := Tree.program.inj hss
  obtain ⟨xs, hxs⟩ := hr.suffix
  have hte : t = e := by simpa using congrArg List.getLast? hxs
  rcases hr.graft _ (.append hs (hte ▸ ht) ts) with ⟨vs, hv, -⟩ | ⟨-, -, hg⟩
  · -- Nothing is left before the seam.
    cases hv with | cons hv => cases hv
  · exact hg

/-- The tokens of a program without a mistake are legal, and so are tokens with the same lexemes. -/
theorem legal_of_parseTokens? {n : Nat} {tokens us : List Token} {p : Code} (he : Ended tokens)
    (h : parseTokens? n tokens = some ⟨p, []⟩) (hu : us.map Token.lexeme = tokens.map Token.lexeme) :
    Legal us := by
  have kinds : us.map Token.kind = tokens.map Token.kind := by
    have hk := congrArg (List.map Lexeme.kind) hu
    rwa [List.map_map, List.map_map] at hk
  constructor
  · intro t ht
    have hm : t.kind ∈ tokens.map Token.kind := kinds ▸ List.mem_map_of_mem ht
    obtain ⟨t', ht', hk⟩ := List.mem_map.1 hm
    exact hk ▸ noIllegal_of_parseTokens? he h t' ht'
  · obtain ⟨t, hl, ht⟩ := he.endsText
    have hm : t.kind ∈ us.map Token.kind := kinds ▸ List.mem_map_of_mem (List.mem_of_getLast? hl)
    obtain ⟨t', ht', hk⟩ := List.mem_map.1 hm
    exact ⟨t', ht', hk.trans ht⟩

/-- A program of legal tokens is what the loop over statements gives at the first of them. -/
theorem parseTokens?_eq_program_iff {n : Nat} {ss : List Code} {t : Token} {ts : List Token}
    (hl : Legal (t :: ts)) :
    parseTokens? n (t :: ts) = some ⟨.program ss, []⟩ ↔
      ∃ d, Parse.statements (Parse.expression ((t :: ts).length + 1) n) [.eof]
        ((t :: ts).length + 1) ⟨t, ts, #[]⟩ = some (ss, d) ∧ d.diagnostics.toList = [] := by
  rw [parseTokens?_eq, hl.start_eq, Option.map_eq_some_iff]
  constructor
  · rintro ⟨⟨tree, d⟩, hx, hp⟩
    obtain ⟨⟨ss', d'⟩, hss, hpure⟩ := Option.bind_eq_some_iff.1 hx
    cases hpure
    rw [Parsed.mk.injEq, Tree.program.injEq] at hp
    exact ⟨d, by rw [hss, hp.1], hp.2⟩
  · rintro ⟨d, hss, hd⟩
    refine ⟨(.program ss, d), Option.bind_eq_some_iff.2 ⟨(ss, d), hss, rfl⟩, ?_⟩
    rw [hd]

/-- Two programs one behind the other, the first of which ends with a semicolon and has its blocks
closed, are read as one: it has the statements of both. -/
theorem parseTokens?_append {n : Nat} {ss₁ ss₂ : List Code} {ts us tokens : List Token}
    {semi e : Token} (hs : semi.kind = .semicolon) (he₁ : Ended (ts ++ [semi, e]))
    (hb : braceSurplus (ts ++ [semi, e]) = 0)
    (h₁ : parseTokens? n (ts ++ [semi, e]) = some ⟨.program ss₁, []⟩) (he₂ : Ended tokens)
    (h₂ : parseTokens? n tokens = some ⟨.program ss₂, []⟩)
    (hu : us.map Token.lexeme = tokens.map Token.lexeme) :
    parseTokens? n (ts ++ semi :: us) = some ⟨.program (ss₁ ++ ss₂), []⟩ := by
  have hg := reads_grafted hs he₁ hb h₁ us
  generalize ts ++ semi :: us = both at hg ⊢
  have hl := legal_of_parseTokens? he₂ h₂ hu
  have hlb : Legal both :=
    ⟨hg.noIllegal (by decide) hl.legal, hl.ends.imp fun t ht => ⟨hg.suffix.subset ht.1, ht.2⟩⟩
  obtain ⟨x, xs, rfl⟩ := hlb.exists_cons
  obtain ⟨u, us, rfl⟩ := hl.exists_cons
  obtain ⟨t₂, ts₂, rfl⟩ := List.exists_cons_of_ne_nil he₂.ne_nil
  -- The second program is read behind the first one as it is read alone.
  obtain ⟨d, hrun, hd⟩ := (parseTokens?_eq_program_iff (legal_of_parseTokens? he₂ h₂ rfl)).1 h₂
  have hsame : Cursor.SameLexemes ⟨t₂, ts₂, #[]⟩ ⟨u, us, #[]⟩ :=
    ⟨(List.cons.inj hu).1.symm, (List.cons.inj hu).2.symm, .nil⟩
  have hlen : (u :: us).length = (t₂ :: ts₂).length := by simpa using congrArg List.length hu
  have hrounds := hg.length_statements
  obtain ⟨m, hm⟩ : ∃ m, (x :: xs).length + 1 = ss₁.length + m :=
    ⟨(x :: xs).length + 1 - ss₁.length, by omega⟩
  have hsim := Cursor.SameLexemes.simulation
  have hinner := Parse.expression_follows hsim
    (by omega : (t₂ :: ts₂).length + 1 ≤ (x :: xs).length + 1) (Nat.le_refl n)
  obtain ⟨d', hrun', hdd⟩ := Parse.statements_follows hsim hinner [.eof]
    (by omega : (t₂ :: ts₂).length + 1 ≤ m) hsame ss₂ d hrun
  have hd' : d'.diagnostics.toList = [] := by
    have hf := hdd.diagnostics
    rwa [hd, List.forall₂_nil_left_iff] at hf
  refine (parseTokens?_eq_program_iff hlb).2 ⟨d', ?_, hd'⟩
  rw [hm, Parse.statements_of_reads hg ⟨hlb, by omega⟩ rfl rfl, ← hm, hrun']
  rfl

end MonkeyLang
