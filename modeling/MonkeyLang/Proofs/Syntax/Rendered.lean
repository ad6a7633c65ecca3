import MonkeyLang.Proofs.Syntax.RoundTrip
import MonkeyLang.Tree.Render

/-!
# Reading rendered programs

Rendering leaves out the braces of blocks and the semicolon of an expression statement. A program
without blocks whose only expression statement is its last (`Braceless`) loses nothing: its text is
read as the program again (`parse_render`), so no two of them have the same text.

Between the text and the tree stand the lexemes of the rendered tree, `Tree.rendered`. The text is
cut into them although most of them touch (`Formula.isCut`): what follows an operand is never a
letter, a digit or an `=`, and what follows a `!` never starts with an `=`. From the lexemes the
tree is read (`Formula.reads`) since every operation is an operand in parentheses, behind which the
loop that reads operations goes on as behind a name.
-/

namespace MonkeyLang

open Lexeme

/-! ## Programs that rendering does not shorten -/

/-- The expressions without blocks that a text can write. -/
inductive Formula : Code → Prop where
  | identifier {x : String} : IsName x → Formula (.identifier x)
  | integer {n : Int} : 0 ≤ n → n ≤ Word.max → Formula (.integer n)
  | string {s : String} : '"' ∉ s.toList → Formula (.string s)
  | boolean (b : Bool) : Formula (.boolean b)
  | prefixed {o : String} {k : Kind} {e : Code} : prefixKind? o = some k → Formula e →
      Formula (.prefixed o e)
  | infixed {o : String} {k : Kind} {l r : Code} : infixKind? o = some k → Formula l → Formula r →
      Formula (.infixed l o r)
  | call {f : Code} {as : List Code} : Formula f → (∀ a ∈ as, Formula a) → Formula (.call f as)

/-- The statements that end with a semicolon where they are rendered. -/
inductive Closed : Code → Prop where
  | letStatement {x : String} {e : Code} : IsName x → Formula e → Closed (.letStatement x e)
  | bareReturn : Closed (.returnStatement .missing)
  | returnStatement {e : Code} : Formula e → Closed (.returnStatement e)

/-- Statements that end with a semicolon, and perhaps an expression statement after them. -/
inductive Braceless : List Code → Prop where
  | nil : Braceless []
  | last {e : Code} : Formula e → Braceless [.expressionStatement e]
  | cons {s : Code} {ss : List Code} : Closed s → Braceless ss → Braceless (s :: ss)

namespace Tree

mutual

/-- The lexemes of a rendered tree. They are those of the tree, but for the parentheses and the
semicolons. -/
def rendered : Code → List Lexeme
  | .program ss => (renderedEach ss).flatten
  | .letStatement x e =>
    ⟨.kwLet, "let"⟩ :: ⟨.ident, x⟩ :: ⟨.assign, "="⟩ :: (e.rendered ++ [semicolon])
  | .returnStatement e => ⟨.kwReturn, "return"⟩ :: (e.rendered ++ [semicolon])
  | .expressionStatement e => e.rendered
  | .prefixed o e => enclose true (prefixOperator o :: e.rendered)
  | .infixed l o r => enclose true (l.rendered ++ infixOperator o :: r.rendered)
  | .call f as => f.rendered ++ listed (renderedEach as)
  | t => t.lexemes
termination_by structural t => t

def renderedEach : List Code → List (List Lexeme)
  | [] => []
  | t :: ts => t.rendered :: renderedEach ts
termination_by structural ts => ts

end

theorem renderedEach_eq_map (ts : List Code) : renderedEach ts = ts.map rendered := by
  induction ts with
  | nil => rfl
  | cons t ts ih => rw [renderedEach, List.map_cons, ih]

mutual

/-- How deep expressions nest inside the outermost expressions of a rendered tree. An operation is
one deeper than its left operand, for its parentheses, and two deeper than its right one. -/
def renderedDepth : Code → Nat
  | .program ss => renderedDepthEach ss
  | .letStatement _ e | .returnStatement e | .expressionStatement e => e.renderedDepth
  | .prefixed _ e => e.renderedDepth + 2
  | .infixed l _ r => max l.renderedDepth (r.renderedDepth + 1) + 1
  | .call f as => max f.renderedDepth (renderedDepthEach as + 1)
  | _ => 0
termination_by structural t => t

def renderedDepthEach : List Code → Nat
  | [] => 0
  | t :: ts => max t.renderedDepth (renderedDepthEach ts)
termination_by structural ts => ts

end

/-- Each of some trees is no deeper than the deepest. -/
theorem renderedDepth_le_each {t : Code} {ts : List Code} (h : t ∈ ts) :
    t.renderedDepth ≤ renderedDepthEach ts := by
  induction ts with
  | nil => cases h
  | cons s ts ih =>
    rw [renderedDepthEach]
    rcases List.mem_cons.1 h with rfl | h
    · exact Nat.le_max_left ..
    · exact Nat.le_trans (ih h) (Nat.le_max_right ..)

end Tree

/-! ## From the text to the lexemes -/

namespace Cut

variable {x : Lexeme} {xs : List Lexeme} {c : Char} {cs : List Char}

/-- A blank before a lexeme belongs to none. -/
theorem blank (hc : isSpace c = true) (h : Cut xs cs) : Cut xs (c :: cs) := by
  cases h with
  | nil hb => exact .nil (List.forall_mem_cons.2 ⟨hc, hb⟩)
  | cons hb hx h => exact .cons (List.forall_mem_cons.2 ⟨hc, hb⟩) hx h

/-- Characters that form a lexeme before the others. -/
theorem forms {span : List Char} (hx : Forms cs span x) (h : Cut xs cs) :
    Cut (x :: xs) (span ++ cs) :=
  @Cut.cons x xs [] span cs nofun hx h

/-- A lexeme is formed by its own spelling, wherever what follows it goes on none. -/
theorem valid (hx : x.Valid) (hs : Stops cs) (h : Cut xs cs) :
    Cut (x :: xs) (x.spelling.toList ++ cs) :=
  .forms (hx.forms hs) h

theorem openParenthesis (h : Cut xs cs) : Cut (openParenthesis :: xs) ('(' :: cs) :=
  .forms (.symbol rfl) h

theorem closeParenthesis (h : Cut xs cs) : Cut (closeParenthesis :: xs) (')' :: cs) :=
  .forms (.symbol rfl) h

theorem comma (h : Cut xs cs) : Cut (comma :: xs) (',' :: cs) :=
  .forms (.symbol rfl) h

theorem semicolon (h : Cut xs cs) : Cut (semicolon :: xs) (';' :: cs) :=
  .forms (.symbol rfl) h

end Cut

/-- No expression starts with an `=`, which would go on a `!` before it. -/
theorem Formula.head_render {e : Code} (h : Formula e) (cs : List Char) :
    (e.render.toList ++ cs).head? ≠ some '=' := by
  -- Names and numerals are runs of characters that an `=` does not belong to.
  have of_run (cs : List Char) {ds : List Char} {q : Char → Bool} (hq : q '=' = false)
      (hn : ds ≠ []) (hd : ∀ c ∈ ds, q c = true) : (ds ++ cs).head? ≠ some '=' := by
    obtain ⟨c, ds, rfl⟩ := List.exists_cons_of_ne_nil hn
    rintro ⟨⟩
    exact absurd (hd '=' List.mem_cons_self) (by simp [hq])
  induction h generalizing cs with
  | identifier h => exact of_run cs (q := isLetter) (by decide) h.nonempty h.letters
  | @integer n h _ =>
    obtain ⟨k, rfl⟩ := Int.eq_ofNat_of_zero_le h
    have hd : (Tree.integer k).render.toList = Nat.toDigits 10 k := Nat.toList_repr
    rw [hd]
    exact of_run cs (q := isDigit) (by decide) Nat.toDigits_ne_nil fun _ => isDigit_of_mem_toDigits
  | boolean b => cases b <;> simp [Tree.render]
  | string _ | prefixed _ _ _ | infixed _ _ _ _ _ => simp [Tree.render]
  | call _ _ ihf _ =>
    simp only [Tree.render, String.toList_append, List.append_assoc]
    exact ihf _

namespace Cut

variable {o : String} {k : Kind} {xs : List Lexeme} {cs : List Char}

/-- A prefix operator is cut off before whatever does not make another operator of it. -/
theorem prefixOperator (ho : prefixKind? o = some k) (hn : cs.head? ≠ some '=') (h : Cut xs cs) :
    Cut (prefixOperator o :: xs) (o.toList ++ cs) := by
  unfold prefixKind? at ho
  split at ho
  · exact .forms (.bang hn) h
  · exact .forms (.symbol (c := '-') rfl) h
  · cases ho

/-- An infix operator is cut off by the blank behind it. -/
theorem infixOperator (ho : infixKind? o = some k) (hs : Stops cs) (h : Cut xs cs) :
    Cut (infixOperator o :: xs) (o.toList ++ cs) := by
  have hx : (Lexeme.infixOperator o).spelling = o := by
    unfold infixKind? at ho
    split at ho
    case h_9 => cases ho
    all_goals rfl
  have hv := Cut.valid (valid_infixOperator ho) hs h
  rwa [hx] at hv

end Cut

/-- The text of a tree is cut into its lexemes, wherever what follows it goes on no lexeme. -/
def Tree.IsCut (t : Code) : Prop :=
  ∀ {ys : List Lexeme} {rest : List Char}, Stops rest → Cut ys rest →
    Cut (t.rendered ++ ys) (t.render.toList ++ rest)

/-- The elements of a list are cut at the commas between them. -/
theorem cut_elements {a : Code} {as : List Code} (ih : ∀ b ∈ a :: as, b.IsCut) {ys : List Lexeme}
    {rest : List Char} (hc : Cut ys rest) :
    Cut (a.rendered ++ (following (as.map Tree.rendered) ++ ys))
      ((", ".intercalate ((a :: as).map Tree.render)).toList ++ ')' :: rest) := by
  induction as generalizing a with
  | nil =>
    obtain ⟨iha, -⟩ := List.forall_mem_cons.1 ih
    rw [List.map_singleton, String.intercalate_singleton]
    exact iha (stops_cons rest (by decide)) hc.closeParenthesis
  | cons b as ih' =>
    obtain ⟨iha, ihs⟩ := List.forall_mem_cons.1 ih
    have hrest := Cut.comma (.blank (c := ' ') rfl (ih' ihs))
    rw [List.map_cons, List.map_cons, List.map_cons, String.intercalate_cons_cons,
      String.toList_append, String.toList_append, List.append_assoc, List.append_assoc]
    simpa [following] using iha (stops_cons _ (by decide)) hrest

/-- The arguments of a call are cut at their parentheses and commas. -/
theorem cut_listed {as : List Code} (ih : ∀ a ∈ as, a.IsCut) {ys : List Lexeme}
    {rest : List Char} (hc : Cut ys rest) :
    Cut (listed (as.map Tree.rendered) ++ ys)
      ('(' :: ((", ".intercalate (as.map Tree.render)).toList ++ ')' :: rest)) := by
  cases as with
  | nil => exact hc.closeParenthesis.openParenthesis
  | cons a as =>
    simpa [listed] using (cut_elements ih hc).openParenthesis

/-- The text of an expression is cut into its lexemes. -/
theorem Formula.isCut {e : Code} (h : Formula e) : e.IsCut := by
  induction h with
  | identifier h => exact .valid (valid_name h)
  | integer h _ => exact .valid (valid_integer h)
  | @string s h =>
    have hv : Valid ⟨.string, s⟩ := by
      rw [← String.ofList_toList (s := s)]
      exact .string h
    intro ys rest hs hc
    exact .valid hv hs hc
  | boolean b => cases b <;> exact .valid (valid_keyword rfl (by decide) rfl)
  -- The closing parenthesis ends the operand, and the operand does not go on the operator.
  | @prefixed o k e ho he ih =>
    intro ys rest hs hc
    have hright := ih (stops_cons rest (by decide)) hc.closeParenthesis
    have hleft := Cut.prefixOperator ho (he.head_render _) hright
    simpa [Tree.rendered, Tree.render, enclose] using hleft.openParenthesis
  -- Blanks stand around the operator, so that nothing goes on the left operand or on it.
  | @infixed o k l r ho _ _ ihl ihr =>
    intro ys rest hs hc
    have hright := ihr (stops_cons rest (by decide)) hc.closeParenthesis
    have hleft := ihl (stops_cons _ (by decide)) <| .blank (c := ' ') rfl <|
      .infixOperator ho (stops_cons _ (by decide)) <| .blank (c := ' ') rfl hright
    simpa [Tree.rendered, Tree.render, enclose] using hleft.openParenthesis
  | @call f as _ _ ihf iha =>
    intro ys rest hs hc
    have h := ihf (stops_cons _ (by decide)) (cut_listed iha hc)
    simpa [Tree.rendered, Tree.render, Tree.renderedEach_eq_map, Tree.renderEach_eq_map] using h

section

variable {e : Code} (h : Formula e)

include h

/-- A binding of an expression is rendered with the expression as it is. -/
theorem Formula.render_letStatement (x : String) :
    (Tree.letStatement x e).render = "let " ++ x ++ " = " ++ e.render ++ ";" := by
  cases h <;> rfl

/-- A return of an expression is rendered with the expression as it is. -/
theorem Formula.render_returnStatement :
    (Tree.returnStatement e).render = "return " ++ e.render ++ ";" := by
  cases h <;> rfl

/-- A statement that is an expression is rendered as that. -/
theorem Formula.render_expressionStatement : (Tree.expressionStatement e).render = e.render := by
  cases h <;> rfl

end

/-- A program is rendered statement by statement, with nothing between them. -/
theorem Tree.render_program_cons (s : Code) (ss : List Code) :
    (Tree.program (s :: ss)).render = s.render ++ (Tree.program ss).render :=
  String.join_cons

/-- The semicolon ends the text of a statement, so anything may follow it. -/
theorem Closed.cut {s : Code} (h : Closed s) {ys : List Lexeme} {rest : List Char}
    (hc : Cut ys rest) : Cut (s.rendered ++ ys) (s.render.toList ++ rest) := by
  have hreturn : Valid ⟨.kwReturn, "return"⟩ := valid_keyword rfl (by decide) rfl
  cases h with
  | letStatement hx he =>
    have hlet : Valid ⟨.kwLet, "let"⟩ := valid_keyword rfl (by decide) rfl
    -- from the semicolon forwards: the value, the sign, the name, the keyword
    have hv := he.isCut (stops_cons rest (by decide)) hc.semicolon
    have hx := Cut.valid (valid_name hx) (stops_cons _ (by decide)) <| .blank (c := ' ') rfl <|
      .valid .assign (stops_cons _ (by decide)) <| .blank (c := ' ') rfl hv
    have hs := Cut.valid hlet (stops_cons _ (by decide)) <| .blank (c := ' ') rfl hx
    simpa [Tree.rendered, he.render_letStatement, Lexeme.spelling] using hs
  | bareReturn =>
    have hs := Cut.valid hreturn (stops_cons rest (by decide)) hc.semicolon
    have hr : (Tree.returnStatement .missing).render = "return;" := rfl
    simpa [Tree.rendered, Tree.lexemes, hr, Lexeme.spelling] using hs
  | returnStatement he =>
    have hv := he.isCut (stops_cons rest (by decide)) hc.semicolon
    have hs := Cut.valid hreturn (stops_cons _ (by decide)) <| .blank (c := ' ') rfl hv
    simpa [Tree.rendered, he.render_returnStatement, Lexeme.spelling] using hs

/-- The text of a program is cut into its lexemes: each statement but the last ends with a
semicolon. -/
theorem Braceless.cut {ss : List Code} (h : Braceless ss) :
    Cut (Tree.program ss).rendered (Tree.program ss).render.toList := by
  induction h with
  | nil => exact .nil nofun
  | last he =>
    have hv := @Formula.isCut _ he [] [] nofun (.nil nofun)
    have hr : (Tree.program []).render = "" := rfl
    simpa [Tree.rendered, Tree.renderedEach, Tree.render_program_cons, hr,
      he.render_expressionStatement] using hv
  | cons hs _ ih =>
    rw [Tree.render_program_cons, String.toList_append]
    exact hs.cut ih

/-! ## From the lexemes to the tree -/

/-- An operation in its parentheses is an operand. No operation goes on at the closing one. -/
theorem reads_group {xs : List Lexeme} {n : Nat} {e : Code} {ts ts₁ : List Token}
    (hs : Spells ts (enclose true xs) ts₁)
    (h : ∀ {us tm : List Token}, (∀ p : Precedence, ¬ p < (nextKind tm).precedence) →
      Spells us xs tm → Reads [.rbrace] n (.expression .lowest e) us tm) :
    Reads [.rbrace] n (.operand e) ts ts₁ := by
  obtain ⟨o, us, rfl, ho, -, hs⟩ := Spells.exists_cons hs
  obtain ⟨tm, hs, hu⟩ := hs.exists_append
  obtain ⟨u, rfl, hu, -⟩ := hu.exists_singleton
  have hstop (p : Precedence) : ¬ p < (nextKind (u :: ts₁)).precedence := by
    rw [nextKind_cons, hu]
    exact p.not_lt_lowest
  exact .group ho (h hstop hs) hu

/-- The lexemes of a rendered expression are read as it, and reading goes on from there as the loop
does. -/
theorem Formula.reads {e : Code} (h : Formula e) {n : Nat} {p : Precedence} {e' : Code}
    {ts ts₁ ts₂ : List Token} (hd : e.renderedDepth ≤ n) (hp : p < .call)
    (hs : Spells ts e.rendered ts₁) (ho : Reads [.rbrace] n (.operations p e e') ts₁ ts₂) :
    Reads [.rbrace] (n + 1) (.expression p e') ts ts₂ := by
  induction h generalizing n p e' ts ts₁ ts₂ with
  | identifier _ =>
    obtain ⟨t, rfl, ht, rfl⟩ := hs.exists_singleton
    exact .expression (.identifier ht) ho
  | string _ =>
    obtain ⟨t, rfl, ht, rfl⟩ := hs.exists_singleton
    exact .expression (.string ht) ho
  | integer h₀ h => exact .expression (reads_integer h₀ h hs) ho
  | boolean b => exact .expression (reads_boolean hs) ho
  | @prefixed o k e hk _ ih =>
    simp only [Tree.renderedDepth] at hd
    obtain ⟨n, rfl⟩ : ∃ m, n = m + 2 := ⟨n - 2, by omega⟩
    refine .expression (reads_group hs fun hstop hs => ?_) ho
    obtain ⟨t, us, rfl, htk, htl, hs⟩ := Spells.exists_cons hs
    have hto : t.literal = o := htl
    have hoperand := ih (n := n) (by omega) (by decide) hs (.stop (hstop .unary))
    have hr := Reads.prefixed (htk ▸ prefixOperator_kind hk) hoperand
    rw [hto] at hr
    exact .expression hr (.stop (hstop .lowest))
  | @infixed o k l r hk _ _ ihl ihr =>
    simp only [Tree.renderedDepth] at hd
    obtain ⟨n, rfl⟩ : ∃ m, n = m + 2 := ⟨n - 2, by omega⟩
    refine .expression (reads_group hs fun hstop hs => ?_) ho
    obtain ⟨tm, hsl, hs⟩ := Spells.exists_append hs
    obtain ⟨t, us, rfl, htk, htl, hsr⟩ := hs.exists_cons
    -- the operator binds: tighter than `lowest`, where the group begins, and looser than a call
    obtain ⟨hlow, hup⟩ := lt_infixPrecedence hk
    have htp : t.kind.precedence = infixPrecedence o := congrArg Kind.precedence htk
    have hto : t.literal = o := htl
    have htk' : t.kind ≠ .lparen := htk ▸ infixOperator_kind_ne hk
    have hcall : t.kind.precedence < .call := by
      rw [htp]
      rw [Precedence.lt_iff] at hup ⊢
      exact Nat.lt_trans hup (by decide)
    have hright := ihr (n := n) (by omega) hcall hsr (.stop (hstop _))
    refine ihl (by omega) (by decide) hsl (.infixed htk' (htp ▸ hlow) hright ?_)
    rw [hto]
    exact .stop (hstop .lowest)
  -- What is called needs no parentheses here: an operation has its own already.
  | @call f as _ _ ihf iha =>
    simp only [Tree.renderedDepth] at hd
    obtain ⟨tm, hsf, hs⟩ := Spells.exists_append hs
    rw [Tree.renderedEach_eq_map] at hs
    have has : Reads [.rbrace] n (.arguments as) tm ts₁ := by
      refine ReadsBack.arguments (fun a ha us tm k hsa hk hl _ => ?_) hs
      have hda := Tree.renderedDepth_le_each ha
      obtain ⟨n, rfl⟩ : ∃ m, n = m + 1 := ⟨n - 1, by omega⟩
      refine iha a ha (by omega) (by decide) hsa (.stop ?_)
      rw [hk, hl]
      decide
    exact ihf (by omega) hp hsf (has.calls hp ho)

/-- A rendered expression up to a token that no expression goes on with. -/
theorem Formula.whole {e : Code} (h : Formula e) {n : Nat} {ts ts₁ : List Token}
    (hd : e.renderedDepth < n) (hs : Spells ts e.rendered ts₁)
    (hn : (nextKind ts₁).precedence = .lowest) :
    Reads [.rbrace] n (.expression .lowest e) ts ts₁ := by
  obtain ⟨n, rfl⟩ : ∃ m, n = m + 1 := ⟨n - 1, by omega⟩
  refine h.reads (by omega) (by decide) hs (.stop ?_)
  rw [hn]
  decide

/-- The lexemes of a statement with a semicolon are read as that statement. -/
theorem Closed.reads {s : Code} (h : Closed s) {n : Nat} {ts ts₁ : List Token}
    (hd : s.renderedDepth < n) (hs : Spells ts s.rendered ts₁) :
    Reads [.rbrace] n (.statement s) ts ts₁ := by
  cases h with
  | letStatement _ he =>
    exact reads_letStatement hs fun hs hc => he.whole hd hs (congrArg Kind.precedence hc)
  | bareReturn => exact reads_bareReturn hs
  | returnStatement he =>
    exact reads_returnStatement hs fun hs hc => he.whole hd hs (congrArg Kind.precedence hc)

/-- The lexemes of a rendered program are read as its statements up to the end of the text. -/
theorem Braceless.reads {ss : List Code} (h : Braceless ss) {n : Nat} {ts : List Token} {t : Token}
    (hd : (Tree.program ss).renderedDepth < n) (hs : Spells ts (Tree.program ss).rendered [t])
    (ht : t.kind = .eof) : Reads [.rbrace] n (.statements ss) ts [t] := by
  simp only [Tree.rendered, Tree.renderedDepth] at hd hs
  induction h generalizing ts with
  | nil =>
    rw [hs.eq_of_nil]
    exact .noStatements
  | @last e he =>
    simp only [Tree.renderedEach, List.flatten_cons, List.flatten_nil, List.append_nil] at hs
    have hd : max e.renderedDepth 0 < n := hd
    have hr := Reads.expressionStatement
      (he.whole (n := n) (by omega) hs (congrArg Kind.precedence ht))
    -- The last expression statement has no semicolon: the end of the text follows.
    have hn : nextKind [t] ≠ .semicolon := by
      rw [nextKind_cons, ht]
      decide
    rw [skipSemicolon_of_ne hn] at hr
    exact .statements hr .noStatements
  | @cons s ss h _ ih =>
    have hd : max s.renderedDepth (Tree.renderedDepthEach ss) < n := hd
    rw [Tree.renderedEach, List.flatten_cons] at hs
    obtain ⟨tm, h₁, h₂⟩ := Spells.exists_append hs
    exact .statements (h.reads (by omega) h₁) (ih (by omega) h₂)

/-! ## From the text to the tree -/

/-- The tokens of a rendered program are a reading of it. -/
theorem Braceless.parseTokens?_tokenize_render {ss : List Code} (h : Braceless ss) {budget : Nat}
    (hb : (Tree.program ss).renderedDepth < budget) :
    parseTokens? budget (tokenize (Tree.program ss).render) = some ⟨.program ss, []⟩ := by
  obtain ⟨us, vs, hu, hs, he⟩ := List.map_eq_append_iff.1 (h.cut.map_lexeme_tokens ⟨1, 1⟩)
  obtain ⟨t, rfl, ht⟩ := List.map_eq_singleton_iff.1 he
  have hk : t.kind = .eof := congrArg Lexeme.kind ht
  have hr := h.reads hb ⟨us, hu, hs⟩ hk
  exact parseTokens?_of_reads hr (.of_consumes_eof hr.consumes hk) hk

/-- A program without blocks whose only expression statement is its last is read back from its
rendered text, with every budget above the depth of that text; with less there is no other result.
So it is the only one of them with this text. -/
theorem parse_render {ss : List Code} (h : Braceless ss) :
    let p : Code := .program ss
    (∀ budget, p.renderedDepth < budget →
      parseTokens? budget (tokenize p.render) = some ⟨p, []⟩) ∧
    (∀ budget parsed, parseTokens? budget (tokenize p.render) = some parsed →
      parsed = ⟨p, []⟩) ∧
    (p.renderedDepth < nestingLimit → parse? p.render = some ⟨p, []⟩) ∧
    ∀ ss', Braceless ss' → Tree.render (.program ss') = p.render → ss' = ss := by
  intro p
  have only (budget : Nat) (parsed : Parsed)
      (hr : parseTokens? budget (tokenize p.render) = some parsed) : parsed = ⟨p, []⟩ := by
    have hm := parseTokens?_mono (Nat.le_add_right budget (p.renderedDepth + 1)) hr
    have hb : p.renderedDepth < budget + (p.renderedDepth + 1) := by omega
    rw [h.parseTokens?_tokenize_render hb] at hm
    exact (Option.some.inj hm).symm
  -- Equal texts have equal results, and these are the two programs.
  refine ⟨fun budget => h.parseTokens?_tokenize_render, only, h.parseTokens?_tokenize_render,
    fun ss' h' he => ?_⟩
  have hr := h'.parseTokens?_tokenize_render (Nat.lt_succ_self _)
  rw [he] at hr
  injection only _ _ hr with ht
  injection ht

/-- A program with all kinds of expressions without blocks. -/
def renderedProgram : List Code := [
  .letStatement "f" (.infixed (.infixed (.identifier "x") "-" (.prefixed "-" (.integer 2))) "-"
    (.infixed (.prefixed "!" (.boolean true)) "!=" (.string "= a"))),
  .returnStatement .missing,
  .returnStatement (.call (.call (.prefixed "!" (.identifier "a")) [.integer 9223372036854775807,
    .call (.identifier "b") []]) [.infixed (.string "") "==" (.identifier "a")]),
  .expressionStatement (.prefixed "!" (.prefixed "!" (.identifier "x")))]

/-- The program has no blocks, and its expression statement is the last. -/
theorem renderedProgram_braceless : Braceless renderedProgram := by
  have hf : IsName "f" := ⟨by decide, List.all_eq_true.1 rfl, rfl⟩
  have hx : IsName "x" := ⟨by decide, List.all_eq_true.1 rfl, rfl⟩
  have ha : IsName "a" := ⟨by decide, List.all_eq_true.1 rfl, rfl⟩
  have hb : IsName "b" := ⟨by decide, List.all_eq_true.1 rfl, rfl⟩
  refine .cons (.letStatement hf ?_) (.cons .bareReturn (.cons (.returnStatement ?_)
    (.last (.prefixed rfl (.prefixed rfl (.identifier hx))))))
  · exact .infixed rfl
      (.infixed rfl (.identifier hx) (.prefixed rfl (.integer (by decide) (by decide))))
      (.infixed rfl (.prefixed rfl (.boolean true)) (.string (by decide)))
  · refine .call (.call (.prefixed rfl (.identifier ha)) ?_) (List.forall_mem_singleton.2
      (.infixed rfl (.string (by decide)) (.identifier ha)))
    exact List.forall_mem_cons.2 ⟨.integer (by decide) (by decide),
      List.forall_mem_singleton.2 (.call (.identifier hb) nofun)⟩

/-- The blanks in its text are not between all lexemes, and it is read back. -/
theorem renderedProgram_parse :
    Braceless renderedProgram ∧ Tree.render (.program renderedProgram) =
      "let f = ((x - (-2)) - ((!true) != \"= a\"));return;" ++
        "return (!a)(9223372036854775807, b())((\"\" == a));(!(!x))" ∧
    parse? (Tree.render (.program renderedProgram)) = some ⟨.program renderedProgram, []⟩ :=
  ⟨renderedProgram_braceless, by decide +kernel,
    (parse_render renderedProgram_braceless).2.2.1 (by decide)⟩

end MonkeyLang
