import Mathlib.Algebra.Ring.Int.Defs
import MonkeyLang.Proofs.Syntax.Balance
import MonkeyLang.Proofs.Token.Partition
import MonkeyLang.Repl

/-!
# When the loop runs its buffer

The loop counts braces line by line, and takes every line to start outside of a string. The tokens of
the whole buffer are read from one text, in which a string may go on over the end of a line. Main
statement: `Repl.hands_iff_isBalanced_iff` says that both agree on whether braces are open, whatever
line comes next, exactly in the states that are `IsSteady`. A buffer is steady if none of its lines
leaves a string open, and `Repl.hands_openString` has one that is not.
-/

namespace MonkeyLang

namespace Repl

/-! ## Braces by character and by token -/

/-- Whether a text ends inside of a string, if it starts inside of one or not. -/
def endsInString (inString : Bool) : List Char → Bool
  | [] => inString
  | c :: cs => endsInString (if c = '"' then !inString else inString) cs

theorem endsInString_append (b : Bool) (cs ds : List Char) :
    endsInString b (cs ++ ds) = endsInString (endsInString b cs) ds := by
  induction cs generalizing b with
  | nil => rfl
  | cons c cs ih => exact ih _

theorem braceDelta_append (b : Bool) (cs ds : List Char) :
    braceDelta b (cs ++ ds) = braceDelta b cs + braceDelta (endsInString b cs) ds := by
  induction cs generalizing b with
  | nil => exact (Int.zero_add _).symm
  | cons c cs ih =>
    simp only [List.cons_append, braceDelta, endsInString, ih]
    by_cases hq : c = '"'
    · simp only [if_pos hq]
    · -- a brace counts outside of strings, and nothing else does
      simp only [if_neg hq]
      cases b with
      | true => rfl
      | false =>
        simp only [Bool.false_eq_true, if_false]
        split
        · omega
        · split <;> omega

/-- Outside of strings, characters that are no quotes and no braces do not count. -/
theorem braceDelta_plain {cs : List Char} (h : ∀ c ∈ cs, c ≠ '"' ∧ c ≠ '{' ∧ c ≠ '}')
    (rest : List Char) : braceDelta false (cs ++ rest) = braceDelta false rest := by
  induction cs with
  | nil => rfl
  | cons c cs ih =>
    obtain ⟨⟨hq, ho, hc⟩, hcs⟩ := List.forall_mem_cons.1 h
    simp only [List.cons_append, braceDelta, if_neg hq, if_neg ho, if_neg hc, Bool.false_eq_true,
      if_false, ih hcs]

/-- Inside of a string nothing counts. -/
theorem braceDelta_quoted {cs : List Char} (h : '"' ∉ cs) (rest : List Char) :
    braceDelta true (cs ++ rest) = braceDelta true rest := by
  induction cs with
  | nil => rfl
  | cons c cs ih =>
    rw [List.mem_cons, not_or] at h
    simp only [List.cons_append, braceDelta, if_neg (Ne.symm h.1), if_true, ih h.2]

end Repl

open Repl

/-- What the characters of a token add to the braces that are open is what the token adds. -/
theorem Forms.braceDelta_append {rest span : List Char} {x : Lexeme} (h : Forms rest span x) :
    braceDelta false (span ++ rest) = x.kind.braceWeight + braceDelta false rest := by
  cases h with
  | word _ hl _ =>
    have hk : (Kind.ofWord (String.ofList span)).braceWeight = 0 :=
      Kind.forall_ofWord (P := fun k => k.braceWeight = 0) (by decide) _
    rw [hk, Int.zero_add]
    refine braceDelta_plain (fun c hc => ?_) rest
    refine ⟨?_, ?_, ?_⟩ <;> rintro rfl <;> exact absurd (hl _ hc) (by decide)
  | int _ hd _ =>
    refine (braceDelta_plain (fun c hc => ?_) rest).trans (Int.zero_add _).symm
    refine ⟨?_, ?_, ?_⟩ <;> rintro rfl <;> exact absurd (hd _ hc) (by decide)
  | @string cs hq =>
    show braceDelta true ((cs ++ ['"']) ++ rest) = 0 + _
    rw [List.append_assoc, braceDelta_quoted hq, Int.zero_add]
    rfl
  | @openString cs hq he =>
    -- the string runs to the end of the text
    subst he
    exact braceDelta_quoted hq []
  | assign _ | bang _ => exact (Int.zero_add _).symm
  | eq | notEq => exact (Int.zero_add _).symm
  | @symbol c k hk =>
    unfold Kind.ofSymbol? at hk
    split at hk <;> cases hk
    -- of all symbols the two braces count
    case h_11 => exact Int.add_comm _ _
    case h_12 => exact Int.add_comm _ _
    all_goals exact (Int.zero_add _).symm
  | @illegal c hc hk =>
    have hplain : ∀ d ∈ [c], d ≠ '"' ∧ d ≠ '{' ∧ d ≠ '}' := by
      refine List.forall_mem_singleton.2 ⟨hc.2.2.1, ?_, ?_⟩ <;> rintro rfl <;> cases hk
    exact (braceDelta_plain hplain rest).trans (Int.zero_add _).symm

/-- The braces of the tokens of a text are its braces outside of strings. -/
theorem Partition.braceDelta_eq {done cs last : List Char} {pieces : List Piece}
    (h : Partition done cs pieces last) :
    braceDelta false cs = braceSurplus (pieces.map Piece.token) := by
  have blank : ∀ bs : List Char, (∀ c ∈ bs, isSpace c = true) →
      ∀ rest, braceDelta false (bs ++ rest) = braceDelta false rest := by
    refine fun bs hbs => braceDelta_plain fun c hc => ?_
    refine ⟨?_, ?_, ?_⟩ <;> rintro rfl <;> exact absurd (hbs _ hc) (by decide)
  induction pieces generalizing done cs with
  | nil =>
    obtain rfl : cs = last := h.text_eq
    rw [← List.append_nil cs, blank cs h.blank]
    rfl
  | cons q pieces ih =>
    obtain ⟨rest, rfl, hq, hp⟩ := h.of_cons
    rw [Piece.text, List.append_assoc, blank _ hq.blank, hq.forms.braceDelta_append, ih hp]
    rfl

theorem braceSurplus_append (ts us : List Token) :
    braceSurplus (ts ++ us) = braceSurplus ts + braceSurplus us := by
  induction ts with
  | nil => exact (Int.zero_add _).symm
  | cons t ts ih => rw [List.cons_append, braceSurplus, braceSurplus, ih, Int.add_assoc]

/-- The surplus of the tokens is what is counted character by character, from outside of a text on.
-/
theorem braceSurplus_tokenize (text : String) :
    braceSurplus (tokenize text) = braceDelta false text.toList := by
  obtain ⟨pieces, last, hp⟩ := Source.exists_partition (Source.ofString text) []
  have ht : tokenize text = _ := hp.tokens_eq
  have hd : braceDelta false text.toList = _ := hp.braceDelta_eq
  rw [ht, braceSurplus_append, hd]
  exact Int.add_zero _

namespace Repl

/-- The braces that are counted in a text by its characters are those of its tokens: the opening ones
less the closing ones. The text may have any characters, and may end inside of a string. -/
theorem lineDelta_eq_countP (text : String) :
    lineDelta text.toList =
      ((tokenize text).countP (·.kind = .lbrace) : Int) -
        ((tokenize text).countP (·.kind = .rbrace) : Int) := by
  show braceDelta false text.toList = _
  rw [← braceSurplus_tokenize, braceSurplus_eq_count]

/-! ## States of the loop -/

/-- A line that joins the buffer: any line, if others wait there, and otherwise one that is neither
blank nor a word that ends the loop. -/
def State.Takes (s : State) (line : List Char) : Prop :=
  s.buffer = [] → Text.strip line ∉ quitWords ∧ Text.strip line ≠ []

/-- The line joins the buffer, and the buffer is run. -/
def State.Hands (s : State) (line : List Char) : Prop :=
  react s line = .ran (runChunk s.session (chunkText (s.buffer ++ [line])))

/-- A text that opens no more braces than it closes. -/
def IsBalanced (text : String) : Prop :=
  (tokenize text).countP (·.kind = .lbrace) ≤ (tokenize text).countP (·.kind = .rbrace)

instance (text : String) : Decidable (IsBalanced text) :=
  inferInstanceAs (Decidable (_ ≤ _))

/-- The loop, begun in the state on the left, has gone through the lines and goes on in the state on
the right. -/
inductive Passes (s : State) : List (List Char) → State → Prop where
  | start : Passes s [] s
  | wait {ls : List (List Char)} {line : List Char} {s₁ s₂ : State} :
      Passes s ls s₁ → react s₁ line = .wait s₂ → Passes s (ls ++ [line]) s₂
  | ran {ls : List (List Char)} {line : List Char} {s₁ : State} {w : Written} :
      Passes s ls s₁ → react s₁ line = .ran w → w.crash = none →
      Passes s (ls ++ [line]) { session := w.session }

/-- The depth of a state is what its lines count for, and lines only wait for more where a brace is
open. -/
structure State.Counts (s : State) : Prop where
  depth_eq : s.depth = (s.buffer.map lineDelta).sum
  depth_pos : s.buffer ≠ [] → 0 < s.depth

/-- The tokens of the lines that wait have the braces that are counted, and leave no string open. -/
def State.IsSteady (s : State) : Prop :=
  endsInString false (chunkText s.buffer).toList = false ∧
    s.depth = braceSurplus (tokenize (chunkText s.buffer))

variable {s s' : State} {line : List Char} {ls : List (List Char)}

theorem react_of_takes (h : s.Takes line) :
    react s line = if 0 < s.depth + lineDelta line then
        .wait { s with buffer := s.buffer ++ [line], depth := s.depth + lineDelta line }
      else .ran (runChunk s.session (chunkText (s.buffer ++ [line]))) := by
  have hquit : ¬ (s.buffer.isEmpty ∧ Text.strip line ∈ quitWords) :=
    fun hq => (h (List.isEmpty_iff.1 hq.1)).1 hq.2
  have hblank : ¬ (s.buffer.isEmpty ∧ Text.strip line = []) :=
    fun hb => (h (List.isEmpty_iff.1 hb.1)).2 hb.2
  rw [react, if_neg hquit, if_neg hblank]

/-- All that the loop may do with a line: it ends, it skips the line, or the line joins the buffer,
which waits or is run. -/
theorem react_cases (s : State) (line : List Char) :
    (s.buffer = [] ∧ Text.strip line ∈ quitWords ∧ react s line = .quit) ∨
      (s.buffer = [] ∧ Text.strip line = [] ∧ react s line = .wait s) ∨
      (s.Takes line ∧ 0 < s.depth + lineDelta line ∧ react s line =
        .wait { s with buffer := s.buffer ++ [line], depth := s.depth + lineDelta line }) ∨
      (s.Takes line ∧ s.depth + lineDelta line ≤ 0 ∧ react s line =
        .ran (runChunk s.session (chunkText (s.buffer ++ [line])))) := by
  by_cases ht : s.Takes line
  · rw [react_of_takes ht]
    by_cases hd : 0 < s.depth + lineDelta line
    · exact .inr (.inr (.inl ⟨ht, hd, if_pos hd⟩))
    · exact .inr (.inr (.inr ⟨ht, by omega, if_neg hd⟩))
  -- no line waits, and the line is blank or one of the words
  · simp only [State.Takes, Classical.not_imp, not_and_or, not_not] at ht
    obtain ⟨he, hline⟩ := ht
    by_cases hq : Text.strip line ∈ quitWords
    · exact .inl ⟨he, hq, if_pos ⟨List.isEmpty_iff.2 he, hq⟩⟩
    · have hb : Text.strip line = [] := hline.resolve_left hq
      refine .inr (.inl ⟨he, hb, ?_⟩)
      rw [react, if_neg fun h => hq h.2, if_pos ⟨List.isEmpty_iff.2 he, hb⟩]

/-- A chunk is handed on as soon as no brace is left open in the count. -/
theorem hands_iff (h : s.Takes line) : s.Hands line ↔ s.depth + lineDelta line ≤ 0 := by
  rw [State.Hands, react_of_takes h]
  split
  · next hd => exact ⟨nofun, fun hn => absurd hd (by omega)⟩
  · next hd => exact ⟨fun _ => by omega, fun _ => rfl⟩

theorem sum_lineDelta_concat (ls : List (List Char)) (line : List Char) :
    ((ls ++ [line]).map lineDelta).sum = (ls.map lineDelta).sum + lineDelta line := by
  rw [List.map_append, List.sum_append, List.map_singleton, List.sum_singleton]

/-- What the loop counts stays what its lines count for. -/
theorem Passes.counts {session : Session} (h : Passes { session } ls s) : s.Counts := by
  induction h with
  | start => exact ⟨rfl, fun h => absurd rfl h⟩
  | @wait ls line s₁ s₂ _ hw ih =>
    obtain ⟨-, -, hr⟩ | ⟨-, -, hr⟩ | ⟨-, hd, hr⟩ | ⟨-, -, hr⟩ := react_cases s₁ line <;>
      rw [hr] at hw <;> cases hw
    · exact ih
    · refine ⟨?_, fun _ => hd⟩
      show s₁.depth + lineDelta line = _
      rw [ih.depth_eq, sum_lineDelta_concat]
  | ran _ _ _ _ => exact ⟨rfl, fun h => absurd rfl h⟩

theorem Transcript.after_after (out trace out' trace' : String) (t : Transcript) :
    (t.after out trace).after out' trace' = t.after (out' ++ out) (trace' ++ trace) := by
  simp only [Transcript.after, String.append_assoc]

/-- The loop on more lines writes something, and goes on as it does from the state that it passes
to. -/
theorem Passes.converse_eq (h : Passes s ls s') :
    ∃ out trace, ∀ more, converse s (ls ++ more) = (converse s' more).after out trace := by
  induction h with
  | start => exact ⟨"", "", fun more => by simp [Transcript.after]⟩
  | @wait ls line s₁ s₂ _ hw ih =>
    obtain ⟨out, trace, ih⟩ := ih
    refine ⟨out ++ s₁.prompt, trace ++ "", fun more => ?_⟩
    rw [List.append_assoc, ih, ← Transcript.after_after]
    simp only [List.singleton_append, converse, hw]
  | @ran ls line s₁ w _ hr hc ih =>
    obtain ⟨out, trace, ih⟩ := ih
    refine ⟨out ++ (s₁.prompt ++ w.out), trace ++ w.trace, fun more => ?_⟩
    rw [List.append_assoc, ih, ← Transcript.after_after]
    simp only [List.singleton_append, converse, hr, hc]

/-! ## Both counts -/

theorem lineDelta_eq (line : List Char) :
    lineDelta line = braceSurplus (tokenize (String.ofList line)) := by
  rw [braceSurplus_tokenize, String.toList_ofList]
  rfl

theorem isBalanced_iff (text : String) : IsBalanced text ↔ braceSurplus (tokenize text) ≤ 0 := by
  rw [IsBalanced, braceSurplus_eq_count]
  omega

/-- What one line more adds to the braces of the whole text depends on whether it starts inside of a
string. -/
theorem braceSurplus_chunkText (ls : List (List Char)) (line : List Char) :
    braceSurplus (tokenize (chunkText (ls ++ [line]))) =
      braceSurplus (tokenize (chunkText ls)) +
        braceDelta (endsInString false (chunkText ls).toList) line := by
  have hline (b : Bool) : braceDelta b (line ++ ['\n']) = braceDelta b line := by
    rw [braceDelta_append]
    cases endsInString b line <;> exact Int.add_zero _
  have htext : (chunkText (ls ++ [line])).toList = (chunkText ls).toList ++ (line ++ ['\n']) := by
    simp only [chunkText, String.toList_ofList, List.flatMap_append, List.flatMap_singleton]
  rw [braceSurplus_tokenize, braceSurplus_tokenize, htext, braceDelta_append, hline]

theorem endsInString_chunkText (ls : List (List Char)) (line : List Char) :
    endsInString false (chunkText (ls ++ [line])).toList =
      endsInString (endsInString false (chunkText ls).toList) line := by
  have htext : (chunkText (ls ++ [line])).toList =
      (chunkText ls).toList ++ line ++ ['\n'] := by
    simp only [chunkText, String.toList_ofList, List.flatMap_append, List.flatMap_singleton,
      List.append_assoc]
  rw [htext, endsInString_append, endsInString_append]
  rfl

/-- Lines that leave no string open count the same one by one and as one text. -/
theorem sum_lineDelta_eq {ls : List (List Char)} (h : ∀ l ∈ ls, endsInString false l = false) :
    endsInString false (chunkText ls).toList = false ∧
      (ls.map lineDelta).sum = braceSurplus (tokenize (chunkText ls)) := by
  induction ls using List.reverseRecOn with
  | nil => exact ⟨rfl, by rw [braceSurplus_tokenize]; rfl⟩
  | append_singleton ls line ih =>
    obtain ⟨hq, hs⟩ := ih fun l hl => h l (List.mem_append_left _ hl)
    rw [endsInString_chunkText, braceSurplus_chunkText, hq]
    refine ⟨h line (List.mem_append_right _ List.mem_cons_self), ?_⟩
    rw [sum_lineDelta_concat, hs]
    rfl

/-- A line without quotes that counts for any given number. -/
theorem exists_line (k : Int) : ∃ line : List Char, '\n' ∉ line ∧ lineDelta line = k ∧
    braceDelta true line = 0 := by
  -- a run of one brace counts for nothing inside a text, and for its length outside of it
  have run (c : Char) (n : Nat) (hc : c ≠ '"') (hn : c ≠ '\n') :
      '\n' ∉ List.replicate n c ∧ braceDelta true (List.replicate n c) = 0 := by
    refine ⟨fun h => hn (List.eq_of_mem_replicate h).symm, ?_⟩
    rw [← List.append_nil (List.replicate n c),
      braceDelta_quoted fun h => hc (List.eq_of_mem_replicate h).symm]
    rfl
  have opening (n : Nat) : lineDelta (List.replicate n '{') = n := by
    induction n with
    | zero => rfl
    | succ n ih =>
      show lineDelta (List.replicate n '{') + 1 = _
      rw [ih, Int.natCast_succ]
  have closing (n : Nat) : lineDelta (List.replicate n '}') = -n := by
    induction n with
    | zero => rfl
    | succ n ih =>
      show lineDelta (List.replicate n '}') - 1 = _
      rw [ih]
      omega
  obtain ⟨n, rfl | rfl⟩ := Int.eq_nat_or_neg k
  · obtain ⟨hn, hb⟩ := run '{' n (by decide) (by decide)
    exact ⟨_, hn, opening n, hb⟩
  · obtain ⟨hn, hb⟩ := run '}' n (by decide) (by decide)
    exact ⟨_, hn, closing n, hb⟩

/-- A buffer is run at the right time, whatever line comes next, just in the steady states. -/
theorem State.Counts.isSteady_iff (hc : s.Counts) :
    (∀ line, '\n' ∉ line → s.Takes line →
      (s.Hands line ↔ IsBalanced (chunkText (s.buffer ++ [line])))) ↔ s.IsSteady := by
  constructor
  · intro h
    by_cases he : s.buffer = []
    · refine ⟨by rw [he]; rfl, ?_⟩
      rw [hc.depth_eq, braceSurplus_tokenize, he]
      rfl
    · have htakes (l : List Char) : s.Takes l := fun hb => absurd hb he
      have hpos := hc.depth_pos he
      have hcount (k : Int) : ∃ l : List Char, (s.depth + k ≤ 0 ↔
          braceSurplus (tokenize (chunkText s.buffer)) +
            braceDelta (endsInString false (chunkText s.buffer).toList) l ≤ 0) ∧
          lineDelta l = k ∧ braceDelta true l = 0 := by
        obtain ⟨l, hn, hk, hq⟩ := exists_line k
        have hl := h l hn (htakes l)
        rw [hands_iff (htakes l), isBalanced_iff, braceSurplus_chunkText, hk] at hl
        exact ⟨l, hl, hk, hq⟩
      unfold State.IsSteady
      cases hq : endsInString false (chunkText s.buffer).toList with
      | true =>
        -- no line can close a brace for the tokens, but for the loop it can
        obtain ⟨l₀, h₀, -, hq₀⟩ := hcount 0
        obtain ⟨l₁, h₁, -, hq₁⟩ := hcount (-s.depth)
        rw [hq, hq₀] at h₀
        rw [hq, hq₁] at h₁
        omega
      | false =>
        obtain ⟨l₀, h₀, hk₀, -⟩ := hcount (-s.depth)
        obtain ⟨l₁, h₁, hk₁, -⟩ := hcount (-braceSurplus (tokenize (chunkText s.buffer)))
        rw [hq, show braceDelta false l₀ = _ from hk₀] at h₀
        rw [hq, show braceDelta false l₁ = _ from hk₁] at h₁
        exact ⟨rfl, by omega⟩
  · rintro ⟨hq, hd⟩ line - ht
    rw [hands_iff ht, isBalanced_iff, braceSurplus_chunkText, hq, hd]
    rfl

/-- The loop runs its buffer when its lines, each read by itself, have no brace open. That is when
the whole buffer has no brace open, for any line that may come next, exactly if the state is steady,
and it is if no line that waits leaves a string open. -/
theorem hands_iff_isBalanced_iff (session : Session) (h : Passes { session } ls s) :
    (∃ out trace, ∀ more, converse { session } (ls ++ more) =
      (converse s more).after out trace) ∧
    (∀ line, s.Takes line → (s.Hands line ↔
      ((s.buffer ++ [line]).map fun l => braceSurplus (tokenize (String.ofList l))).sum ≤ 0)) ∧
    ((∀ line, '\n' ∉ line → s.Takes line →
      (s.Hands line ↔ IsBalanced (chunkText (s.buffer ++ [line])))) ↔ s.IsSteady) ∧
    ((∀ l ∈ s.buffer, endsInString false l = false) → s.IsSteady) := by
  have hc := h.counts
  refine ⟨h.converse_eq, fun line ht => ?_, hc.isSteady_iff, fun hl => ?_⟩
  · simp only [← lineDelta_eq]
    rw [hands_iff ht, hc.depth_eq, List.map_append, List.sum_append, List.map_singleton,
      List.sum_singleton]
  · obtain ⟨hq, hs⟩ := sum_lineDelta_eq hl
    exact ⟨hq, hc.depth_eq.trans hs⟩

/-- A brace in a string of the line that waits, and one in the line that comes next: the loop and the
tokens count them alike. -/
theorem hands_iff_isBalanced_bracesInStrings :
    let first : List Char := "let f = fn(x) \x7b \"\x7d\" + x".toList
    let next : List Char := "\x7d; f(\"\x7b\")".toList
    let s : State := { session := .start {}, buffer := [first], depth := 1 }
    Passes { session := .start {} } [first] s ∧ s.IsSteady ∧ s.Takes next ∧
      (s.Hands next ↔ IsBalanced (chunkText [first, next])) ∧
      IsBalanced (chunkText [first, next]) := by
  intro first next s
  have hp : Passes { session := .start {} } [first] s := .wait .start rfl
  obtain ⟨-, -, hiff, hsteady⟩ := hands_iff_isBalanced_iff (.start {}) hp
  have hs : s.IsSteady := hsteady (List.forall_mem_singleton.2 rfl)
  have ht : s.Takes next := nofun
  exact ⟨hp, hs, ht, hiff.2 hs next (by decide) ht, by decide +kernel⟩

/-- A string goes on over two lines, and in the second one of them is a closing brace. The loop runs
both lines, although their tokens open a brace and close none. -/
theorem hands_openString :
    let first : List Char := "let s = fn() \x7b \"a".toList
    let s : State := { session := .start {}, buffer := [first], depth := 1 }
    Passes { session := .start {} } [first] s ∧ s.Takes ['}'] ∧ s.Hands ['}'] ∧
      ¬ IsBalanced (chunkText [first, ['}']]) := by
  intro first s
  exact ⟨.wait .start rfl, nofun, rfl, by decide +kernel⟩

end Repl

end MonkeyLang
