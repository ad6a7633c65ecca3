import MonkeyLang.Proofs.Syntax.Reading

/-!
# Braces and returns in a reading

Two facts about the tokens of a phrase. A phrase opens at least as many braces as it closes, and
where it opens no more than that, none of its blocks is left open (`Reads.balanced`). And what no
token of a phrase breaks holds before the phrase if it holds behind it (`Reads.carry`): a `return` in
it is never followed by a `let` or another `return` (`Reads.returnsApart`).
-/

namespace MonkeyLang

/-! ## Braces -/

/-- What a token adds to the number of braces that are open. -/
def Kind.braceWeight : Kind → Int
  | .lbrace => 1
  | .rbrace => -1
  | _ => 0

/-- How many more braces are opened than closed. -/
def braceSurplus : List Token → Int
  | [] => 0
  | t :: ts => t.kind.braceWeight + braceSurplus ts

@[simp]
theorem braceSurplus_nil : braceSurplus [] = 0 := rfl

theorem braceSurplus_cons {t : Token} {k : Kind} (h : t.kind = k) (ts : List Token) :
    braceSurplus (t :: ts) = k.braceWeight + braceSurplus ts := by
  rw [braceSurplus, h]

theorem braceSurplus_eq_count (ts : List Token) :
    braceSurplus ts =
      (ts.countP (·.kind = .lbrace) : Int) - (ts.countP (·.kind = .rbrace) : Int) := by
  induction ts with
  | nil => rfl
  | cons t ts ih =>
    rw [braceSurplus, ih, List.countP_cons, List.countP_cons]
    cases t.kind <;> simp [Kind.braceWeight] <;> omega

/-- A token that is no brace changes nothing. -/
theorem braceSurplus_other {t : Token} {k : Kind} (h : t.kind = k) (ts : List Token)
    (hk : k.braceWeight = 0 := by rfl) : braceSurplus (t :: ts) = braceSurplus ts := by
  rw [braceSurplus_cons h, hk, Int.zero_add]

theorem braceSurplus_skipSemicolon (ts : List Token) :
    braceSurplus (skipSemicolon ts) = braceSurplus ts := by
  cases ts with
  | nil => rfl
  | cons t ts =>
    rw [skipSemicolon]
    split
    · next h => rw [braceSurplus_other h]
    · rfl

theorem Kind.braceWeight_of_lt {p : Precedence} {k : Kind} (h : p < k.precedence) :
    k.braceWeight = 0 := by
  cases k <;> first | rfl | exact absurd h p.not_lt_lowest

/-- The tokens between two places open at least as many braces as they close, and where they open
just as many, the reading between these places closes all its blocks. -/
def Balanced (n : Nat) (g : Phrase) (ts ts' : List Token) : Prop :=
  braceSurplus ts' ≤ braceSurplus ts ∧
    (braceSurplus ts' = braceSurplus ts → Reads [.rbrace] n g ts ts')

namespace Reads

variable {n : Nat} {g : Phrase} {ts ts' : List Token}

/-- The block phrase is the one that counts: its opening brace is matched by a closing one, or the
end of the text is in its place and one more brace is open. -/
theorem balanced_block {ss : List Code} {o : Token} (ho : o.kind = .lbrace)
    (hc : nextKind ts' ∈ [Kind.rbrace, .eof]) (ih : Balanced n (.statements ss) ts ts') :
    Balanced n (.block (.block ss)) (o :: ts) ts'.tail := by
  have h₀ : braceSurplus (o :: ts) = 1 + braceSurplus ts := braceSurplus_cons ho ts
  obtain ⟨hle, hr⟩ := ih
  rcases List.mem_cons.1 hc with hc | hc
  · have h₁ : braceSurplus ts' = -1 + braceSurplus ts'.tail := by
      cases ts' with
      | nil => cases hc
      | cons u us => exact braceSurplus_cons hc us
    exact ⟨by omega, fun h => .block ho (hr (by omega)) (List.mem_singleton.2 hc)⟩
  · have h₁ : braceSurplus ts' = braceSurplus ts'.tail := by
      cases ts' with
      | nil => rfl
      | cons u us => exact braceSurplus_other (List.mem_singleton.1 hc) us
    exact ⟨by omega, fun h => absurd h (by omega)⟩

/-- A reading that may leave blocks open is balanced. Every other rule only adds up what its parts
say: the surplus never grows along them, so where it ends as it began it stayed the same. -/
theorem balanced (h : Reads [.rbrace, .eof] n g ts ts') : Balanced n g ts ts' := by
  induction h with
  | expression _ _ ih₁ ih₂ =>
    obtain ⟨h₁, r₁⟩ := ih₁
    obtain ⟨h₂, r₂⟩ := ih₂
    exact ⟨by omega, fun h => .expression (r₁ (by omega)) (r₂ (by omega))⟩
  -- a single token that is no brace
  | @identifier _ _ us hk =>
    have h₀ := braceSurplus_other hk us
    exact ⟨by omega, fun _ => .identifier hk⟩
  | @integer _ _ _ us hk hv =>
    have h₀ := braceSurplus_other hk us
    exact ⟨by omega, fun _ => .integer hk hv⟩
  | @string _ _ us hk =>
    have h₀ := braceSurplus_other hk us
    exact ⟨by omega, fun _ => .string hk⟩
  | @truth _ _ us hk =>
    have h₀ := braceSurplus_other hk us
    exact ⟨by omega, fun _ => .truth hk⟩
  | @falsity _ _ us hk =>
    have h₀ := braceSurplus_other hk us
    exact ⟨by omega, fun _ => .falsity hk⟩
  | @prefixed _ _ _ us _ hk _ ih =>
    obtain ⟨h₁, r₁⟩ := ih
    have h₀ : braceSurplus (_ :: us) = braceSurplus us :=
      hk.elim (braceSurplus_other · us) (braceSurplus_other · us)
    exact ⟨by omega, fun h => .prefixed hk (r₁ (by omega))⟩
  -- tokens around a part, none of them a brace
  | @group _ _ _ _ us vs ht _ hu ih =>
    obtain ⟨h₁, r₁⟩ := ih
    rw [braceSurplus_other hu vs] at h₁ r₁
    rw [Balanced, braceSurplus_other ht us]
    exact ⟨h₁, fun h => .group ht (r₁ h) hu⟩
  | @conditional _ _ _ _ _ _ us vs _ ht ho _ hu _ he ih₁ ih₂ =>
    obtain ⟨h₁, r₁⟩ := ih₁
    obtain ⟨h₂, r₂⟩ := ih₂
    rw [braceSurplus_other hu vs] at h₁ r₁
    rw [Balanced, braceSurplus_other ht, braceSurplus_other ho us]
    exact ⟨by omega, fun h => .conditional ht ho (r₁ (by omega)) hu (r₂ (by omega)) he⟩
  | @alternative _ _ _ _ _ _ _ _ us vs ws _ ht ho _ hu _ hl _ ih₁ ih₂ ih₃ =>
    obtain ⟨h₁, r₁⟩ := ih₁
    obtain ⟨h₂, r₂⟩ := ih₂
    obtain ⟨h₃, r₃⟩ := ih₃
    rw [braceSurplus_other hu vs] at h₁ r₁
    rw [braceSurplus_other hl ws] at h₂ r₂
    rw [Balanced, braceSurplus_other ht, braceSurplus_other ho us]
    exact ⟨by omega, fun h =>
      .alternative ht ho (r₁ (by omega)) hu (r₂ (by omega)) hl (r₃ (by omega))⟩
  | @function _ _ _ _ us _ _ ht _ _ ih₁ ih₂ =>
    obtain ⟨h₁, r₁⟩ := ih₁
    obtain ⟨h₂, r₂⟩ := ih₂
    rw [Balanced, braceSurplus_other ht us]
    exact ⟨by omega, fun h => .function ht (r₁ (by omega)) (r₂ (by omega))⟩
  | @noParameters _ _ _ us ho hu =>
    rw [Balanced, braceSurplus_other ho, braceSurplus_other hu us]
    exact ⟨by omega, fun _ => .noParameters ho hu⟩
  | @parameters _ _ _ _ us _ ho hx _ ih =>
    obtain ⟨h₁, r₁⟩ := ih
    rw [Balanced, braceSurplus_other ho, braceSurplus_other hx us]
    exact ⟨h₁, fun h => .parameters ho hx (r₁ h)⟩
  | @lastParameter _ _ us hu =>
    have h₀ := braceSurplus_other hu us
    exact ⟨by omega, fun _ => .lastParameter hu⟩
  | @nextParameter _ _ _ _ us _ hc hx _ ih =>
    obtain ⟨h₁, r₁⟩ := ih
    rw [Balanced, braceSurplus_other hc, braceSurplus_other hx us]
    exact ⟨h₁, fun h => .nextParameter hc hx (r₁ h)⟩
  | @noArguments _ _ _ us ho hu =>
    rw [Balanced, braceSurplus_other ho, braceSurplus_other hu us]
    exact ⟨by omega, fun _ => .noArguments ho hu⟩
  | @arguments _ _ _ _ us _ _ ho _ _ ih₁ ih₂ =>
    obtain ⟨h₁, r₁⟩ := ih₁
    obtain ⟨h₂, r₂⟩ := ih₂
    rw [Balanced, braceSurplus_other ho us]
    exact ⟨by omega, fun h => .arguments ho (r₁ (by omega)) (r₂ (by omega))⟩
  | @lastArgument _ _ us hu =>
    have h₀ := braceSurplus_other hu us
    exact ⟨by omega, fun _ => .lastArgument hu⟩
  | @nextArgument _ _ _ _ us _ _ hc _ _ ih₁ ih₂ =>
    obtain ⟨h₁, r₁⟩ := ih₁
    obtain ⟨h₂, r₂⟩ := ih₂
    rw [Balanced, braceSurplus_other hc us]
    exact ⟨by omega, fun h => .nextArgument hc (r₁ (by omega)) (r₂ (by omega))⟩
  | stop hp => exact ⟨Int.le_refl _, fun _ => .stop hp⟩
  | call ht hp _ _ ih₁ ih₂ =>
    obtain ⟨h₁, r₁⟩ := ih₁
    obtain ⟨h₂, r₂⟩ := ih₂
    exact ⟨by omega, fun h => .call ht hp (r₁ (by omega)) (r₂ (by omega))⟩
  | @infixed _ _ _ _ _ _ us _ _ ht hp _ _ ih₁ ih₂ =>
    obtain ⟨h₁, r₁⟩ := ih₁
    obtain ⟨h₂, r₂⟩ := ih₂
    rw [Balanced, braceSurplus_other rfl us (Kind.braceWeight_of_lt hp)]
    exact ⟨by omega, fun h => .infixed ht hp (r₁ (by omega)) (r₂ (by omega))⟩
  -- only a block has braces of its own
  | block ho _ hc ih => exact balanced_block ho hc ih
  | @letStatement _ _ _ _ _ us vs ht hx ha _ ih =>
    obtain ⟨h₁, r₁⟩ := ih
    rw [Balanced, braceSurplus_skipSemicolon vs, braceSurplus_other ht, braceSurplus_other hx,
      braceSurplus_other ha us]
    exact ⟨h₁, fun h => .letStatement ht hx ha (r₁ h)⟩
  | @bareReturn _ _ us ht hn =>
    rw [Balanced, braceSurplus_skipSemicolon us, braceSurplus_other ht us]
    exact ⟨Int.le_refl _, fun _ => .bareReturn ht hn⟩
  | @returnStatement _ _ _ us vs ht _ ih =>
    obtain ⟨h₁, r₁⟩ := ih
    rw [Balanced, braceSurplus_skipSemicolon vs, braceSurplus_other ht us]
    exact ⟨h₁, fun h => .returnStatement ht (r₁ h)⟩
  | @expressionStatement _ _ us vs _ ih =>
    obtain ⟨h₁, r₁⟩ := ih
    rw [Balanced, braceSurplus_skipSemicolon vs]
    exact ⟨h₁, fun h => .expressionStatement (r₁ h)⟩
  | noStatements => exact ⟨Int.le_refl _, fun _ => .noStatements⟩
  | statements _ _ ih₁ ih₂ =>
    obtain ⟨h₁, r₁⟩ := ih₁
    obtain ⟨h₂, r₂⟩ := ih₂
    exact ⟨by omega, fun h => .statements (r₁ (by omega)) (r₂ (by omega))⟩

end Reads

/-! ## What holds of the tokens of a phrase -/

/-- What holds behind a phrase holds before it, if no token breaks it: neither a `return` that what
can follow it follows, nor any other token that a phrase has. -/
theorem Reads.carry {P : List Token → Prop} {closing : List Kind} {n : Nat} {g : Phrase}
    {ts ts' : List Token} (hclosing : ∀ k ∈ closing, k ∉ [.kwReturn, .illegal])
    (hcons : ∀ {t : Token} {us : List Token}, t.kind ∉ [.kwReturn, .illegal] → P us → P (t :: us))
    (hreturn : ∀ {t : Token} {us : List Token}, t.kind = .kwReturn →
      (nextKind us).startsOperand = true ∨ nextKind us ∈ [.semicolon, .rbrace, .eof] → P us →
      P (t :: us))
    (h : Reads closing n g ts ts') (h' : P ts') : P ts := by
  have one {t : Token} {k : Kind} {us : List Token} (ht : t.kind = k) (hu : P us)
      (hk : k ∉ [.kwReturn, .illegal] := by decide) : P (t :: us) := hcons (ht ▸ hk) hu
  have semicolon {us : List Token} (hu : P (skipSemicolon us)) : P us := by
    cases us with
    | nil => exact hu
    | cons t us =>
      rw [skipSemicolon] at hu
      split at hu
      · next hs => exact one hs hu
      · exact hu
  induction h with
  | expression _ _ ih₁ ih₂ | statements _ _ ih₁ ih₂ | call _ _ _ _ ih₁ ih₂ => exact ih₁ (ih₂ h')
  | identifier hk | string hk | truth hk | falsity hk | integer hk _ | lastParameter hk
  | lastArgument hk => exact one hk h'
  | prefixed hk _ ih => exact hk.elim (one · (ih h')) (one · (ih h'))
  | group ht _ hu ih => exact one ht (ih (one hu h'))
  | conditional ht ho _ hu _ _ ih₁ ih₂ => exact one ht (one ho (ih₁ (one hu (ih₂ h'))))
  | alternative ht ho _ hu _ hl _ ih₁ ih₂ ih₃ =>
    exact one ht (one ho (ih₁ (one hu (ih₂ (one hl (ih₃ h'))))))
  | function ht _ _ ih₁ ih₂ => exact one ht (ih₁ (ih₂ h'))
  | noParameters ho hu | noArguments ho hu => exact one ho (one hu h')
  | parameters ho hx _ ih | nextParameter ho hx _ ih => exact one ho (one hx (ih h'))
  | arguments ho _ _ ih₁ ih₂ | nextArgument ho _ _ ih₁ ih₂ => exact one ho (ih₁ (ih₂ h'))
  | stop _ | noStatements => exact h'
  | infixed _ hp _ _ ih₁ ih₂ => exact hcons (Kind.not_mem_of_lt_precedence hp) (ih₁ (ih₂ h'))
  | @block _ _ _ _ us ho _ hk ih =>
    -- the token that closes the block is there, unless the tokens end
    refine one ho (ih ?_)
    cases us with
    | nil => exact h'
    | cons t us => exact hcons (hclosing _ hk) h'
  | letStatement ht hx ha _ ih => exact one ht (one hx (one ha (ih (semicolon h'))))
  | bareReturn ht hn => exact hreturn ht (.inr hn) (semicolon h')
  | returnStatement ht he ih => exact hreturn ht (.inl he.startsWith) (ih (semicolon h'))
  | expressionStatement _ ih => exact ih (semicolon h')

/-! ## Returns -/

/-- No `return` is followed by a `let` or by another `return`. -/
def ReturnsApart : List Token → Prop
  | [] => True
  | t :: ts =>
    (t.kind = .kwReturn → nextKind ts ≠ .kwLet ∧ nextKind ts ≠ .kwReturn) ∧ ReturnsApart ts

instance decidableReturnsApart : (ts : List Token) → Decidable (ReturnsApart ts)
  | [] => inferInstanceAs (Decidable True)
  | _ :: ts =>
    have := decidableReturnsApart ts
    inferInstanceAs (Decidable (_ ∧ _))

/-- The returns of a phrase stand apart if those after it do. -/
theorem Reads.returnsApart {closing : List Kind} {n : Nat} {g : Phrase} {ts ts' : List Token}
    (hclosing : ∀ k ∈ closing, k ∉ [.kwReturn, .illegal]) (h : Reads closing n g ts ts')
    (h' : ReturnsApart ts') : ReturnsApart ts := by
  refine h.carry hclosing (fun {t us} hk hu => ⟨fun hr => ?_, hu⟩) (fun {t us} _ hn hu => ?_) h'
  · rw [hr] at hk
    exact absurd hk (by decide)
  · -- what starts an expression or ends a statement is no `let` and no `return`
    refine ⟨fun _ => ?_, hu⟩
    constructor <;> intro he <;> rw [he] at hn <;> revert hn <;> decide

end MonkeyLang
