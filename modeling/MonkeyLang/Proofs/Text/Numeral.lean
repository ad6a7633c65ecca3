import MonkeyLang.Token.Basic
import MonkeyLang.Word

/-!
# Numbers that are written in digits

A run of digits reads as the number that it writes, if it has no more of them than are read:
`integer_ofList`. In particular a word reads back from its own text: `ofLiteral?_toString`.
-/

namespace MonkeyLang

namespace Text

variable {c : Char} {cs : List Char}

theorem toNat_of_isDigit (h : isDigit c = true) : 48 ≤ c.toNat ∧ c.toNat ≤ 57 := by
  simp only [isDigit, Bool.and_eq_true, decide_eq_true_eq, Char.le_def,
    UInt32.le_iff_toNat_le] at h
  exact h

theorem decimalDigit?_of_isDigit (h : isDigit c = true) :
    decimalDigit? c = some (c.toNat - 48) := by
  obtain ⟨h₁, h₂⟩ := toNat_of_isDigit h
  simp [decimalDigit?, h₁, h₂]

theorem isNumeralBlank_of_isDigit (h : isDigit c = true) : isNumeralBlank c = false := by
  obtain ⟨h₁, h₂⟩ := toNat_of_isDigit h
  simp only [isNumeralBlank, isBlank, Bool.and_eq_false_iff, Bool.or_eq_false_iff,
    decide_eq_false_iff_not, beq_eq_false_iff_ne]
  omega

/-- There are no blanks around digits. -/
theorem trim_of_isDigit (h : ∀ c ∈ cs, isDigit c = true) : trim isNumeralBlank cs = cs := by
  have drop : ∀ ds : List Char, (∀ d ∈ ds, isDigit d = true) → ds.dropWhile isNumeralBlank = ds := by
    intro ds hd
    cases ds with
    | nil => rfl
    | cons d ds =>
      rw [List.dropWhile_cons, isNumeralBlank_of_isDigit (hd d List.mem_cons_self)]
      rfl
  have hr : ∀ d ∈ cs.reverse, isDigit d = true := fun d hd => h d (List.mem_reverse.1 hd)
  rw [trim, drop cs h, dropTrailing, drop _ hr, List.reverse_reverse]

/-- A run of digits has no underscore to skip. -/
theorem digitRun_of_isDigit (h : ∀ c ∈ cs, isDigit c = true) :
    digitRun cs = some (cs.map fun c => c.toNat - 48, []) := by
  induction cs with
  | nil => rfl
  | cons c cs ih =>
    have hc := decimalDigit?_of_isDigit (h c List.mem_cons_self)
    have ih := ih fun d hd => h d (List.mem_cons_of_mem c hd)
    have hu : ∀ ds, cs ≠ '_' :: ds := by
      rintro ds rfl
      have hd := h '_' (List.mem_cons_of_mem c List.mem_cons_self)
      exact absurd hd (by decide)
    rw [digitRun.eq_def]
    simp only [hc]
    split
    · exact absurd rfl (hu _)
    · exact absurd rfl (hu _)
    · rw [ih]
      rfl

theorem ofDigits_map (cs : List Char) :
    ofDigits (cs.map fun c => c.toNat - 48) = Nat.ofDigitChars 10 cs 0 := by
  have step : ∀ n, (cs.map fun c => c.toNat - 48).foldl (fun n d => n * 10 + d) n =
      Nat.ofDigitChars 10 cs n := by
    induction cs with
    | nil => intro n; rfl
    | cons c cs ih =>
      intro n
      rw [List.map_cons, List.foldl_cons, ih, Nat.ofDigitChars_cons, Nat.mul_comm n 10]
      rfl
  exact step 0

/-- A run of digits is read as the number that it writes. -/
theorem integer_ofList (hn : cs ≠ []) (hd : ∀ c ∈ cs, isDigit c = true)
    (hl : cs.length ≤ digitLimit) :
    integer (String.ofList cs) = .ok (Nat.ofDigitChars 10 cs 0 : Nat) := by
  have hu : unsigned (String.ofList cs) cs = .ok (Nat.ofDigitChars 10 cs 0) := by
    have hm : (cs.map fun c => c.toNat - 48).isEmpty = false := by simpa using hn
    have hm' : ¬ digitLimit < (cs.map fun c => c.toNat - 48).length := by
      rw [List.length_map]
      omega
    rw [unsigned, digitRun_of_isDigit hd]
    simp only [hm, if_neg hm', ofDigits_map]
    rfl
  rw [integer, String.toList_ofList, trim_of_isDigit hd]
  split
  · next ds => exact absurd (hd '+' List.mem_cons_self) (by decide)
  · next ds => exact absurd (hd '-' List.mem_cons_self) (by decide)
  · rw [hu]
    rfl

end Text

/-- The digits that a number is shown in. -/
theorem isDigit_of_mem_toDigits {n : Nat} {c : Char} (h : c ∈ Nat.toDigits 10 n) :
    isDigit c = true := by
  have hc := Nat.isDigit_of_mem_toDigits (by decide) (by decide) h
  simpa [isDigit, Char.isDigit, Char.le_def] using hc

/-- No word is too long to be read. -/
theorem Word.length_toDigits_le {n : Nat} (h : (n : Int) ≤ Word.max) :
    (Nat.toDigits 10 n).length ≤ Text.digitLimit := by
  have hn : n ≤ 9223372036854775807 := by
    unfold Word.max at h
    omega
  have hl : (Nat.toDigits 10 n).length ≤ 19 :=
    (Nat.length_toDigits_le_iff (by decide) (by decide)).2 (Nat.lt_of_le_of_lt hn (by decide))
  exact Nat.le_trans hl (by decide)

/-- A word that is not negative is read back from its own text. -/
theorem Word.ofLiteral?_toString {n : Int} (h₀ : 0 ≤ n) (h : n ≤ Word.max) :
    Word.ofLiteral? (toString n) = some n := by
  obtain ⟨k, rfl⟩ := Int.eq_ofNat_of_zero_le h₀
  have hs : toString (k : Int) = String.ofList (Nat.toDigits 10 k) := by
    show Nat.repr k = _
    rw [← Nat.toList_repr, String.ofList_toList]
  have hi := Text.integer_ofList Nat.toDigits_ne_nil (fun _ => isDigit_of_mem_toDigits)
    (Word.length_toDigits_le h)
  rw [Word.ofLiteral?, hs, hi]
  simp only [Nat.ofDigitChars_ten_toDigits, if_pos h]

end MonkeyLang
