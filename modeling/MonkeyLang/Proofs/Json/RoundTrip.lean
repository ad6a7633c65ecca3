import Mathlib.Tactic.SplitIfs
import MonkeyLang.Json.Reader
import MonkeyLang.Json.Writer
import MonkeyLang.Proofs.Text.Numeral
import MonkeyLang.Proofs.Token.Spelling

/-!
# JSON texts read back

The text of a value is read back as that value, if it nests within the budget of the reader:
`read_pretty`. Values are read back one inside the other, so the statement that is proved by
induction has any text behind the value (`ReadsBack`). Only numbers do not end by themselves; what
follows a value is a comma, a new line or nothing (`Ends`).
-/

namespace MonkeyLang

@[simp]
theorem ok_bind {ε α β : Type} (a : α) (f : α → Except ε β) : (Except.ok a >>= f) = f a := rfl

@[simp]
theorem pure_eq_ok {ε α : Type} (a : α) : (pure a : Except ε α) = .ok a := rfl

namespace Json

/-! ## Strings -/

/-- A unit below the halves of pairs is the first of no pair. -/
theorem ofPair?_of_lt {high low : Nat} (h : high < 0xd800) : ofPair? high low = none := by
  rw [ofPair?, if_neg (by omega)]

/-- A unit that is no half of a pair stands for itself. -/
theorem pairWith?_of_lt {high : Nat} (h : high < 0xd800) (cs : List Char) :
    pairWith? high cs = none := by
  unfold pairWith?
  split
  · simp [ofPair?_of_lt h]
  · rfl

/-- The four hexadecimal digits of a control character are read back. -/
theorem hex4?_hex {n : Nat} (h : n < 0x20) :
    ∃ a b c d, Text.hex 4 n = [a, b, c, d] ∧ hex4? a b c d = some n := by
  have check : ∀ n < 0x20, let digit := fun i => (Text.hex 4 n).getD i ' '
      Text.hex 4 n = [digit 0, digit 1, digit 2, digit 3] ∧
        hex4? (digit 0) (digit 1) (digit 2) (digit 3) = some n := by decide +kernel
  exact ⟨_, _, _, _, check n h⟩

/-- A letter behind a backslash is read as the character that it stands for. -/
theorem stringTail_escape {e c : Char} (h : escape? e = some c) (acc cs : List Char) :
    stringTail acc ('\\' :: e :: cs) = stringTail (c :: acc) cs := by
  -- A `u` would begin a number instead, and it stands for no character.
  have hu : e ≠ 'u' := by
    rintro rfl
    cases h
  rw [stringTail]
  · simp only [h]
  · rintro a b c d rest rfl -
    exact hu rfl

/-- A control character that is written by its number is read back. -/
theorem stringTail_unit {n : Nat} (hn : n < 0x20) (acc cs : List Char) :
    stringTail acc ('\\' :: 'u' :: (Text.hex 4 n ++ cs)) = stringTail (Char.ofNat n :: acc) cs := by
  obtain ⟨a, b, c, d, he, hv⟩ := hex4?_hex hn
  -- A control character is no half of a pair, so the reader does not look for the other half.
  have hp : pairWith? n cs = none := pairWith?_of_lt (by omega) cs
  have hc : ofUnit n = Char.ofNat n := if_neg (by omega)
  rw [he]
  simp only [List.cons_append, List.nil_append]
  rw [stringTail]
  simp only [hv]
  split
  · next h => rw [hp] at h; cases h
  · rw [hc]

/-- A character that is no quote, no backslash and no control character stands for itself. -/
theorem stringTail_plain {c : Char} (hq : c ≠ '"') (hb : c ≠ '\\') (hc : ¬ c.toNat < 0x20)
    (acc cs : List Char) : stringTail acc (c :: cs) = stringTail (c :: acc) cs := by
  rw [stringTail]
  · simp [hb, hc]
  · exact fun h => hq h
  · rintro _ _ _ _ _ h -
    exact hb h
  · rintro _ _ h -
    exact hb h

/-- The three ways to write a character: by one letter, by its number, and as it is. -/
theorem writeChar_cases (c : Char) :
    (∃ e, writeChar c = ['\\', e] ∧ escape? e = some c) ∨
    (writeChar c = '\\' :: 'u' :: Text.hex 4 c.toNat ∧ c.toNat < 0x20) ∨
    (writeChar c = [c] ∧ c ≠ '"' ∧ c ≠ '\\' ∧ ¬ c.toNat < 0x20) := by
  unfold writeChar
  split_ifs with hquote hbackslash hline hreturn htab hback hpage hcontrol
  · exact .inl ⟨_, rfl, by rw [hquote]; rfl⟩
  · exact .inl ⟨_, rfl, by rw [hbackslash]; rfl⟩
  · exact .inl ⟨_, rfl, by rw [hline]; rfl⟩
  · exact .inl ⟨_, rfl, by rw [hreturn]; rfl⟩
  · exact .inl ⟨_, rfl, by rw [htab]; rfl⟩
  · exact .inl ⟨_, rfl, by rw [hback]; rfl⟩
  · exact .inl ⟨_, rfl, by rw [hpage]; rfl⟩
  · exact .inr (.inl ⟨rfl, hcontrol⟩)
  · exact .inr (.inr ⟨rfl, hquote, hbackslash, hcontrol⟩)

/-- Whatever a character is written as, it is read as one character. -/
theorem stringTail_writeChar (c : Char) (acc cs : List Char) :
    stringTail acc (writeChar c ++ cs) = stringTail (c :: acc) cs := by
  obtain ⟨e, hw, he⟩ | ⟨hw, hc⟩ | ⟨hw, hq, hb, hc⟩ := writeChar_cases c
  · rw [hw]
    exact stringTail_escape he acc cs
  · rw [hw, List.cons_append, List.cons_append, stringTail_unit hc, Char.ofNat_toNat]
  · rw [hw]
    exact stringTail_plain hq hb hc acc cs

/-- A string is read back. -/
theorem stringTail_flatMap (cs acc rest : List Char) :
    stringTail acc (cs.flatMap writeChar ++ '"' :: rest) =
      .ok (String.ofList (acc.reverse ++ cs), rest) := by
  induction cs generalizing acc with
  | nil => simp [stringTail]
  | cons c cs ih =>
    rw [List.flatMap_cons, List.append_assoc, stringTail_writeChar, ih, List.reverse_cons,
      List.append_assoc]
    rfl

/-- A written string is read up to its closing quote. -/
theorem stringTail_string (s : String) (rest : List Char) :
    stringTail [] (s.toList.flatMap writeChar ++ '"' :: rest) = .ok (s, rest) := by
  rw [stringTail_flatMap, List.reverse_nil, List.nil_append, String.ofList_toList]

/-! ## Numbers -/

/-- What stands behind a value: a comma, a new line or nothing. -/
def Ends (rest : List Char) : Prop :=
  ∀ c ∈ rest.head?, c = ',' ∨ c = '\n'

theorem toDigits_eq_cons (n : Nat) : ∃ c cs, Nat.toDigits 10 n = c :: cs ∧ isDigit c = true := by
  obtain ⟨c, cs, hc⟩ := List.exists_cons_of_ne_nil (Nat.toDigits_ne_nil (n := n) (b := 10))
  exact ⟨c, cs, hc, isDigit_of_mem_toDigits (n := n) (hc ▸ List.mem_cons_self)⟩

/-- A number does not start with a zero, unless it is zero. -/
theorem head_toDigits_ne {n : Nat} {c : Char} {cs : List Char} (hn : 0 < n)
    (h : Nat.toDigits 10 n = c :: cs) : c ≠ '0' := by
  induction n using Nat.strongRecOn generalizing cs with
  | ind n ih =>
    -- A number of more than one digit starts as the number without its last digit does.
    by_cases hlt : n < 10
    · have check : ∀ n < 10, 0 < n → (Nat.toDigits 10 n).head? ≠ some '0' := by decide +kernel
      have hz := check n hlt hn
      rw [h] at hz
      exact fun hc => hz (congrArg some hc)
    · obtain ⟨d, ds, hd, -⟩ := toDigits_eq_cons (n / 10)
      rw [Nat.toDigits_of_base_le (by decide) (by omega), hd] at h
      obtain ⟨rfl, -⟩ := List.cons.inj h
      exact ih (n / 10) (by omega) (by omega) hd

/-- The digits of a number are all that is taken of it. -/
theorem digits_toDigits {n : Nat} {rest : List Char} (hr : Ends rest) :
    digits (Nat.toDigits 10 n ++ rest) = (Nat.toDigits 10 n, rest) := by
  have hd : ∀ c ∈ Nat.toDigits 10 n, digits.isAsciiDigit c = true :=
    fun c hc => isDigit_of_mem_toDigits hc
  have hs : ∀ c ∈ rest.head?, digits.isAsciiDigit c = false := by
    intro c hc
    rcases hr c hc with rfl | rfl <;> rfl
  rw [digits, takeWhile_append_of_stop hd hs, dropWhile_append_of_stop hd hs]

theorem fraction?_of_ends {rest : List Char} (hr : Ends rest) : fraction? rest = none := by
  unfold fraction?
  split
  · exact absurd (hr '.' rfl) (by decide)
  · rfl

/-- What ends a value starts no exponent. -/
theorem exponent?_of_ends {rest : List Char} (hr : Ends rest) : exponent? rest = none := by
  unfold exponent?
  split
  · next e cs =>
    have he : ¬ (e = 'e' ∨ e = 'E') := by
      rcases hr e rfl with rfl | rfl <;> decide
    rw [if_neg he]
  · rfl

/-- Digits that nothing goes on behind are a whole number. -/
theorem number_of_digits {cs whole rest : List Char} (hr : Ends rest) (hw : whole ≠ [])
    (hl : whole.length ≤ Text.digitLimit)
    (h : cs = '0' :: rest ∧ whole = ['0'] ∨
      (∀ ds, cs ≠ '0' :: ds) ∧ digits cs = (whole, rest)) :
    number false cs = .ok (.int (ofDigits whole), rest) := by
  have he : whole.isEmpty = false := by simpa using hw
  have hf := fraction?_of_ends hr
  have hx := exponent?_of_ends hr
  -- A zero at the start is taken alone; otherwise all digits are taken that there are.
  rcases h with ⟨rfl, rfl⟩ | ⟨hz, hd⟩
  · simp [number, hf, hx, Text.digitLimit]
  · unfold number
    split
    next hm =>
    split at hm
    · exact absurd rfl (hz _)
    · rw [hd] at hm
      obtain ⟨rfl, rfl⟩ := Prod.mk.inj hm
      simp [he, hf, hx, Nat.not_lt.2 hl]

/-- A number is read from its digits, if these are not too many. -/
theorem number_toDigits {n : Nat} {rest : List Char} (hr : Ends rest)
    (hl : (Nat.toDigits 10 n).length ≤ Text.digitLimit) :
    number false (Nat.toDigits 10 n ++ rest) = .ok (.int n, rest) := by
  have hvalue : ofDigits (Nat.toDigits 10 n) = n :=
    (Text.ofDigits_map _).trans Nat.ofDigitChars_ten_toDigits
  rw [number_of_digits hr Nat.toDigits_ne_nil hl ?_, hvalue]
  -- Zero is the one number that starts with a zero.
  by_cases hn : n = 0
  · subst hn
    exact .inl ⟨rfl, rfl⟩
  · refine .inr ⟨fun ds he => ?_, digits_toDigits hr⟩
    obtain ⟨c, cs, hc, -⟩ := toDigits_eq_cons n
    rw [hc, List.cons_append] at he
    exact head_toDigits_ne (Nat.pos_of_ne_zero hn) hc (List.cons.inj he).1

/-! ## Blanks -/

/-- A line break and its indent are skipped. -/
theorem skipGap_lineAt (level : Nat) (cs : List Char) :
    skipGap (lineAt level ++ cs) = skipGap cs := by
  refine List.dropWhile_append_of_pos fun c hc => ?_
  rcases List.mem_cons.1 hc with rfl | hc
  · rfl
  · rw [List.eq_of_mem_replicate hc]
    rfl

theorem skipGap_cons {c : Char} (h : isGap c = false) (cs : List Char) :
    skipGap (c :: cs) = c :: cs :=
  List.dropWhile_cons_of_neg (by simp [h])

theorem ends_lineAt (level : Nat) (cs : List Char) : Ends (lineAt level ++ cs) := by
  rintro c ⟨⟩
  exact .inr rfl

/-- Behind an element comes a comma or what closes the array. -/
theorem ends_writeElements (level : Nat) (js : List Json) {rest : List Char} (hr : Ends rest) :
    Ends (writeElements level js ++ rest) := by
  cases js with
  | nil => exact hr
  | cons j js =>
    rintro c ⟨⟩
    exact .inl rfl

/-- Behind a field comes a comma or what closes the object. -/
theorem ends_writeFields (level : Nat) (fs : List (String × Json)) {rest : List Char}
    (hr : Ends rest) : Ends (writeFields level fs ++ rest) := by
  cases fs with
  | nil => exact hr
  | cons f fs =>
    rintro c ⟨⟩
    exact .inl rfl

/-! ## Nesting -/

theorem eq_succ_of_fits {j : Json} {n : Nat} (h : j.fits n = true) : ∃ m, n = m + 1 := by
  cases n with
  | zero => cases h
  | succ m => exact ⟨m, rfl⟩

/-- A value that nests within a budget nests within a greater one. -/
theorem fits_mono {j : Json} {m n : Nat} (hmn : m ≤ n) (h : j.fits m = true) : j.fits n = true := by
  induction m generalizing n j with
  | zero => cases h
  | succ m ih =>
    obtain ⟨n, rfl⟩ := Nat.exists_eq_succ_of_ne_zero (Nat.ne_zero_of_lt hmn)
    have hmn : m ≤ n := Nat.le_of_succ_le_succ hmn
    cases j with
    | array js => exact List.all_eq_true.2 fun k hk => ih hmn (List.all_eq_true.1 h k hk)
    | object fs => exact List.all_eq_true.2 fun f hf => ih hmn (List.all_eq_true.1 h f hf)
    | _ => rfl

/-- Every value nests within some budget. -/
theorem fits_of_sizeOf_lt {j : Json} {n : Nat} (h : sizeOf j < n) : j.fits n = true := by
  induction n generalizing j with
  | zero => exact absurd h (Nat.not_lt_zero _)
  | succ n ih =>
    cases j with
    | array js =>
      refine List.all_eq_true.2 fun k hk => ih ?_
      have := List.sizeOf_lt_of_mem hk
      simp only [array.sizeOf_spec] at h
      omega
    | object fs =>
      refine List.all_eq_true.2 fun f hf => ih ?_
      have := List.sizeOf_lt_of_mem hf
      obtain ⟨k, j⟩ := f
      simp only [object.sizeOf_spec, Prod.mk.sizeOf_spec] at h this ⊢
      omega
    | _ => rfl

/-! ## Values -/

/-- The values whose text is read back for sure. Their numbers are whole, not negative and not too
long to be read, and no key of an object stands there twice. -/
inductive Writable : Json → Prop where
  | null : Writable .null
  | bool (b : Bool) : Writable (.bool b)
  | int {n : Nat} (h : (Nat.toDigits 10 n).length ≤ Text.digitLimit) : Writable (.int n)
  | string (s : String) : Writable (.string s)
  | array {js : List Json} (h : ∀ j ∈ js, Writable j) : Writable (.array js)
  | object {fs : List (String × Json)} (keys : (fs.map Prod.fst).Nodup)
      (h : ∀ f ∈ fs, Writable f.2) : Writable (.object fs)

/-- A number is written as its digits, at every level. -/
theorem write_int (level n : Nat) : write level (.int n) = Nat.toDigits 10 n :=
  Nat.toList_repr

/-- A value is written from its first character on, and does not start as an array ends. -/
theorem Writable.write_eq_cons {j : Json} (h : Writable j) (level : Nat) :
    ∃ c cs, j.write level = c :: cs ∧ isGap c = false ∧ c ≠ ']' := by
  cases h with
  | null => exact ⟨_, _, rfl, by decide⟩
  | bool b => cases b <;> exact ⟨_, _, rfl, by decide⟩
  | @int n h =>
    obtain ⟨c, cs, hc, hd⟩ := toDigits_eq_cons n
    refine ⟨c, cs, (write_int level n).trans hc, ?_, ?_⟩
    -- None of the four gaps is a digit.
    · by_contra hg
      simp only [isGap, Bool.not_eq_false, Bool.or_eq_true, decide_eq_true_eq] at hg
      rcases hg with ((rfl | rfl) | rfl) | rfl <;> cases hd
    · rintro rfl
      cases hd
  | string s => exact ⟨_, _, rfl, by decide⟩
  | @array js h => cases js <;> exact ⟨_, _, rfl, by decide⟩
  | @object fs keys h => cases fs <;> exact ⟨_, _, rfl, by decide⟩

/-- No value starts with a gap. -/
theorem Writable.skipGap_write {j : Json} (h : Writable j) (level : Nat) (cs : List Char) :
    skipGap (j.write level ++ cs) = j.write level ++ cs := by
  obtain ⟨c, ds, he, hg, -⟩ := h.write_eq_cons level
  rw [he, List.cons_append, skipGap_cons hg]

/-- A reader reads a value back that was written at a level. -/
def ReadsBack (value : Reader Json) (level : Nat) (j : Json) : Prop :=
  ∀ rest, Ends rest → value (j.write level ++ rest) = .ok (j, rest)

/-! ### Arrays -/

variable {reader : Reader Json} {fuel level outer : Nat} {j : Json} {js : List Json}
  {cs rest more : List Char}

/-- An element before the closing bracket is the last one. -/
theorem elements_last (hj : reader cs = .ok (j, rest)) (hr : skipGap rest = ']' :: more) :
    elements reader (fuel + 1) cs = .ok ([j], more) := by
  simp only [elements, hj, ok_bind, hr, pure_eq_ok]

/-- An element before a comma is followed by the others. -/
theorem elements_comma (hj : reader cs = .ok (j, rest)) (hr : skipGap rest = ',' :: more) :
    elements reader (fuel + 1) cs =
      (elements reader fuel (skipGap more)).map fun r => (j :: r.1, r.2) := by
  simp only [elements, hj, ok_bind, hr, pure_eq_ok]
  rfl

/-- The elements after the first, with their commas and line breaks written out. -/
theorem writeElements_cons_append :
    writeElements level (j :: js) ++ rest =
      ',' :: (lineAt level ++ (j.write level ++ (writeElements level js ++ rest))) := by
  simp only [writeElements, List.cons_append, List.append_assoc]

/-- The elements of an array are read back if each of them is. -/
theorem elements_write (hf : js.length < fuel) (hw : ∀ k ∈ j :: js, Writable k)
    (hv : ∀ k ∈ j :: js, ReadsBack reader level k) :
    elements reader fuel
        (j.write level ++ (writeElements level js ++ (lineAt outer ++ ']' :: rest))) =
      .ok (j :: js, rest) := by
  -- The first element is read from what is there, so it changes from step to step with the fuel.
  induction js generalizing j fuel with
  | nil =>
    obtain ⟨fuel, rfl⟩ := Nat.exists_eq_succ_of_ne_zero (Nat.ne_zero_of_lt hf)
    have hj := hv j List.mem_cons_self _ (ends_lineAt outer (']' :: rest))
    refine elements_last hj ?_
    rw [skipGap_lineAt, skipGap_cons (by decide)]
  | cons k js ih =>
    obtain ⟨fuel, rfl⟩ := Nat.exists_eq_succ_of_ne_zero (Nat.ne_zero_of_lt hf)
    obtain ⟨hwj, hws⟩ := List.forall_mem_cons.1 hw
    obtain ⟨hvj, hvs⟩ := List.forall_mem_cons.1 hv
    have hj := hvj _ (ends_writeElements level (k :: js)
      (ends_lineAt outer (']' :: rest)))
    have hk := ih (Nat.lt_of_succ_lt_succ hf) hws hvs
    rw [writeElements_cons_append] at hj ⊢
    rw [elements_comma hj (skipGap_cons (by decide) _), skipGap_lineAt,
      (hws k List.mem_cons_self).skipGap_write, hk]
    rfl

/-- Each element takes a character at least, so the text is fuel enough for them. -/
theorem length_le_writeElements (level : Nat) (js : List Json) :
    js.length ≤ (writeElements level js).length := by
  induction js with
  | nil => exact Nat.zero_le _
  | cons j js ih =>
    simp only [writeElements, List.length_cons, List.length_append, List.cons_append]
    omega

/-- An array is read back if its elements are. -/
theorem valueWith_array (hw : ∀ k ∈ js, Writable k)
    (hv : ∀ k ∈ js, ReadsBack reader (level + 1) k) :
    ReadsBack (valueWith reader) level (.array js) := by
  intro rest _
  cases js with
  | nil => rfl
  | cons j js =>
    obtain ⟨c, cs, hc, -, hb⟩ := (hw j List.mem_cons_self).write_eq_cons (level + 1)
    have hl := length_le_writeElements (level + 1) js
    simp only [write, List.cons_append, List.append_assoc, List.nil_append, valueWith]
    rw [skipGap_lineAt, (hw j List.mem_cons_self).skipGap_write]
    split
    · -- no element starts with the bracket that would close an empty array
      next h =>
      rw [hc] at h
      exact absurd (List.cons.inj h).1 hb
    · rw [elements_write (by simp only [List.length_append]; omega) hw hv]
      rfl

/-! ### Objects -/

variable {k : String} {fs done : List (String × Json)}

/-- A field with a new key is put behind the others. -/
theorem setField_of_new (h : k ∉ done.map Prod.fst) : setField k j done = done ++ [(k, j)] := by
  induction done with
  | nil => rfl
  | cons f done ih =>
    rw [List.map_cons, List.mem_cons, not_or] at h
    rw [setField, if_neg (Ne.symm h.1), ih h.2]
    rfl

theorem writeString_append :
    writeString k ++ rest = '"' :: (k.toList.flatMap writeChar ++ '"' :: rest) := by
  simp [writeString]

theorem skipGap_writeString : skipGap (writeString k ++ rest) = writeString k ++ rest := by
  rw [writeString_append, skipGap_cons (by decide)]

/-- Where no key stands twice, the next one is new. -/
theorem new_of_nodup (h : ((done ++ (k, j) :: fs).map Prod.fst).Nodup) :
    k ∉ done.map Prod.fst := by
  rw [List.map_append, List.map_cons] at h
  exact fun hk => (List.nodup_append.1 h).2.2 k hk k List.mem_cons_self rfl

/-- The fields after the first, with their commas and line breaks written out. -/
theorem writeFields_cons_append :
    writeFields level ((k, j) :: fs) ++ rest =
      ',' :: (lineAt level ++
        (writeString k ++ ':' :: ' ' :: (j.write level ++ (writeFields level fs ++ rest)))) := by
  simp only [writeFields, List.cons_append, List.append_assoc]

/-- A field before the closing brace is the last one. -/
theorem fields_last (hw : Writable j) (hj : reader (j.write level ++ cs) = .ok (j, rest))
    (hr : skipGap rest = '}' :: more) :
    fields reader (fuel + 1) done (writeString k ++ ':' :: ' ' :: (j.write level ++ cs)) =
      .ok (setField k j done, more) := by
  have hs : skipGap (' ' :: (j.write level ++ cs)) = j.write level ++ cs :=
    hw.skipGap_write level cs
  rw [writeString_append]
  simp only [fields, stringTail_string, ok_bind, skipGap_cons (c := ':') (by decide), hs, hj, hr,
    pure_eq_ok]

/-- A field before a comma is followed by the others. -/
theorem fields_comma (hw : Writable j) (hj : reader (j.write level ++ cs) = .ok (j, rest))
    (hr : skipGap rest = ',' :: more) :
    fields reader (fuel + 1) done (writeString k ++ ':' :: ' ' :: (j.write level ++ cs)) =
      fields reader fuel (setField k j done) (skipGap more) := by
  have hs : skipGap (' ' :: (j.write level ++ cs)) = j.write level ++ cs :=
    hw.skipGap_write level cs
  rw [writeString_append]
  simp only [fields, stringTail_string, ok_bind, skipGap_cons (c := ':') (by decide), hs, hj, hr]

/-- The fields of an object are read back if the value of each is. -/
theorem fields_write (hf : fs.length < fuel) (hn : ((done ++ (k, j) :: fs).map Prod.fst).Nodup)
    (hw : ∀ f ∈ (k, j) :: fs, Writable f.2)
    (hv : ∀ f ∈ (k, j) :: fs, ReadsBack reader level f.2) :
    fields reader fuel done
        (writeString k ++ ':' :: ' ' ::
          (j.write level ++ (writeFields level fs ++ (lineAt outer ++ '}' :: rest)))) =
      .ok (done ++ (k, j) :: fs, rest) := by
  -- The fields that are read so far stand in `done`, with which the keys stay without a repetition.
  induction fs generalizing k j done fuel with
  | nil =>
    obtain ⟨fuel, rfl⟩ := Nat.exists_eq_succ_of_ne_zero (Nat.ne_zero_of_lt hf)
    have hj := hv (k, j) List.mem_cons_self _ (ends_lineAt outer ('}' :: rest))
    have hr : skipGap (lineAt outer ++ '}' :: rest) = '}' :: rest := by
      rw [skipGap_lineAt, skipGap_cons (by decide)]
    rw [writeFields, List.nil_append, fields_last (hw (k, j) List.mem_cons_self) hj hr,
      setField_of_new (new_of_nodup hn)]
  | cons f fs ih =>
    obtain ⟨k', j'⟩ := f
    obtain ⟨fuel, rfl⟩ := Nat.exists_eq_succ_of_ne_zero (Nat.ne_zero_of_lt hf)
    obtain ⟨hwj, hws⟩ := List.forall_mem_cons.1 hw
    obtain ⟨hvj, hvs⟩ := List.forall_mem_cons.1 hv
    have hj := hvj _ (ends_writeFields level ((k', j') :: fs)
      (ends_lineAt outer ('}' :: rest)))
    have hn' : (((done ++ [(k, j)]) ++ (k', j') :: fs).map Prod.fst).Nodup := by simpa using hn
    have hs := ih (Nat.lt_of_succ_lt_succ hf) hn' hws hvs
    rw [writeFields_cons_append] at hj ⊢
    rw [fields_comma hwj hj (skipGap_cons (by decide) _), setField_of_new (new_of_nodup hn),
      skipGap_lineAt, skipGap_writeString, hs, List.append_assoc]
    rfl

/-- Each field takes a character at least, so the text is fuel enough for them. -/
theorem length_le_writeFields (level : Nat) (fs : List (String × Json)) :
    fs.length ≤ (writeFields level fs).length := by
  induction fs with
  | nil => exact Nat.zero_le _
  | cons f fs ih =>
    simp only [writeFields, List.length_cons, List.length_append, List.cons_append]
    omega

/-- An object is read back if the values of its fields are. -/
theorem valueWith_object (hn : (fs.map Prod.fst).Nodup) (hw : ∀ f ∈ fs, Writable f.2)
    (hv : ∀ f ∈ fs, ReadsBack reader (level + 1) f.2) :
    ReadsBack (valueWith reader) level (.object fs) := by
  intro rest _
  cases fs with
  | nil => rfl
  | cons f fs =>
    obtain ⟨k, j⟩ := f
    have hl := length_le_writeFields (level + 1) fs
    simp only [write, List.cons_append, List.append_assoc, List.nil_append, valueWith]
    rw [skipGap_lineAt, skipGap_writeString]
    split
    -- A field starts with a quote, so this is not the brace that would close an empty object.
    · next h =>
      rw [writeString_append] at h
      exact absurd (List.cons.inj h).1 (by decide)
    · rw [fields_write (by simp only [List.length_append, List.length_cons]; omega) hn hw hv]
      rfl

/-! ### All values -/

/-- What starts with a digit is a number. -/
theorem valueWith_of_isDigit {c : Char} (hc : isDigit c = true) :
    valueWith reader (c :: cs) = number false (c :: cs) := by
  unfold valueWith
  split
  case h_1 h => cases h
  case h_12 => rfl
  all_goals
    next h =>
      obtain ⟨rfl, -⟩ := List.cons.inj h
      cases hc

/-- A number is read back whatever ends it. -/
theorem valueWith_int {n : Nat} (h : (Nat.toDigits 10 n).length ≤ Text.digitLimit) :
    ReadsBack (valueWith reader) level (.int n) := by
  intro rest hr
  obtain ⟨c, cs, hc, hd⟩ := toDigits_eq_cons n
  have hv := number_toDigits hr h
  rw [write_int]
  rw [hc, List.cons_append] at hv ⊢
  rw [valueWith_of_isDigit hd, hv]

/-- A string is read back whatever follows it. -/
theorem valueWith_string (s : String) : ReadsBack (valueWith reader) level (.string s) := by
  intro rest _
  show valueWith reader (writeString s ++ rest) = _
  rw [writeString_append]
  simp only [valueWith, stringTail_string]
  rfl

/-- A value that nests within the budget is read back, whatever follows it. -/
theorem value_write (hw : Writable j) {budget : Nat} (hb : j.fits budget = true) :
    ReadsBack (value budget) level j := by
  -- By induction on the value: the parts of an array or object stand one level further in, and the
  -- reader has one level less for them.
  induction hw generalizing budget level with
  | null =>
    obtain ⟨n, rfl⟩ := eq_succ_of_fits hb
    exact fun rest _ => rfl
  | bool b =>
    obtain ⟨n, rfl⟩ := eq_succ_of_fits hb
    cases b <;> exact fun rest _ => rfl
  | int h =>
    obtain ⟨n, rfl⟩ := eq_succ_of_fits hb
    exact valueWith_int h
  | string s =>
    obtain ⟨n, rfl⟩ := eq_succ_of_fits hb
    exact valueWith_string s
  | array hw ih =>
    obtain ⟨n, rfl⟩ := eq_succ_of_fits hb
    exact valueWith_array hw fun k hk => ih k hk (List.all_eq_true.1 hb k hk)
  | object hn hw ih =>
    obtain ⟨n, rfl⟩ := eq_succ_of_fits hb
    exact valueWith_object hn hw fun f hf => ih f hf (List.all_eq_true.1 hb f hf)

/-- A value is read back from its text. -/
theorem read_pretty (hw : Writable j) {budget : Nat} (hb : j.fits budget = true) :
    read budget j.pretty = .ok j := by
  have hv : ReadsBack (value budget) 0 j := value_write hw hb
  have hv := hv [] (by rintro c ⟨⟩)
  have hs := hw.skipGap_write 0 []
  rw [List.append_nil] at hv hs
  rw [read, pretty, String.toList_ofList, hs, hv]
  rfl

/-! ## Line ends -/

/-- No character is written with a carriage return, that one itself by a letter. -/
theorem return_not_mem_writeChar (c : Char) : '\r' ∉ writeChar c := by
  have hex : ∀ n < 0x20, '\r' ∉ Text.hex 4 n := by decide +kernel
  obtain ⟨e, hw, he⟩ | ⟨hw, hc⟩ | ⟨hw, -, -, hc⟩ := writeChar_cases c
  · have hr : '\r' ≠ e := by
      rintro rfl
      cases he
    simp [hw, hr]
  · simp [hw, hex c.toNat hc]
  · have hr : '\r' ≠ c := by
      rintro rfl
      exact hc (by decide)
    simp [hw, hr]

theorem return_not_mem_writeString (s : String) : '\r' ∉ writeString s := by
  simp [writeString, return_not_mem_writeChar]

theorem return_not_mem_lineAt (level : Nat) : '\r' ∉ lineAt level := by
  simp [lineAt]

/-- The elements of an array bring no carriage return in. -/
theorem return_not_mem_writeElements (h : ∀ k ∈ js, '\r' ∉ k.write level) :
    '\r' ∉ writeElements level js := by
  induction js with
  | nil => exact List.not_mem_nil
  | cons j js ih =>
    obtain ⟨hj, hjs⟩ := List.forall_mem_cons.1 h
    simp [writeElements, return_not_mem_lineAt, hj, ih hjs]

/-- The fields of an object bring no carriage return in. -/
theorem return_not_mem_writeFields (h : ∀ f ∈ fs, '\r' ∉ f.2.write level) :
    '\r' ∉ writeFields level fs := by
  induction fs with
  | nil => exact List.not_mem_nil
  | cons f fs ih =>
    obtain ⟨hf, hfs⟩ := List.forall_mem_cons.1 h
    simp [writeFields, return_not_mem_lineAt, return_not_mem_writeString, hf, ih hfs]

/-- A carriage return is always escaped, so a text is the same after its line ends were read. -/
theorem Writable.return_not_mem_write (hw : Writable j) (level : Nat) : '\r' ∉ j.write level := by
  induction hw generalizing level with
  | null => simp [write]
  | bool b => cases b <;> simp [write]
  | @int n h =>
    rw [write_int]
    intro hm
    cases isDigit_of_mem_toDigits hm
  -- inside a text the character is escaped
  | string s => exact return_not_mem_writeString s
  | @array js hw ih =>
    cases js with
    | nil => simp [write]
    | cons j js =>
      obtain ⟨hj, hjs⟩ := List.forall_mem_cons.1 fun k hk => ih k hk (level + 1)
      simp [write, return_not_mem_lineAt, hj, return_not_mem_writeElements hjs]
  | @object fs hn hw ih =>
    cases fs with
    | nil => simp [write]
    | cons f fs =>
      obtain ⟨hf, hfs⟩ := List.forall_mem_cons.1 fun f hf => ih f hf (level + 1)
      simp [write, return_not_mem_lineAt, return_not_mem_writeString, hf,
        return_not_mem_writeFields hfs]

end Json

end MonkeyLang
