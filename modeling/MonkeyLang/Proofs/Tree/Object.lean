import MonkeyLang.Proofs.Json.RoundTrip
import MonkeyLang.Proofs.Syntax.Shape

/-!
# Trees as objects

A tree is read back from its object, whatever its labels are and whatever is missing in it, unless
it nests too deep for the budget: `ofJson_toJson_eq`. A level of a tree takes one level of its
object, or two where there is a list between, so a tree nests within any budget that its object
does: `fits_of_toJson`. The object of a tree with the numbers of a text is one whose text is read
back: `writable_toJson`.
-/

namespace MonkeyLang

variable {α β : Type}

@[simp]
theorem error_bind {ε α β : Type} (e : ε) (f : α → Except ε β) :
    (Except.error e >>= f) = .error e := rfl

namespace Json

variable {k key : String} {j : Json} {fs : List (String × Json)}

@[simp]
theorem optional_cons :
    optional ((k, j) :: fs) key = if key = k then j else optional fs key := by
  rw [optional, field?]
  split <;> rfl

@[simp]
theorem required_cons :
    required ((k, j) :: fs) key = if key = k then .ok j else required fs key := by
  rw [required, field?]
  by_cases h : key = k <;> simp [h, required]

@[simp]
theorem items_array (js : List Json) : items (.array js) = .ok js := rfl

end Json

namespace Tree

theorem toJsonEach_eq_map (label : α → Json) (ts : List (Tree α)) :
    toJsonEach label ts = ts.map (toJson label) := by
  induction ts with
  | nil => rfl
  | cons t ts ih => rw [toJsonEach, ih, List.map_cons]

/-! ## Reading objects -/

/-- Trees are read back one by one, unless one of them nests too deep. -/
theorem mapM_ofJson {budget : Nat} {ts : List (Tree Json)}
    (h : ∀ t ∈ ts, ofJson budget (t.toJson id) =
      if t.fits budget then .ok t else .error .tooDeep) :
    (toJsonEach id ts).mapM (ofJson budget) =
      if ts.all (fits budget) then .ok ts else .error .tooDeep := by
  induction ts with
  | nil => rfl
  | cons t ts ih =>
    obtain ⟨ht, hts⟩ := List.forall_mem_cons.1 h
    rw [toJsonEach, List.mapM_cons, ht, ih hts, List.all_cons]
    cases t.fits budget <;> cases ts.all (fits budget) <;> rfl

/-- An object with a type is read by its fields, with one level less for what is inside. -/
@[simp]
theorem ofJson_objectOf {budget : Nat} {type : String} {fs : List (String × Json)} :
    ofJson (budget + 1) (objectOf type fs) =
      ofFields (ofJson budget) (("type", .string type) :: fs) := rfl

/-- A tree is read back from its object with every budget that it fits, and with the others the
depth is what is wrong. -/
theorem ofJson_toJson_eq (budget : Nat) (t : Tree Json) :
    ofJson budget (t.toJson id) = if t.fits budget then .ok t else .error .tooDeep := by
  induction budget generalizing t with
  | zero => rfl
  | succ budget ih =>
    -- the parts of a list, by the hypothesis of the induction
    have each (ts : List (Tree Json)) := mapM_ofJson fun t (_ : t ∈ ts) => ih t
    cases t with
    | missing => rfl
    | program ss | block ss =>
      cases h : ss.all (fits budget) <;> simp [toJson, ofFields, fits, each, h]
    | letStatement _ t | returnStatement t | expressionStatement t | prefixed _ t
    | function _ t =>
      cases h : t.fits budget <;> simp [toJson, ofFields, fits, ih, h]
    | identifier x | integer n | string x | boolean b =>
      simp [toJson, ofFields, fits, Json.toInteger, Json.truthy]
    | infixed l o r =>
      cases hl : l.fits budget <;> cases hr : r.fits budget <;>
        simp [toJson, ofFields, fits, ih, hl, hr]
    | conditional c t e =>
      cases hc : c.fits budget <;> cases ht : t.fits budget <;> cases he : e.fits budget <;>
        simp [toJson, ofFields, fits, ih, hc, ht, he]
    | call f as =>
      cases hf : f.fits budget <;> cases ha : as.all (fits budget) <;>
        simp [toJson, ofFields, fits, ih, each, hf, ha]

/-- A tree that fits is read back. -/
theorem ofJson_toJson {budget : Nat} {t : Tree Json} (h : t.fits budget = true) :
    ofJson budget (t.toJson id) = .ok t :=
  (ofJson_toJson_eq budget t).trans (if_pos h)

/-! ## Nesting -/

/-- The fields of an object have one level less than the object. -/
theorem fits_of_objectOf {budget : Nat} {type : String} {fs : List (String × Json)}
    (h : (objectOf type fs).fits (budget + 1) = true) : ∀ f ∈ fs, f.2.fits budget = true := by
  simp only [objectOf, Json.fits, List.all_eq_true] at h
  exact fun f hf => h f (List.mem_cons_of_mem _ hf)

/-- A tree nests no deeper than its object. -/
theorem fits_of_toJson {label : α → Json} {budget : Nat} {t : Tree α}
    (h : (t.toJson label).fits budget = true) : t.fits budget = true := by
  induction budget generalizing t with
  | zero => cases h
  | succ budget ih =>
    -- A list takes a level of the object that it does not take of the tree.
    have each {ts : List (Tree α)} (h : (Json.array (toJsonEach label ts)).fits budget = true) :
        ts.all (fits budget) = true := by
      obtain ⟨budget, rfl⟩ := Json.eq_succ_of_fits h
      rw [toJsonEach_eq_map] at h
      simp only [Json.fits, List.all_map, List.all_eq_true, Function.comp_apply] at h
      exact List.all_eq_true.2 fun t ht => ih (Json.fits_mono (Nat.le_succ budget) (h t ht))
    cases t with
    | missing | identifier x | integer n | string x | boolean b => rfl
    | program ss | block ss =>
      have hf := fits_of_objectOf h
      simp only [List.forall_mem_cons] at hf
      exact each hf.1
    | returnStatement t | expressionStatement t =>
      have hf := fits_of_objectOf h
      simp only [List.forall_mem_cons] at hf
      exact ih hf.1
    | letStatement _ t | prefixed _ t | function _ t =>
      have hf := fits_of_objectOf h
      simp only [List.forall_mem_cons] at hf
      exact ih hf.2.1
    | infixed l o r =>
      have hf := fits_of_objectOf h
      simp only [List.forall_mem_cons] at hf
      exact Bool.and_eq_true_iff.2 ⟨ih hf.2.1, ih hf.2.2.1⟩
    | conditional c t e =>
      have hf := fits_of_objectOf h
      simp only [List.forall_mem_cons] at hf
      simp only [fits, ih hf.1, ih hf.2.1, ih hf.2.2.1, Bool.and_self]
    | call f as =>
      have hf := fits_of_objectOf h
      simp only [List.forall_mem_cons] at hf
      exact Bool.and_eq_true_iff.2 ⟨ih hf.1, each hf.2.1⟩

/-! ## Labels -/

mutual

/-- Relabelling a tree first and writing its object then is writing it with other labels. -/
theorem toJson_mapLabels (f : α → β) (label : β → Json) :
    (t : Tree α) → (t.mapLabels f).toJson label = t.toJson (label ∘ f)
  | .missing | .identifier _ | .integer _ | .string _ | .boolean _ => rfl
  | .program ss | .block ss => by simp only [mapLabels, toJson, toJsonEach_mapLabelsEach f label ss]
  | .letStatement _ t | .returnStatement t | .expressionStatement t | .prefixed _ t
  | .function _ t => by
    simp only [mapLabels, toJson, toJson_mapLabels f label t, List.map_map, Function.comp_apply]
  | .infixed l _ r => by
    simp only [mapLabels, toJson, toJson_mapLabels f label l, toJson_mapLabels f label r,
      Function.comp_apply]
  | .conditional c t e => by
    simp only [mapLabels, toJson, toJson_mapLabels f label c, toJson_mapLabels f label t,
      toJson_mapLabels f label e]
  | .call g as => by
    simp only [mapLabels, toJson, toJson_mapLabels f label g, toJsonEach_mapLabelsEach f label as]

/-- The same of several trees. -/
theorem toJsonEach_mapLabelsEach (f : α → β) (label : β → Json) :
    (ts : List (Tree α)) → toJsonEach label (mapLabelsEach f ts) = toJsonEach (label ∘ f) ts
  | [] => rfl
  | t :: ts => by
    simp only [mapLabelsEach, toJsonEach, toJson_mapLabels f label t,
      toJsonEach_mapLabelsEach f label ts]

end

/-! ## Objects whose text is read back -/

open Json (Writable)

/-- An object with a type is read back if its fields are and none is a second type. -/
theorem writable_objectOf {type : String} {fs : List (String × Json)}
    (keys : ("type" :: fs.map Prod.fst).Nodup) (h : ∀ f ∈ fs, Writable f.2) :
    Writable (objectOf type fs) :=
  .object keys (List.forall_mem_cons.2 ⟨.string type, h⟩)

/-- A number of a text has few enough digits to be read back. -/
theorem writable_int {n : Int} (h : 0 ≤ n ∧ n ≤ Word.max) : Writable (.int n) := by
  obtain ⟨k, rfl⟩ := Int.eq_ofNat_of_zero_le h.1
  exact .int (Word.length_toDigits_le h.2)

variable {label : α → Json} {text : α → Option String}

mutual

/-- The object of a tree with the numbers of a text is read back from its text. -/
theorem writable_toJson (hl : ∀ a, Writable (label a)) {role : Role} :
    (t : Tree α) → t.meets (.intact text) role = true → Writable (t.toJson label)
  | .missing, _ => .null
  | .identifier x, _ | .string x, _ => writable_objectOf (by simp) (by simp [hl x])
  | .boolean b, _ => writable_objectOf (by simp) (by simp [Writable.bool b])
  | .integer n, h => by
    -- in each case one role is left, the one in which such a node can stand
    cases role <;> try cases h
    have hn : 0 ≤ n ∧ n ≤ Word.max := by simpa [meets, Demands.intact] using h
    exact writable_objectOf (by simp) (by simp [writable_int hn])
  | .program ss, h | .block ss, h => by
    cases role <;> try cases h
    have hs := writable_toJsonEach hl ss h
    exact writable_objectOf (by simp) (by simp [Writable.array hs])
  | .letStatement x t, h | .prefixed x t, h => by
    cases role <;> try cases h
    simp only [meets, Bool.and_eq_true] at h
    exact writable_objectOf (by simp) (by simp [hl x, writable_toJson hl t h.2])
  | .returnStatement t, h => by
    cases role <;> try cases h
    have ht : Writable (t.toJson label) := by
      rcases Bool.or_eq_true_iff.1 h with hm | h
      · rw [eq_missing hm]
        exact .null
      · exact writable_toJson hl t h
    exact writable_objectOf (by simp) (by simp [ht])
  | .expressionStatement t, h => by
    cases role <;> try cases h
    exact writable_objectOf (by simp) (by simp [writable_toJson hl t h])
  | .infixed l o r, h => by
    cases role <;> try cases h
    simp only [meets, Bool.and_eq_true] at h
    exact writable_objectOf (by simp)
      (by simp [hl o, writable_toJson hl l h.1.2, writable_toJson hl r h.2])
  | .conditional c t e, h => by
    cases role <;> try cases h
    simp only [meets, Bool.and_eq_true, Bool.or_eq_true] at h
    have he : Writable (e.toJson label) := by
      rcases h.2 with hm | h
      · rw [eq_missing hm]
        exact .null
      · exact writable_toJson hl e h
    exact writable_objectOf (by simp)
      (by simp [writable_toJson hl c h.1.1, writable_toJson hl t h.1.2, he])
  | .function ps t, h => by
    cases role <;> try cases h
    simp only [meets, Bool.and_eq_true] at h
    have hps : Writable (.array (ps.map label)) := .array (by simpa using fun x _ => hl x)
    exact writable_objectOf (by simp) (by simp [hps, writable_toJson hl t h.2])
  | .call f as, h => by
    cases role <;> try cases h
    simp only [meets, Bool.and_eq_true] at h
    have has := writable_toJsonEach hl as h.2
    exact writable_objectOf (by simp) (by simp [writable_toJson hl f h.1, Writable.array has])

/-- The same of several trees. -/
theorem writable_toJsonEach (hl : ∀ a, Writable (label a)) {role : Role} :
    (ts : List (Tree α)) → meetsEach (.intact text) role ts = true →
      ∀ j ∈ toJsonEach label ts, Writable j
  | [], _ => nofun
  | t :: ts, h => by
    simp only [meetsEach, Bool.and_eq_true] at h
    exact List.forall_mem_cons.2 ⟨writable_toJson hl t h.1, writable_toJsonEach hl ts h.2⟩

end

end Tree

end MonkeyLang
