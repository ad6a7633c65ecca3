import MonkeyLang.Proofs.Tree.Object

/-!
# Normal forms of objects

Objects that differ may describe the same tree: an integer can be given as a text, parameters as a
text with one character for each, and a field that stands for nothing can be left out. `normalForm`
reads a tree and writes its object. A tree that was read with a budget fits it (`fits_of_ofJson`),
so its object is read back with the same one, and reading and writing once more changes nothing.
-/

namespace MonkeyLang

variable {α β ε : Type}

theorem bind_eq_ok {x : Except ε α} {f : α → Except ε β} {b : β} :
    (x >>= f) = .ok b ↔ ∃ a, x = .ok a ∧ f a = .ok b := by
  cases x with
  | error e => exact ⟨nofun, fun ⟨_, h, _⟩ => nomatch h⟩
  | ok a => simp

theorem exists_of_mapM {f : α → Except ε β} {as : List α} {bs : List β}
    (h : as.mapM f = .ok bs) : ∀ b ∈ bs, ∃ a, f a = .ok b := by
  induction as generalizing bs with
  | nil =>
    cases h
    nofun
  | cons a as ih =>
    simp only [List.mapM_cons, bind_eq_ok, pure_eq_ok, Except.ok.injEq] at h
    obtain ⟨b, hb, bs, hbs, rfl⟩ := h
    exact List.forall_mem_cons.2 ⟨⟨a, hb⟩, ih hbs⟩

namespace Tree

/-! ## Budgets -/

/-- The nodes right under a tree. -/
def children : Tree α → List (Tree α)
  | .missing | .identifier _ | .integer _ | .string _ | .boolean _ => []
  | .program ss | .block ss => ss
  | .letStatement _ t | .returnStatement t | .expressionStatement t | .prefixed _ t
  | .function _ t => [t]
  | .infixed l _ r => [l, r]
  | .conditional c t e => [c, t, e]
  | .call f as => f :: as

theorem fits_succ (n : Nat) (t : Tree α) : t.fits (n + 1) = t.children.all (fits n) := by
  cases t <;> simp [fits, children, Bool.and_assoc]

theorem sizeOf_lt_of_mem_children [SizeOf α] {s t : Tree α} (h : s ∈ t.children) :
    sizeOf s < sizeOf t := by
  cases t <;> simp only [children, List.mem_cons, List.not_mem_nil, or_false] at h
  case program ss | block ss =>
    have := List.sizeOf_lt_of_mem h
    simp
    omega
  case call f as =>
    rcases h with rfl | h
    · simp
      omega
    · have := List.sizeOf_lt_of_mem h
      simp
      omega
  all_goals
    simp
    grind

/-- Every tree fits some budget, and all above it. -/
theorem fits_of_sizeOf_lt [SizeOf α] {t : Tree α} {budget : Nat} (h : sizeOf t < budget) :
    t.fits budget = true := by
  induction budget generalizing t with
  | zero => omega
  | succ n ih =>
    rw [fits_succ, List.all_eq_true]
    intro s hs
    have := sizeOf_lt_of_mem_children hs
    exact ih (by omega)

/-! ## Trees that were read -/

/-- What stands right under a node was read by the reader of the nodes inside it. -/
theorem exists_of_ofFields {inner : Json → Except ObjectError (Tree Json)}
    {fields : List (String × Json)} {t : Tree Json} (h : ofFields inner fields = .ok t) :
    ∀ s ∈ t.children, ∃ j, inner j = .ok s := by
  simp only [ofFields] at h
  split at h
  · -- one case for each kind of node, and one for a type that is none
    split at h
    all_goals simp only [bind_eq_ok, pure_eq_ok, Except.ok.injEq, reduceCtorEq] at h
    all_goals grind [children, exists_of_mapM]
  · cases h

/-- A tree fits the budget that it was read with. -/
theorem fits_of_ofJson {budget : Nat} {j : Json} {t : Tree Json} (h : ofJson budget j = .ok t) :
    t.fits budget = true := by
  induction budget generalizing j t with
  | zero => cases h
  | succ budget ih =>
    rw [fits_succ, List.all_eq_true]
    cases j with
    | null =>
      cases h
      nofun
    | object fields =>
      intro s hs
      obtain ⟨j, hj⟩ := exists_of_ofFields h s hs
      exact ih hj
    | _ => cases h

/-- The object of the tree that a JSON value describes. -/
def normalForm (budget : Nat) (j : Json) : Except ObjectError Json :=
  (ofJson budget j).map (toJson id)

theorem normalForm_eq_ok {budget : Nat} {j o : Json} :
    normalForm budget j = .ok o ↔ ∃ t, ofJson budget j = .ok t ∧ t.toJson id = o := by
  rw [normalForm]
  cases ofJson budget j with
  | error e => exact ⟨nofun, fun ⟨_, h, _⟩ => nomatch h⟩
  | ok t => simp [Except.map]

/-- Every tree, with whatever labels and whatever missing, is read back from its object with every
budget that it fits, which are all from some depth on; with less the depth is what is wrong. So is
the tree of a program text. The object that is written for a value that was read describes the same
tree and is the one that is written for itself. -/
theorem normalForm_normalForm :
    (∀ (t : Program) (budget : Nat),
      ofJson budget (t.toJson id) = if t.fits budget then .ok t else .error .tooDeep) ∧
    (∀ t : Program, ∃ depth, ∀ budget, depth < budget → ofJson budget (t.toJson id) = .ok t) ∧
    (∀ p : Code, ∃ depth, ∀ budget, depth < budget →
      ofJson budget p.toObject = .ok p.toProgram) ∧
    (∀ (budget : Nat) (j : Json) (t : Program), ofJson budget j = .ok t →
      ofJson budget (t.toJson id) = .ok t) ∧
    ∀ (budget : Nat) (j o : Json), normalForm budget j = .ok o →
      ofJson budget o = ofJson budget j ∧ normalForm budget o = .ok o := by
  -- there is always a budget that is enough
  have back (t : Program) : ∃ depth, ∀ budget, depth < budget →
      ofJson budget (t.toJson id) = .ok t :=
    ⟨sizeOf t, fun _ h => ofJson_toJson (fits_of_sizeOf_lt h)⟩
  refine ⟨fun t budget => ofJson_toJson_eq budget t, back, fun p => ?_,
    fun budget j t h => ofJson_toJson (fits_of_ofJson h), fun budget j o h => ?_⟩
  · have hp : p.toProgram.toJson id = p.toObject := toJson_mapLabels Json.string id p
    exact hp ▸ back p.toProgram
  · obtain ⟨t, ht, rfl⟩ := normalForm_eq_ok.1 h
    have hback := ofJson_toJson (fits_of_ofJson ht)
    exact ⟨hback.trans ht.symm, normalForm_eq_ok.2 ⟨t, hback, rfl⟩⟩

/-- A function whose parameters are the characters of a text, with an integer given as a text, one
given as a truth value, an operator that is a number, and no value for a `let`. -/
theorem normalForm_normalForm_odd :
    let given : Json := .object [
      ("parameters", .string "ab"),
      ("type", .string "FunctionLiteral"),
      ("body", .object [("type", .string "BlockStatement"), ("statements", .array [
        .object [("name", .null), ("type", .string "LetStatement")],
        .object [("type", .string "InfixExpression"), ("operator", .int 5), ("note", .bool true),
          ("right", .object [("type", .string "IntegerLiteral"), ("value", .string " 7_0 ")]),
          ("left", .object [("type", .string "IntegerLiteral"), ("value", .bool true)])]])])]
    let written : Json := objectOf "FunctionLiteral" [
      ("parameters", .array [.string "a", .string "b"]),
      ("body", objectOf "BlockStatement" [("statements", .array [
        objectOf "LetStatement" [("name", .null), ("value", .null)],
        objectOf "InfixExpression" [("operator", .int 5),
          ("left", objectOf "IntegerLiteral" [("value", .int 1)]),
          ("right", objectOf "IntegerLiteral" [("value", .int 70)])]])])]
    normalForm nestingLimit given = .ok written ∧
      ofJson nestingLimit written = ofJson nestingLimit given ∧
      normalForm nestingLimit written = .ok written := by
  intro given written
  have h : normalForm nestingLimit given = .ok written := rfl
  exact ⟨h, normalForm_normalForm.2.2.2.2 nestingLimit given written h⟩

end Tree

end MonkeyLang
