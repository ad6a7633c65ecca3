import MonkeyLang.Proofs.Syntax.Printed
import MonkeyLang.Tree.Program

/-!
# Trees whose nodes stand where they belong

`Tree.meets` checks that statements stand in programs and blocks, blocks are branches and bodies, and
everything else is an expression, and asks what it is told to of the parts that have no parts. It
asks nothing more of a tree with `fitsRole`; with `isIntact` nothing may be missing, and the literals
and operators must be such as a text can have.
-/

namespace MonkeyLang

variable {α β : Type}

/-- What is asked of the parts of a tree that have no parts. -/
structure Demands (α : Type) where
  /-- Whether something may be missing that a program cannot do without. -/
  missing : Bool := true
  name : α → Bool := fun _ => true
  integer : Int → Bool := fun _ => true
  string : α → Bool := fun _ => true
  prefixOperator : α → Bool := fun _ => true
  infixOperator : α → Bool := fun _ => true

namespace Demands

/-- The demands on what `f` makes of labels. -/
def comap (d : Demands β) (f : α → β) : Demands α :=
  { d with
    name := d.name ∘ f
    string := d.string ∘ f
    prefixOperator := d.prefixOperator ∘ f
    infixOperator := d.infixOperator ∘ f }

/-- Nothing is missing, labels are texts, and literals and operators are such as a text can
have. -/
def intact (text : α → Option String) : Demands α where
  missing := false
  name x := (text x).isSome
  integer n := 0 ≤ n ∧ n ≤ Word.max
  string x := (text x).any fun s => '"' ∉ s.toList
  prefixOperator x := ((text x).bind prefixKind?).isSome
  infixOperator x := ((text x).bind infixKind?).isSome

end Demands

namespace Tree

mutual

/-- Whether every node of a tree stands where it belongs, the tree itself in the place of a `role`,
and the demands on its parts are met. The value of a `return` and the alternative of a conditional
may always be missing. -/
def meets (d : Demands α) : Role → Tree α → Bool
  | _, .missing => d.missing
  | .program, .program ss => meetsEach d .statement ss
  | .statement, .letStatement x e => d.name x && meets d .expression e
  | .statement, .returnStatement e => e.isMissing || meets d .expression e
  | .statement, .expressionStatement e => meets d .expression e
  | .block, .block ss => meetsEach d .statement ss
  | .expression, .identifier x => d.name x
  | .expression, .integer n => d.integer n
  | .expression, .string s => d.string s
  | .expression, .boolean _ => true
  | .expression, .prefixed o e => d.prefixOperator o && meets d .expression e
  | .expression, .infixed l o r =>
    d.infixOperator o && meets d .expression l && meets d .expression r
  | .expression, .conditional c t e =>
    meets d .expression c && meets d .block t && (e.isMissing || meets d .block e)
  | .expression, .function ps b => ps.all d.name && meets d .block b
  | .expression, .call f as => meets d .expression f && meetsEach d .expression as
  | _, _ => false
termination_by structural _ t => t

def meetsEach (d : Demands α) (role : Role) : List (Tree α) → Bool
  | [] => true
  | t :: ts => meets d role t && meetsEach d role ts
termination_by structural ts => ts

end

/-- Whether every node of a tree stands where it belongs, the tree itself in the place of a
`role`. -/
def fitsRole (role : Role) (t : Tree α) : Bool :=
  t.meets {} role

/-- Whether a tree is one of a text, but for its names, which may be keywords. -/
def isIntact (t : Code) (role : Role := .program) : Bool :=
  t.meets (.intact some) role

theorem meetsEach_iff {d : Demands α} {role : Role} {ts : List (Tree α)} :
    meetsEach d role ts = true ↔ ∀ t ∈ ts, t.meets d role = true := by
  induction ts with
  | nil => simp [meetsEach]
  | cons t ts ih => simp [meetsEach, ih]

theorem isMissing_mapLabels (f : α → β) (t : Tree α) : (t.mapLabels f).isMissing = t.isMissing := by
  cases t <;> rfl

mutual

/-- Relabelling keeps the shape: the new labels meet what the old ones had to meet through `f`. -/
theorem meets_mapLabels (f : α → β) (d : Demands β) (role : Role) :
    (t : Tree α) → (t.mapLabels f).meets d role = t.meets (d.comap f) role
  | .missing | .identifier _ | .integer _ | .string _ | .boolean _ => by cases role <;> rfl
  | .program ss | .block ss => by
    cases role <;> simp only [mapLabels, meets, meetsEach_mapLabelsEach f d _ ss]
  | .letStatement _ e | .returnStatement e | .expressionStatement e | .prefixed _ e => by
    cases role <;>
      simp only [mapLabels, meets, isMissing_mapLabels, meets_mapLabels f d _ e, Demands.comap,
        Function.comp_apply]
  | .function _ b => by
    cases role <;>
      simp only [mapLabels, meets, meets_mapLabels f d _ b, Demands.comap, List.all_map]
  | .infixed l _ r => by
    cases role <;>
      simp only [mapLabels, meets, meets_mapLabels f d _ l, meets_mapLabels f d _ r, Demands.comap,
        Function.comp_apply]
  | .conditional c t e => by
    cases role <;>
      simp only [mapLabels, meets, isMissing_mapLabels, meets_mapLabels f d _ c,
        meets_mapLabels f d _ t, meets_mapLabels f d _ e]
  | .call g as => by
    cases role <;>
      simp only [mapLabels, meets, meets_mapLabels f d _ g, meetsEach_mapLabelsEach f d _ as]

theorem meetsEach_mapLabelsEach (f : α → β) (d : Demands β) (role : Role) :
    (ts : List (Tree α)) → meetsEach d role (mapLabelsEach f ts) = meetsEach (d.comap f) role ts
  | [] => rfl
  | t :: ts => by
    simp only [mapLabelsEach, meetsEach, meets_mapLabels f d role t,
      meetsEach_mapLabelsEach f d role ts]

end

mutual

/-- Whatever is asked of the parts of a tree, its nodes stand where they belong. -/
theorem fitsRole_of_meets (d : Demands α) : (t : Tree α) → (role : Role) →
    t.meets d role = true → t.fitsRole role = true
  | .missing, _, _ => by simp [fitsRole, meets]
  | .identifier _, role, h | .integer _, role, h | .string _, role, h | .boolean _, role, h => by
    cases role <;> first | rfl | cases h
  | .program ss, role, h | .block ss, role, h => by
    have ih := fitsRoleEach_of_meetsEach d ss
    cases role <;> first | exact ih _ h | cases h
  | .letStatement _ e, role, h | .expressionStatement e, role, h | .prefixed _ e, role, h
  | .function _ e, role, h => by
    have ih := fitsRole_of_meets d e
    cases role <;> simp_all [fitsRole, meets]
  -- the value may be missing, which both allow
  | .returnStatement e, role, h => by
    have ih := fitsRole_of_meets d e
    cases role <;> simp only [fitsRole, meets, Bool.or_eq_true, Bool.false_eq_true] at h ⊢
    exact h.imp_right (ih _)
  | .infixed l _ r, role, h => by
    have ihl := fitsRole_of_meets d l
    have ihr := fitsRole_of_meets d r
    cases role <;> simp_all [fitsRole, meets]
  | .conditional c t e, role, h => by
    have ihc := fitsRole_of_meets d c
    have iht := fitsRole_of_meets d t
    have ihe := fitsRole_of_meets d e
    cases role <;> simp only [fitsRole, meets, Bool.and_eq_true, Bool.or_eq_true,
      Bool.false_eq_true] at h ⊢
    exact ⟨⟨ihc _ h.1.1, iht _ h.1.2⟩, h.2.imp_right (ihe _)⟩
  | .call f as, role, h => by
    have ihf := fitsRole_of_meets d f
    have ihas := fitsRoleEach_of_meetsEach d as
    cases role <;> simp_all [fitsRole, meets]

/-- What meets demands on its labels has the shape alone. -/
theorem fitsRoleEach_of_meetsEach (d : Demands α) : (ts : List (Tree α)) → (role : Role) →
    meetsEach d role ts = true → meetsEach {} role ts = true
  | [], _, _ => rfl
  | t :: ts, role, h => by
    simp only [meetsEach, Bool.and_eq_true] at h ⊢
    exact ⟨fitsRole_of_meets d t role h.1, fitsRoleEach_of_meetsEach d ts role h.2⟩

end

end Tree

end MonkeyLang
