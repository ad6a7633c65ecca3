/-!
Program trees. They hold whole programs, programs with parts missing after a mistake, and trees
whose labels are not texts.
-/

namespace MonkeyLang

/-- The tree of a program or of a part of one. Names, operators and texts are labels of type `α`:
strings in a program, any JSON value in a saved tree. A node stands where it was put, whether it
makes sense there or not; `missing` holds the place of a part that is not there. -/
inductive Tree (α : Type) where
  | missing
  | program (statements : List (Tree α))
  | letStatement (name : α) (value : Tree α)
  | returnStatement (value : Tree α)
  | expressionStatement (expression : Tree α)
  | block (statements : List (Tree α))
  | identifier (name : α)
  | integer (value : Int)
  | string (value : α)
  | boolean (value : Bool)
  | prefixed (operator : α) (right : Tree α)
  | infixed (left : Tree α) (operator : α) (right : Tree α)
  | conditional (condition consequence alternative : Tree α)
  | function (parameters : List α) (body : Tree α)
  | call (callee : Tree α) (arguments : List (Tree α))
  deriving Repr, Inhabited

/-- The tree of program text. -/
abbrev Code := Tree String

/-- The number of levels that may nest in what is read, shown and evaluated. -/
def nestingLimit : Nat := 1000

namespace Tree

variable {α β : Type}

def isMissing : Tree α → Bool
  | .missing => true
  | _ => false

theorem eq_missing {t : Tree α} (h : t.isMissing = true) : t = .missing := by
  cases t with
  | missing => rfl
  | _ => cases h

mutual

/-- Whether two trees have the same nodes with the same labels. -/
def agrees [DecidableEq α] : Tree α → Tree α → Bool
  | .missing, u => u.isMissing
  | .program ss, .program ts | .block ss, .block ts => agreesEach ss ts
  | .letStatement x t, .letStatement y u | .prefixed x t, .prefixed y u => x = y && agrees t u
  | .returnStatement t, .returnStatement u | .expressionStatement t, .expressionStatement u =>
    agrees t u
  | .identifier x, .identifier y | .string x, .string y => x = y
  | .integer m, .integer n => m = n
  | .boolean b, .boolean c => b = c
  | .infixed l o r, .infixed l' o' r' => agrees l l' && o = o' && agrees r r'
  | .conditional c t e, .conditional c' t' e' => agrees c c' && agrees t t' && agrees e e'
  | .function ps b, .function qs c => ps = qs && agrees b c
  | .call f as, .call g bs => agrees f g && agreesEach as bs
  | _, _ => false
termination_by structural t => t

def agreesEach [DecidableEq α] : List (Tree α) → List (Tree α) → Bool
  | [], [] => true
  | t :: ts, u :: us => agrees t u && agreesEach ts us
  | _, _ => false
termination_by structural ts => ts

end

mutual

theorem agrees_iff [DecidableEq α] : (t u : Tree α) → (agrees t u = true ↔ t = u)
  | .missing, u => by cases u <;> simp [agrees, isMissing]
  | .identifier _, u | .string _, u | .integer _, u | .boolean _, u => by cases u <;> simp [agrees]
  | .program ss, u | .block ss, u => by cases u <;> simp [agrees, agreesEach_iff ss]
  | .letStatement _ t, u | .prefixed _ t, u | .returnStatement t, u | .expressionStatement t, u
  | .function _ t, u => by cases u <;> simp [agrees, agrees_iff t]
  | .infixed l _ r, u => by cases u <;> simp [agrees, agrees_iff l, agrees_iff r, and_assoc]
  | .conditional c t e, u => by
    cases u <;> simp [agrees, agrees_iff c, agrees_iff t, agrees_iff e, and_assoc]
  | .call f as, u => by cases u <;> simp [agrees, agrees_iff f, agreesEach_iff as]

theorem agreesEach_iff [DecidableEq α] :
    (ts us : List (Tree α)) → (agreesEach ts us = true ↔ ts = us)
  | [], us => by cases us <;> simp [agreesEach]
  | t :: ts, us => by cases us <;> simp [agreesEach, agrees_iff t, agreesEach_iff ts]

end

instance [DecidableEq α] : DecidableEq (Tree α) := fun t u =>
  decidable_of_iff (agrees t u = true) (agrees_iff t u)

/-- Whether the nodes of a tree nest in fewer than `budget` levels. -/
def fits : (budget : Nat) → Tree α → Bool
  | 0, _ => false
  | n + 1, t =>
    match t with
    | .missing | .identifier _ | .integer _ | .string _ | .boolean _ => true
    | .program ss | .block ss => ss.all (fits n)
    | .letStatement _ t | .returnStatement t | .expressionStatement t | .prefixed _ t
    | .function _ t => fits n t
    | .infixed l _ r => fits n l && fits n r
    | .conditional c t e => fits n c && fits n t && fits n e
    | .call f as => fits n f && as.all (fits n)

mutual

/-- The tree with every label replaced by what `f` makes of it. -/
def mapLabels (f : α → β) : Tree α → Tree β
  | .missing => .missing
  | .program ss => .program (mapLabelsEach f ss)
  | .letStatement x t => .letStatement (f x) (mapLabels f t)
  | .returnStatement t => .returnStatement (mapLabels f t)
  | .expressionStatement t => .expressionStatement (mapLabels f t)
  | .block ss => .block (mapLabelsEach f ss)
  | .identifier x => .identifier (f x)
  | .integer n => .integer n
  | .string s => .string (f s)
  | .boolean b => .boolean b
  | .prefixed o t => .prefixed (f o) (mapLabels f t)
  | .infixed l o r => .infixed (mapLabels f l) (f o) (mapLabels f r)
  | .conditional c t e => .conditional (mapLabels f c) (mapLabels f t) (mapLabels f e)
  | .function ps t => .function (ps.map f) (mapLabels f t)
  | .call t as => .call (mapLabels f t) (mapLabelsEach f as)
termination_by structural t => t

def mapLabelsEach (f : α → β) : List (Tree α) → List (Tree β)
  | [] => []
  | t :: ts => mapLabels f t :: mapLabelsEach f ts
termination_by structural ts => ts

end

mutual

/-- Labels that are replaced one way and back leave the tree as it was. -/
theorem mapLabels_mapLabels_cancel {f : α → β} {g : β → α} (h : ∀ a, g (f a) = a) :
    (t : Tree α) → (t.mapLabels f).mapLabels g = t
  | .missing | .integer _ | .boolean _ => rfl
  | .identifier x | .string x => by simp only [mapLabels, h]
  | .program ss | .block ss => by simp only [mapLabels, mapLabelsEach_mapLabelsEach_cancel h ss]
  | .returnStatement t | .expressionStatement t => by
    simp only [mapLabels, mapLabels_mapLabels_cancel h t]
  | .letStatement x t | .prefixed x t => by
    simp only [mapLabels, h, mapLabels_mapLabels_cancel h t]
  | .infixed l o r => by
    simp only [mapLabels, h, mapLabels_mapLabels_cancel h l, mapLabels_mapLabels_cancel h r]
  | .conditional c t e => by
    simp only [mapLabels, mapLabels_mapLabels_cancel h c, mapLabels_mapLabels_cancel h t,
      mapLabels_mapLabels_cancel h e]
  | .function ps t => by
    have hp : g ∘ f = id := funext h
    simp only [mapLabels, List.map_map, hp, List.map_id, mapLabels_mapLabels_cancel h t]
  | .call t as => by
    simp only [mapLabels, mapLabels_mapLabels_cancel h t, mapLabelsEach_mapLabelsEach_cancel h as]

theorem mapLabelsEach_mapLabelsEach_cancel {f : α → β} {g : β → α} (h : ∀ a, g (f a) = a) :
    (ts : List (Tree α)) → mapLabelsEach g (mapLabelsEach f ts) = ts
  | [] => rfl
  | t :: ts => by
    simp only [mapLabelsEach, mapLabels_mapLabels_cancel h t,
      mapLabelsEach_mapLabelsEach_cancel h ts]

end

end Tree

end MonkeyLang
