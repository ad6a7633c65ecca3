import MonkeyLang.Scope.Bindings

/-!
Scopes inside scopes. Scopes are numbered in the order in which they are made and are never taken
away, so a function can keep the number of the scope that it was made in.
-/

namespace MonkeyLang

/-- A scope: its bindings, and the scope around it. -/
structure Scope where
  parent : Option ScopeId := none
  bindings : Bindings := []
  deriving Repr, Inhabited

namespace Scope

def standard : Scope :=
  { bindings := [Builtin.len, Builtin.puts].map fun b => (.text b.name, .builtin b) }

end Scope

/-- All scopes that were ever made, by number. -/
structure Store where
  scopes : Array Scope := #[]
  deriving Repr, Inhabited

namespace Store

def scope? (s : Store) (id : ScopeId) : Option Scope :=
  s.scopes[id]?

/-- The number of the next scope to be made. -/
def next (s : Store) : ScopeId :=
  s.scopes.size

/-- Adds a scope, whose number is `next`. -/
def add (s : Store) (scope : Scope) : Store :=
  ⟨s.scopes.push scope⟩

/-- The value of a name in a scope or in the ones around it, up to `fuel` of them. -/
def lookupWithin (s : Store) (name : Name) : (fuel : Nat) → ScopeId → Option Value
  | 0, _ => none
  | fuel + 1, id =>
    match s.scope? id with
    | none => none
    | some scope =>
      match scope.bindings.get? name with
      | some v => some v
      | none =>
        match scope.parent with
        | none => none
        | some parent => s.lookupWithin name fuel parent

/-- The value of a name in a scope or in the nearest scope around it that binds it. A chain of
scopes that does not return to itself has no more of them than the store. -/
def lookup (s : Store) (name : Name) (id : ScopeId) : Option Value :=
  s.lookupWithin name s.scopes.size id

def modify (s : Store) (id : ScopeId) (f : Scope → Scope) : Store :=
  ⟨s.scopes.modify id f⟩

/-- Binds a name in a scope, whatever the scopes around it bind. -/
def bind (s : Store) (id : ScopeId) (name : Name) (value : Value) : Store :=
  s.modify id fun scope => { scope with bindings := scope.bindings.set name value }

/-- The outermost scope around a scope, up to `fuel` steps away. -/
def rootWithin (s : Store) : (fuel : Nat) → ScopeId → ScopeId
  | 0, id => id
  | fuel + 1, id =>
    match (s.scope? id).bind Scope.parent with
    | none => id
    | some parent => s.rootWithin fuel parent

/-- The outermost scope around a scope. -/
def root (s : Store) (id : ScopeId) : ScopeId :=
  s.rootWithin s.scopes.size id

def bindings (s : Store) (id : ScopeId) : Bindings :=
  ((s.scope? id).map Scope.bindings).getD []

/-- Puts a new scope of the builtin functions around the outermost scope of a chain, unless that
one binds a builtin function already. -/
def withBuiltins (s : Store) (id : ScopeId) : Store :=
  let root := s.root id
  if (s.bindings root).any fun p => p.2.isBuiltin then s
  else
    (s.modify root fun scope => { scope with parent := some s.next }).add Scope.standard

end Store

end MonkeyLang
