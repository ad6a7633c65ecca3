import MonkeyLang.Eval.Step
import MonkeyLang.Text.Quoted

/-!
Scopes as seen from outside a program: they are made, nested, bound and looked into one by one,
and programs are evaluated in any of them. The table numbers the scopes in the order in which
they were asked for.
-/

namespace MonkeyLang

/-- The scopes that were asked for, in a store that may have others. -/
structure ScopeTable where
  store : Store := {}
  scopes : Array ScopeId := #[]
  deriving Repr, Inhabited

namespace ScopeTable

/-- Something to do with the scopes of a table, which are meant by their place in it. -/
inductive Command where
  /-- Makes an empty scope without a parent. -/
  | fresh
  /-- Makes a scope of the builtin functions. -/
  | standard
  /-- Makes an empty scope inside another one. -/
  | enclose (scope : Nat)
  | set (scope : Nat) (name : String) (value : Value)
  | get (scope : Nat) (name : String)
  | contains (scope : Nat) (name : String)
  | describe (scope : Nat)
  | parent (scope : Nat)
  /-- Evaluates a program. Where the outermost scope around has no builtin function, a new scope
  of them is put around it first, and stays. -/
  | evaluate (scope : Nat) (program : Program)

/-- The scope around a scope. -/
inductive Parent where
  | none
  /-- A scope of the table. -/
  | listed (scope : Nat)
  /-- A scope that is not in the table. -/
  | other
  deriving DecidableEq, Repr

/-- What a command answers. -/
inductive Answer where
  | made (scope : Nat)
  | value (v : Option Value)
  | contains (b : Bool)
  | description (text : String)
  | parent (p : Parent)
  | evaluated (result : Except Halt Value) (log : Log)
  /-- The table has no such scope. -/
  | noScope

/-- Adds a scope to the store and to the table. -/
def add (t : ScopeTable) (scope : Scope) : Answer × ScopeTable :=
  (.made t.scopes.size, ⟨t.store.add scope, t.scopes.push t.store.next⟩)

/-- How a scope is shown: by the names that it binds itself, in order. -/
def describe (b : Bindings) : String :=
  "<Environment [" ++ ", ".intercalate (b.textNames.mergeSort.map Text.quoted) ++ "]>"

/-- The scope around a scope, by its place in the table. -/
def parentOf (t : ScopeTable) (id : ScopeId) : Parent :=
  match (t.store.scope? id).bind Scope.parent with
  | .none => .none
  | some parent =>
    match t.scopes.findIdx? (· == parent) with
    | some i => .listed i
    | .none => .other

/-- Evaluates a program in a scope, where the builtin functions are in reach. -/
def evaluateIn (store : Store) (id : ScopeId) (program : Program) : Outcome Value :=
  eval {} nestingLimit program id { store := store.withBuiltins id }

/-- Does what a command says with the scope `id` of the store. -/
def act (t : ScopeTable) (id : ScopeId) : Command → Answer × ScopeTable
  | .fresh => t.add {}
  | .standard => t.add Scope.standard
  | .enclose _ => t.add { parent := some id }
  | .set _ name v => (.value (some v), { t with store := t.store.bind id (.text name) v })
  | .get _ name => (.value (t.store.lookup (.text name) id), t)
  | .contains _ name => (.contains (t.store.lookup (.text name) id).isSome, t)
  | .describe _ => (.description (describe (t.store.bindings id)), t)
  | .parent _ => (.parent (t.parentOf id), t)
  | .evaluate _ program =>
    match evaluateIn t.store id program with
    | .done v m => (.evaluated (.ok v) m.log, { t with store := m.store })
    | .halted h m => (.evaluated (.error h) m.log, { t with store := m.store })

/-- The place in the table of the scope that a command means. -/
def Command.scope? : Command → Option Nat
  | .fresh | .standard => none
  | .enclose i | .set i .. | .get i _ | .contains i _ | .describe i | .parent i
  | .evaluate i _ => some i

/-- Does what a command says. -/
def step (t : ScopeTable) (c : Command) : Answer × ScopeTable :=
  match c.scope? with
  | none => t.act t.store.next c
  | some i =>
    match t.scopes[i]? with
    | some id => t.act id c
    | none => (.noScope, t)

end ScopeTable

end MonkeyLang
