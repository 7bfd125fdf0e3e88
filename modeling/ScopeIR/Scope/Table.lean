import ScopeIR.Scope.Basic
import ScopeIR.Scope.Slots

/-! The scopes of one compilation: all of them by id, the stack of those being lowered,
the constants met so far, and the supply of identifiers. -/
namespace ScopeIR

/-- The arena has all scopes, the registry those that were entered. The stack is innermost
first. -/
structure ScopeTable where
  next : Nat := 0
  arena : Slots Scope.id := .empty
  registry : Slots (fun scope : Id => scope) := .empty
  stack : List Id := []
  constants : List ((TypeKind × String) × Constant) := []
  literals : List (TypeKind × Id) := []
deriving Repr

namespace ScopeTable

def fresh (t : ScopeTable) : Id × ScopeTable := (t.next, { t with next := t.next + 1 })

def scope? (t : ScopeTable) (id : Id) : Option Scope := t.arena.get? id

def scopes (t : ScopeTable) : List Scope := t.arena.toList.reverse

def create (t : ScopeTable) (kind : ScopeKind) : Scope × ScopeTable :=
  let (id, t) := t.fresh
  let s : Scope := { id, kind }
  (s, { t with arena := t.arena.put s })

def modifyScope (t : ScopeTable) (id : Id) (f : Scope → Scope) : ScopeTable :=
  { t with arena := t.arena.modify id f }

def push (t : ScopeTable) (id : Id) : ScopeTable :=
  { t with registry := t.registry.put id, stack := id :: t.stack }

def pop (t : ScopeTable) : ScopeTable := { t with stack := t.stack.tail }

def depth (t : ScopeTable) : Nat := t.stack.length

def currentId (t : ScopeTable) : Id := t.stack.headD noId

def entered (t : ScopeTable) : List Scope := t.stack.filterMap t.scope?

def current? (t : ScopeTable) : Option Scope := t.entered.head?

def environments (t : ScopeTable) : List Scope := t.entered.filter (·.kind.isEnvironment)

def environment? (t : ScopeTable) : Option Scope := t.environments.head?

/-- The innermost environment that declares a name, with the number of parent links
between it and the innermost one of all. -/
def lookup? (t : ScopeTable) (name : String) : Option (Scope × Variable × Nat) :=
  t.environments.zipIdx.findSome? fun (s, links) =>
    (s.declared? name).map fun v => (s, v, links)

/-- The scope a value denotes. A value that is no scope reference denotes a scope only
if one of its id was entered before. -/
def scopeOf? (t : ScopeTable) : Value → Option Scope
  | .scope _ scope => t.scope? scope
  | .const _ => none
  | .ref id | .func id _ => (t.registry.get? id).bind t.scope?

/-- The variable of a name in the scope of a value; without one the entered scopes of
every kind are searched. -/
def resolve? (t : ScopeTable) (name : String) : Option Value → Option (Variable × Scope)
  | some value => do
    let s ← t.scopeOf? value
    let v ← s.declared? name
    return (v, s)
  | none => t.entered.findSome? fun s => (s.declared? name).map fun v => (v, s)

def known? (t : ScopeTable) (name : String) : Option Value → Option Assignment
  | some value => do
    let s ← t.scopeOf? value
    s.assigned? name
  | none => t.entered.findSome? (·.assigned? name)

/-- The constant of a kind and a literal. Literals that are written alike are the same
one. -/
def constant (t : ScopeTable) (kind : TypeKind) (literal : Literal) : Constant × ScopeTable :=
  let key := (kind, literal.canonicalText)
  match t.constants.lookup key with
  | some c => (c, t)
  | none =>
    let (id, t) := t.fresh
    let c : Constant := ⟨id, literal, .ofKind kind⟩
    (c, { t with constants := (key, c) :: t.constants })

def literalScope (t : ScopeTable) (kind : TypeKind) : Id × Bool × ScopeTable :=
  match t.literals.lookup kind with
  | some id => (id, false, t)
  | none =>
    let (s, t) := t.create .literal
    (s.id, true, { t with literals := (kind, s.id) :: t.literals })

end ScopeTable

end ScopeIR
