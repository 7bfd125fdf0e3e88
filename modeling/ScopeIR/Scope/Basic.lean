import ScopeIR.Code.Value

/-! Scopes: the global object, activation records, blocks and objects, each a set of
declared variables with the last value known for each name. -/
namespace ScopeIR

/-- Kinds are numbered; numbers past the named kinds are kinds of their own. -/
inductive ScopeKind where
  | global
  | function
  | block
  | object
  | literal
  | other (code : Int)
deriving DecidableEq, Repr

namespace ScopeKind

def ofCode (code : Int) : ScopeKind :=
  if code = 0 then .global
  else if code = 1 then .function
  else if code = 2 then .block
  else if code = 3 then .object
  else if code = 4 then .literal
  else .other code

def name? : ScopeKind → Option String
  | .global => some "global"
  | .function => some "function"
  | .block => some "block"
  | .object => some "object"
  | .literal => some "literal"
  | .other code => if code < 0 then none else some ("kind(" ++ toString code ++ ")")

/-- Environments are linked by the parent field and take part in name resolution. -/
def isEnvironment : ScopeKind → Bool
  | .global | .function | .block => true
  | .object | .literal | .other _ => false

end ScopeKind

structure Variable where
  name : String
  type : String := "unknown"
  writable : Bool := true
deriving DecidableEq, Repr

structure Assignment where
  value : Option Value
  target : Variable
deriving Repr

/-- Names with what they stand for, each name once. -/
abbrev Names (α : Type) := List (String × α)

namespace Names

def set {α : Type} (name : String) (item : α) : Names α → Names α
  | [] => [(name, item)]
  | (other, old) :: rest =>
    if other == name then (name, item) :: rest else (other, old) :: set name item rest

end Names

structure Scope where
  id : Id
  kind : ScopeKind
  locals : Names Variable := []
  assignments : Names Assignment := []
deriving Repr

namespace Scope

def value (s : Scope) : Value := .ofScope s.id

def declared? (s : Scope) (name : String) : Option Variable := s.locals.lookup name

def assigned? (s : Scope) (name : String) : Option Assignment := s.assignments.lookup name

def variableOf (s : Scope) (name : String) : Variable := (s.declared? name).getD { name }

def withVariable (s : Scope) (v : Variable) : Scope :=
  { s with locals := s.locals.set v.name v }

def declare (s : Scope) (name : String) : Scope := s.withVariable (s.variableOf name)

def assign (s : Scope) (v : Variable) (value : Option Value) : Scope :=
  { s with assignments := s.assignments.set v.name ⟨value, v⟩ }

end Scope

end ScopeIR
