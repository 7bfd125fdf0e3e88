import ScopeIR.Lowering.State
import ScopeIR.Number.Digits
import ScopeIR.Syntax.Node
import ScopeIR.Text.Quoted

/-! Access to names, fields and constants. A name is a field of the environment that
declares it, reached from the innermost environment by its parent links. -/
namespace ScopeIR

structure Lowered where
  code : List Instruction := []
  value : Value
deriving Repr

inductive Key where
  | name (name : String)
  | computed (value : Value)
deriving Repr

structure Place where
  code : List Instruction
  object : Value
  key : Key
  loc : Location
deriving Repr

namespace Lower

/-- Names resolve through the environments if they are read from the innermost scope. -/
def isLexical (ref : Value) : Lower Bool := do
  let scope? ← scopeOf? ref
  let current? := (← get).scopes.current?
  return match scope?, current? with
    | some scope, some current => scope.id == current.id
    | _, _ => false

def chain (loc : Location) : Nat → Value → Lower (List Instruction × Value)
  | 0, object => return ([], object)
  | links + 1, object => do
    let id ← fresh
    let (code, last) ← chain loc links (.ref id)
    return (.apply loc id (.getField parentName) [object] :: code, last)

/-- The environment that owns a name, with its distance. Undeclared names belong to the
outermost environment. -/
def resolve (name : String) : Lower (Scope × Nat) := do
  let scopes := (← get).scopes
  match scopes.lookup? name with
  | some (owner, _, links) => return (owner, links)
  | none =>
    let environments := scopes.environments
    let outermost ← require environments.getLast?
    return (outermost, environments.length - 1)

/-- Reads a field. If the owner is known, the last value assigned to the field tells
whether the result denotes a scope or a function. -/
def read (code : List Instruction) (owner : Option Scope) (name : String) (object : Value)
    (loc : Location) : Lower Lowered := do
  let id ← fresh
  let value := match (owner.bind (·.assigned? name)).bind (·.value) with
    | some (.scope _ scope) => .scope id scope
    | some (.func _ link) => .func id link
    | _ => .ref id
  return { code := code ++ [.apply loc id (.getField name) [object]], value }

def recordAccess (origin : Compilation) (name : String) (stored : Option Value) (loc : Location)
    (code : List Instruction) : Lower Unit :=
  modify fun s => { s with accesses :=
    ⟨name, stored, loc, origin.frame.parameters, origin.scopes, code⟩ :: s.accesses }

/-- A parameter is at hand; any other name is read from the environment that owns it. -/
def readName (name : String) (ref : Value) (loc : Location) : Lower Lowered := do
  if ← isLexical ref then
    match Parameter.declared? name (← get).frame.parameters with
    | some p => return { value := p.value }
    | none =>
      let (owner, links) ← resolve name
      let (code, object) ← chain loc links (.ofScope (← environment))
      read code (some owner) name object loc
  else
    read [] (← scopeOf? ref) name ref loc

def identifier (name : String) (ref : Value) (loc : Location) : Lower Lowered := do
  let origin ← get
  let e ← readName name ref loc
  recordAccess origin name none loc e.code
  return e

def declareField (name : String) (value object : Value) (loc : Location) :
    Lower (List Instruction) := do
  match ← scopeOf? object with
  | some scope => assign scope.id name value
  | none => pure ()
  let id ← fresh
  return [.apply loc id (.setField name) [object, value]]

/-- A write goes to the environment that owns the name, also if it is a parameter. -/
def writeName (name : String) (value ref : Value) (loc : Location) :
    Lower (List Instruction) := do
  if ← isLexical ref then
    let (owner, links) ← resolve name
    let (code, object) ← chain loc links (.ofScope (← environment))
    let id ← fresh
    assign owner.id name value
    return code ++ [.apply loc id (.setField name) [object, value]]
  else
    declareField name value ref loc

def assignIdentifier (name : String) (value ref : Value) (loc : Location) :
    Lower (List Instruction) := do
  let origin ← get
  let code ← writeName name value ref loc
  recordAccess origin name (some value) loc code
  return code

/-- The value of an identifier that can be passed on without reading it: a parameter, or
what the innermost environment was last assigned. -/
def knownArgument (node : Node) (ref : Value) : Lower (Option Value) := do
  match node with
  | .identifier _ name =>
    let s ← get
    if ← isLexical ref then
      match Parameter.declared? name s.frame.parameters with
      | some p => return some p.value
      | none =>
        match s.scopes.lookup? name with
        | some (owner, _, 0) => return (owner.assigned? name).bind (·.value)
        | _ => return none
    else
      match s.scopes.resolve? name (some ref) with
      | some (v, _) => return (s.scopes.known? v.name (some ref)).bind (·.value)
      | none => return none
  | _ => return none

/-- The constant of a literal. The first constant of a kind creates the scope that all
constants of the kind share. -/
def constant (kind : TypeKind) (literal : Literal) (loc : Location) : Lower Lowered := do
  let c ← modifyGet fun s =>
    let (c, scopes) := s.scopes.constant kind literal
    (c, { s with scopes })
  let (id, created) ← modifyGet fun s =>
    let (id, created, scopes) := s.scopes.literalScope kind
    ((id, created), { s with scopes })
  if created then
    report (.createScope id .literal)
    return { code := [.apply loc id .newObject []], value := .const c }
  else
    return { value := .const c }

def literal (source : LiteralSource) (loc : Location) : Lower Lowered :=
  match source.regex with
  | some regex => constant .regExp (.str ("/" ++ regex.pattern ++ "/" ++ regex.flags)) loc
  | none =>
    if source.bigint.isEmpty then
      match source.value with
      | .null => return { value := .null }
      | .str text => constant .string (.str text) loc
      | .num value => constant .number (.num value) loc
      | .bool value => constant .boolean (.bool value) loc
      | other => fail ["literal of " ++ other.carrier] .malformedTree
    else match signedInt? source.bigint with
      | some value => constant .bigint (.big value) loc
      | none => fail ["bigint literal " ++ Text.quote source.bigint] .malformedTree

def load (place : Place) : Lower Lowered := do
  match place.key with
  | .name name => read [] (← scopeOf? place.object) name place.object place.loc
  | .computed key =>
    let id ← fresh
    return { code := [.apply place.loc id .getFieldDynamic [place.object, key]], value := .ref id }

def store (place : Place) (value : Value) : Lower (List Instruction) := do
  match place.key with
  | .name name => declareField name value place.object place.loc
  | .computed key =>
    let id ← fresh
    return [.apply place.loc id .setFieldDynamic [place.object, key, value]]

end Lower

namespace Node

/-- The field name that a property key fixes. -/
def staticName? (computed : Bool) : Node → Option String
  | .identifier _ name => if computed then none else some name
  | .literal _ source =>
    if source.regex.isSome then none
    else if source.bigint.isEmpty then
      match source.value with
      | .str text => some text
      | .num value => some value.propertyName
      | .bool value => some (Literal.boolText value)
      | .null => some "null"
      | _ => none
    else some source.bigint
  | _ => none

/-- Property values that stand for code which is not there. -/
def isPlaceholder : Node → Bool
  | .assignmentPattern .. => true
  | .unknown _ type => type == "TSEmptyBodyFunctionExpression"
  | _ => false

end Node

end ScopeIR
