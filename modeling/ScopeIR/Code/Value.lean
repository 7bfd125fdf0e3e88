import ScopeIR.Code.Definition
import ScopeIR.Literal

namespace ScopeIR

/-- Values, parameters, constants and scopes share one stock of identifiers. -/
abbrev Id := Int

def noId : Id := -1

abbrev TypeKind := String

namespace TypeKind

def null : TypeKind := "null"
def number : TypeKind := "number"
def string : TypeKind := "string"
def boolean : TypeKind := "boolean"
def regExp : TypeKind := "RegExp"
def bigint : TypeKind := "bigint"

end TypeKind

/-- An incomplete type is known by its kind alone. -/
structure TypeInfo where
  kind : TypeKind
  name : String
  incomplete : Bool
deriving DecidableEq, Repr

def TypeInfo.ofKind (kind : TypeKind) : TypeInfo := ⟨kind, kind, true⟩

structure Constant where
  id : Id
  literal : Literal
  type : TypeInfo
deriving Repr

/-- The function a value refers to: its definition and, if it is one of the functions
listed with the referring one, its place in that list. -/
structure FunctionLink where
  definition : FunctionDefinition
  position : Option Nat
deriving DecidableEq, Repr

/-- A scope reference denotes a scope known at compile time; the canonical one has the
id of the scope itself. -/
inductive Value where
  | ref (id : Id)
  | const (constant : Constant)
  | scope (id scope : Id)
  | func (id : Id) (link : Option FunctionLink)
deriving Repr

namespace Value

def id : Value → Id
  | .ref id => id
  | .const constant => constant.id
  | .scope id _ => id
  | .func id _ => id

def null : Value := .const ⟨noId, .null, ⟨TypeKind.null, TypeKind.null, false⟩⟩

def ofScope (id : Id) : Value := .scope id id

def isNull : Value → Bool
  | .const constant => constant.type.kind == TypeKind.null
  | _ => false

end Value

end ScopeIR
