import ScopeIR.Code.Value
import ScopeIR.Failure
import ScopeIR.Location

namespace ScopeIR

/-- The name of the implicit first parameter, and of the field that links an
environment to the enclosing one. -/
def parentName : String := "@parent"

/-- Where a block stands: in the function that branches to it, or in another one. -/
inductive BlockPlace where
  | own (position : Nat)
  | foreign (function position : Nat)
deriving DecidableEq, Repr

structure BlockLink where
  index : Int
  place : BlockPlace
deriving DecidableEq, Repr

def BlockLink.own (position : Nat) : BlockLink := ⟨position, .own position⟩

/-- Hand-built code may lack operands and targets. -/
inductive Instruction where
  | call (loc : Location) (dest : Id) (receiver : Option Value) (callee : FunctionDefinition)
      (operands : List (Option Value))
  | ret (loc : Location) (value : Option Value)
  | branch (loc : Location) (target : Option BlockLink)
  | scope (loc : Location) (id : Id)
deriving Repr

namespace Instruction

def location : Instruction → Location
  | .call loc .. | .ret loc _ | .branch loc _ | .scope loc _ => loc

def isTerminator : Instruction → Bool
  | .ret .. | .branch .. => true
  | .call .. | .scope .. => false

def apply (loc : Location) (dest : Id) (callee : FunctionDefinition) (operands : List Value) :
    Instruction :=
  .call loc dest none callee (operands.map some)

end Instruction

structure Block where
  index : Int
  scope : Id
  instructions : List Instruction := []
  location : Location := {}
deriving Repr

namespace Block

def terminator? (block : Block) : Option Instruction :=
  block.instructions.getLast?.filter Instruction.isTerminator

def isTerminated (block : Block) : Bool := block.terminator?.isSome

def add (block : Block) (code : List Instruction) : Block :=
  { block with instructions := block.instructions ++ code }

end Block

structure Parameter where
  id : Id
  name : String
  location : Location := {}
deriving DecidableEq, Repr

namespace Parameter

def value (p : Parameter) : Value := .ref p.id

/-- The declared parameter of a name. The implicit first one is not declared, and the
empty name finds none. -/
def declared? (name : String) (parameters : List Parameter) : Option Parameter :=
  if name.isEmpty then none else parameters.tail.find? (·.name == name)

end Parameter

/-- The closures are the function objects that the body creates, in order. -/
structure Function where
  file : String
  definition : FunctionDefinition
  parameters : List Parameter
  blocks : List Block
  closures : List (Id × Option FunctionLink)
deriving Repr

namespace Function

def name (f : Function) : String := f.definition.name

def lookup (f : Function) (name : String) : Outcome (Option Parameter) :=
  if f.parameters.isEmpty && !name.isEmpty then Outcome.fail .undefined
  else .ok (Parameter.declared? name f.parameters)

end Function

end ScopeIR
