import ScopeIR.Code.Function

namespace ScopeIR

/-- The implicit parameter is not counted; constants are those passed to calls, null
apart. -/
structure Stats where
  name : String
  parameters : Int
  blocks : Nat
  instructions : Nat
  calls : Nat
  primitives : Nat
  constants : Nat
  closures : Nat
deriving DecidableEq, Repr

namespace Stats

def isConstant : Option Value → Bool
  | some (.const c) => !(Value.const c).isNull
  | _ => false

def callee? : Instruction → Option FunctionDefinition
  | .call _ _ _ callee _ => some callee
  | _ => none

def operands : Instruction → List (Option Value)
  | .call _ _ _ _ operands => operands
  | _ => []

def ofFunction (f : Function) : Stats :=
  let code := f.blocks.flatMap Block.instructions
  let callees := code.filterMap callee?
  { name := f.definition.shownName
    parameters := (f.parameters.length : Int) - 1
    blocks := f.blocks.length
    instructions := code.length
    calls := callees.length
    primitives := callees.countP FunctionDefinition.isPrimitive
    constants := (code.flatMap operands).countP isConstant
    closures := f.closures.length }

end Stats

end ScopeIR
