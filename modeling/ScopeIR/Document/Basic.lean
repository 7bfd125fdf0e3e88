import ScopeIR.Code.Function

/-! The serialised form of functions. Records hold what a document says, complete or
not; fields that may be left out are optional. -/
namespace ScopeIR.Document

/-- The null literal stands for an absent one. -/
structure ValueRecord where
  kind : String := ""
  id : Id := 0
  literal : Literal := .null
  type : String := ""
  scope : Option Id := none
  function : String := ""
deriving Repr

structure SpanRecord where
  line : Int := 0
  column : Int := 0
  endLine : Int := 0
  endColumn : Int := 0
deriving DecidableEq, Repr

structure InstructionRecord where
  kind : String := ""
  dest : Option Id := none
  receiver : Option ValueRecord := none
  callee : FunctionDefinition := ⟨"", "", false⟩
  operands : List ValueRecord := []
  value : Option ValueRecord := none
  target : Option Int := none
  scope : Option Id := none
  loc : Option SpanRecord := none
deriving Repr

structure BlockRecord where
  index : Int := 0
  scope : Id := 0
  instructions : List InstructionRecord := []
deriving Repr

structure ParameterRecord where
  id : Id := 0
  name : String := ""
deriving DecidableEq, Repr

structure FunctionRecord where
  definition : FunctionDefinition := ⟨"", "", false⟩
  parameters : List ParameterRecord := []
  blocks : List BlockRecord := []
  closures : List ValueRecord := []
deriving Repr

end ScopeIR.Document

namespace ScopeIR

structure Document where
  version : String := ""
  file : String := ""
  functions : List Document.FunctionRecord := []
deriving Repr

namespace Document

def currentVersion : String := "1.0.0"

def referenceKind : String := "reference"
def constantKind : String := "constant"
def scopeKind : String := "scope"
def functionKind : String := "function"
def nullKind : String := "null"

def callKind : String := "call"
def returnKind : String := "return"
def branchKind : String := "branch"
def scopeStepKind : String := "scope"

end Document

end ScopeIR
