import ScopeIR.Document.Basic
import ScopeIR.Number.Digits
import ScopeIR.Text.Quoted

/-! Functions rebuilt from documents. References to functions go by signature within the
document; of functions with one signature the last one is meant. -/
namespace ScopeIR.Document

def malformed {α : Type} (context : String) : Outcome α :=
  Outcome.failAt [context] .malformedDocument

def linkOf? (functions : List FunctionRecord) (signature : String) : Option FunctionLink :=
  (functions.zipIdx.reverse.find? fun (f, _) => f.definition.signature == signature).map
    fun (f, position) => ⟨f.definition, some position⟩

/-- Literals that a document leaves out. -/
def zeroLiteral (kind : TypeKind) : Literal :=
  if kind = TypeKind.number then .num .zero
  else if kind = TypeKind.boolean then .bool false
  else .str ""

def constantLiteral (kind : TypeKind) : Literal → Outcome Literal
  | .null => .ok (zeroLiteral kind)
  | literal =>
    if kind = TypeKind.bigint then
      match literal with
      | .str text => match signedInt? text with
        | some value => .ok (.big value)
        | none => malformed ("bigint literal " ++ Text.quote text)
      | other => malformed ("bigint literal " ++ other.plainText)
    else .ok literal

def valueOf (functions : List FunctionRecord) (v : ValueRecord) : Outcome Value :=
  if v.kind = referenceKind then .ok (.ref v.id)
  else if v.kind = scopeKind then
    match v.scope with
    | some scope => .ok (.scope v.id scope)
    | none => malformed "scope value without scope"
  else if v.kind = functionKind then
    match linkOf? functions v.function with
    | some link => .ok (.func v.id (some link))
    | none => malformed ("unknown function " ++ Text.quote v.function)
  else if v.kind = nullKind then .ok .null
  else if v.kind = constantKind then do
    let literal ← constantLiteral v.type v.literal
    return .const ⟨v.id, literal, .ofKind v.type⟩
  else malformed ("value kind " ++ Text.quote v.kind)

def locationOf : Option SpanRecord → Location
  | some span => ⟨⟨span.line, span.column⟩, ⟨span.endLine, span.endColumn⟩⟩
  | none => {}

def operandsOf (functions : List FunctionRecord) (i : Nat) :
    List ValueRecord → Outcome (List Value)
  | [] => .ok []
  | v :: rest => do
    let value ← (valueOf functions v).within ("operand " ++ toString i)
    return value :: (← operandsOf functions (i + 1) rest)

/-- Branches lead to one of the blocks of the function, of which there are `count`. -/
def instructionOf (functions : List FunctionRecord) (count : Nat) (x : InstructionRecord) :
    Outcome Instruction :=
  let loc := locationOf x.loc
  if x.kind = callKind then
    match x.dest with
    | some dest => do
      let receiver ← Outcome.within "receiver" (x.receiver.mapM (valueOf functions))
      let operands ← operandsOf functions 0 x.operands
      return .call loc dest receiver x.callee (operands.map some)
    | none => malformed "call without dest"
  else if x.kind = returnKind then
    match x.value with
    | some v => do
      let value ← (valueOf functions v).within "return"
      return .ret loc (some value)
    | none => malformed "return without value"
  else if x.kind = branchKind then
    match x.target with
    | some target =>
      if 0 ≤ target ∧ target < count then .ok (.branch loc (some (.own target.toNat)))
      else malformed "branch target"
    | none => malformed "branch target"
  else if x.kind = scopeStepKind then
    match x.scope with
    | some scope => .ok (.scope loc scope)
    | none => malformed "scope declaration without scope"
  else malformed ("instruction kind " ++ Text.quote x.kind)

def requireIndexes (position : Nat) : List BlockRecord → Outcome Unit
  | [] => .ok ()
  | block :: rest =>
    if block.index = position then requireIndexes (position + 1) rest
    else malformed ("block " ++ toString block.index ++ " at position " ++ toString position)

def instructionsOf (functions : List FunctionRecord) (count block position : Nat) :
    List InstructionRecord → Outcome (List Instruction)
  | [] => .ok []
  | x :: rest => do
    let instruction ← (instructionOf functions count x).within
      ("block " ++ toString block ++ " instruction " ++ toString position)
    return instruction :: (← instructionsOf functions count block (position + 1) rest)

def blocksOf (functions : List FunctionRecord) (count position : Nat) :
    List BlockRecord → Outcome (List Block)
  | [] => .ok []
  | record :: rest => do
    let instructions ← instructionsOf functions count position 0 record.instructions
    let block : Block := { index := record.index, scope := record.scope, instructions }
    return block :: (← blocksOf functions count (position + 1) rest)

def closureOf (functions : List FunctionRecord) (v : ValueRecord) :
    Outcome (Id × Option FunctionLink) := do
  match ← (valueOf functions v).within "closure" with
  | .func id link => return (id, link)
  | _ => malformed ("closure of kind " ++ v.kind)

def functionOf (file : String) (functions : List FunctionRecord) (f : FunctionRecord) :
    Outcome Function := do
  requireIndexes 0 f.blocks
  let blocks ← blocksOf functions f.blocks.length 0 f.blocks
  let closures ← f.closures.mapM (closureOf functions)
  return {
    file
    definition := f.definition
    parameters := f.parameters.map fun p => { id := p.id, name := p.name }
    blocks
    closures }

def decode (d : Document) : Outcome (List Function) :=
  d.functions.mapM fun f =>
    (functionOf d.file d.functions f).within ("func " ++ f.definition.shownName)

end ScopeIR.Document
