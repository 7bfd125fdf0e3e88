import ScopeIR.Document.Basic

namespace ScopeIR.Document

/-- Big integers are kept as their digits. -/
def literalOf : Literal → Literal
  | .big value => .str (toString value)
  | other => other

def valueRecord : Value → ValueRecord
  | .ref id => { kind := referenceKind, id }
  | .scope id scope => { kind := scopeKind, id, scope := some scope }
  | .func id link => {
      kind := functionKind
      id
      function := match link with
        | some link => link.definition.signature
        | none => "" }
  | .const c =>
    if (Value.const c).isNull then { kind := nullKind, id := c.id }
    else { kind := constantKind, id := c.id, literal := literalOf c.literal, type := c.type.kind }

/-- An absent value has a kind of its own, which no reader knows. -/
def operandRecord : Option Value → ValueRecord
  | some value => valueRecord value
  | none => { kind := "<nil>", id := noId }

def spanRecord (loc : Location) : Option SpanRecord :=
  if loc = {} then none
  else some ⟨loc.start.line, loc.start.column, loc.stop.line, loc.stop.column⟩

/-- A branch without a target has no record. -/
def instructionRecord : Instruction → Outcome InstructionRecord
  | .call loc dest receiver callee operands => .ok {
      kind := callKind
      dest := some dest
      receiver := receiver.map valueRecord
      callee
      operands := operands.map operandRecord
      loc := spanRecord loc }
  | .ret loc value => .ok {
      kind := returnKind
      value := some (operandRecord value)
      loc := spanRecord loc }
  | .branch loc (some target) => .ok {
      kind := branchKind
      target := some target.index
      loc := spanRecord loc }
  | .branch _ none => Outcome.fail .undefined
  | .scope loc id => .ok { kind := scopeStepKind, scope := some id, loc := spanRecord loc }

def blockRecord (block : Block) : Outcome BlockRecord := do
  return {
    index := block.index
    scope := block.scope
    instructions := ← block.instructions.mapM instructionRecord }

def functionRecord (f : Function) : Outcome FunctionRecord := do
  return {
    definition := f.definition
    parameters := f.parameters.map fun p => ⟨p.id, p.name⟩
    blocks := ← f.blocks.mapM blockRecord
    closures := f.closures.map fun (id, link) => valueRecord (.func id link) }

def ofFunctions (file : String) (functions : List Function) : Outcome Document := do
  return { version := currentVersion, file, functions := ← functions.mapM functionRecord }

end ScopeIR.Document
