import ScopeIR.Lowering.Names

/-! Lowering of syntax trees: statements add code to the current block, expressions
return their code. -/
namespace ScopeIR

def mainName : String := "main"

namespace Lower

structure Modified where
  code : List Instruction
  old : Value
  new : Value

/-- Object and key of the place are computed once. -/
def modifyPlace (place : Place) (combine : Value → Lower Lowered) : Lower Modified := do
  let old ← load place
  let new ← combine old.value
  let write ← store place new.value
  return ⟨place.code ++ old.code ++ new.code ++ write, old.value, new.value⟩

def assignTarget (target : Node) (value ref : Value) : Lower (List Instruction) := do
  match target with
  | .identifier loc name => assignIdentifier name value ref loc
  | .missing => fail ["assignment without target"] .malformedTree
  | other =>
    passOver .assignmentTarget other.typeName other.location
    return []

def modifyTarget (target : Node) (read : Lower Lowered) (ref : Value)
    (combine : Value → Lower Lowered) : Lower Modified := do
  let old ← read
  let new ← combine old.value
  enter (.assign ref)
  let write ← assignTarget target new.value ref
  return ⟨old.code ++ new.code ++ write, old.value, new.value⟩

def declareTarget (target : Node) (value ref : Value) : Lower (List Instruction) := do
  match target with
  | .identifier loc name => declareField name value ref loc
  | other =>
    passOver .declarationTarget other.typeName other.location
    return []

/-- A member target from its two operands; the property is computed only if it does not
fix a name. -/
def placeOf (loc : Location) (object property : Node) (computed : Bool)
    (lowerObject lowerProperty : Lower Lowered) : Lower Place := do
  if object.isMissing || property.isMissing then
    fail ["member expression without operand"] .malformedTree
  let base ← lowerObject.within "object"
  match property.staticName? computed with
  | some name => return ⟨base.code, base.value, .name name, loc⟩
  | none =>
    let key ← lowerProperty.within "property"
    return ⟨base.code ++ key.code, base.value, .computed key.value, loc⟩

def addClosure (id : Id) (link : FunctionLink) : Lower Unit :=
  modifyFrame fun f => { f with closures := f.closures ++ [(id, some link)] }

/-- Only identifiers name a parameter. -/
def parameters : List Node → Lower (List Parameter)
  | [] => return []
  | node :: rest => do
    let id ← fresh
    let name := match node with
      | .identifier _ name => name
      | _ => ""
    return { id, name, location := node.location } :: (← parameters rest)

/-- Parameters are fields of the activation record too, so that closures find them. -/
def bindParameters (scope : Id) : List Parameter → Lower Unit
  | [] => return ()
  | p :: rest => do
    if !p.name.isEmpty then
      assign scope p.name p.value
      let id ← fresh
      append [.apply p.location id (.setField p.name) [.ofScope scope, p.value]]
    bindParameters scope rest

/-- Enters a function after the blocks that precede its entry. The entry block declares the
activation record and links it to the environment that the implicit parameter holds. -/
def enterFunction (definition : FunctionDefinition) (params : List Node) (loc : Location)
    (before : List Block) : Lower (Id × List Parameter) := do
  let parent : Parameter := { id := ← fresh, name := parentName, location := loc }
  let declared ← parameters params
  let scope ← createScope .function
  modifyFrame fun _ => { definition, parameters := parent :: declared, blocks := before }
  if !before.isEmpty then branchToNext loc
  startBlock scope loc
  pushScope scope .function
  append [.scope loc scope]
  let id ← fresh
  append [.apply loc id (.setField parentName) [.ofScope scope, parent.value]]
  return (scope, declared)

def finishFunction (loc : Location) (outer : Frame) : Lower Nat := do
  let last ← currentBlock
  if !last.isTerminated then append [.ret loc (some .null)]
  let position := (← get).functions.length
  modify fun s =>
    let finished : Function := {
      file := s.file
      definition := s.frame.definition
      parameters := s.frame.parameters
      blocks := s.frame.blocks.reverse
      closures := s.frame.closures }
    { s with functions := s.functions ++ [finished], frame := outer }
  return position

/-- Lowers a function whose body is the given step. It joins the output after all functions
nested in it. -/
def function (name : String) (params : List Node) (statements : Nat) (loc : Location)
    (before : List Block) (body : Lower Unit) : Lower FunctionLink := do
  report (.processFunction name params.length statements)
  let outer := (← get).frame
  let definition := FunctionDefinition.user name (← get).file
  let (scope, declared) ← enterFunction definition params loc before
  bindParameters scope declared
  body.within ("function " ++ name)
  let position ← finishFunction loc outer
  popScope
  return { definition, position := some position }

def nestedName (id : Id) : Lower String := return (← functionName) ++ "__" ++ toString id

def functionObject (params : List Node) (statements : Nat) (loc : Location)
    (body : Lower Unit) : Lower Lowered := do
  let id ← fresh
  let link ← function (← nestedName id) params statements loc [] body
  addClosure id link
  return { code := [.apply loc id .newObject []], value := .func id (some link) }

/-- A call of a known function passes the innermost environment and exactly its declared
parameters; any other value is called through the calling primitive. -/
def callOf (loc : Location) (callee : Value) (arguments : List Value) : Lower Lowered := do
  let env := Value.ofScope (← environment)
  let id ← fresh
  match callee with
  | .func _ link =>
    let link ← require link
    let position ← require link.position
    let target ← require (← get).functions[position]?
    let passed := (List.range (target.parameters.length - 1)).map fun i => arguments.getD i .null
    return { code := [.apply loc id link.definition (env :: passed)], value := .ref id }
  | _ =>
    return { code := [.apply loc id .callDynamic (callee :: env :: arguments)], value := .ref id }

def returnValue (loc : Location) (argument : Lower Lowered) : Lower Unit := do
  let e ← argument.within "return"
  emit loc (e.code ++ [.ret loc (some e.value)])

/-- Enters a block, which has a scope of its own that is linked to the scope around it. -/
def enterBlock (loc : Location) (parent : Id) : Lower Unit := do
  let scope ← createScope .block
  pushScope scope .block
  branchToNext loc
  startBlock scope loc
  let id ← fresh
  append [.apply loc scope .newObject [],
    .apply loc id (.setField parentName) [.ofScope scope, .ofScope parent]]

/-- Goes on in the scope around a block, unless the block returned. -/
def leaveBlock (loc : Location) : Lower Unit := do
  popScope
  let last ← currentBlock
  if !last.isTerminated then
    branchToNext loc
    startBlock (← currentScope) loc

def compoundPart (operator : String) : String :=
  match operator.toList.reverse with
  | '=' :: rest => String.ofList rest.reverse
  | _ => operator

def operation (loc : Location) (definition : FunctionDefinition) (operands : List (Lower Lowered)) :
    Lower Lowered := do
  let (code, values) ← run 0 operands
  let id ← fresh
  return { code := code ++ [.apply loc id definition values], value := .ref id }
where
  run (i : Nat) : List (Lower Lowered) → Lower (List Instruction × List Value)
    | [] => return ([], [])
    | operand :: rest => do
      let e ← operand.within (definition.name ++ " operand " ++ toString i)
      let (code, values) ← run (i + 1) rest
      return (e.code ++ code, e.value :: values)

def updateStep (loc : Location) (operator : String) (old : Value) : Lower Lowered := do
  let one ← constant .number (.num .one) loc
  let id ← fresh
  return {
    code := one.code ++ [.apply loc id (.leadingOperator operator) [old, one.value]]
    value := .ref id }

def compoundStep (loc : Location) (operator : String) (right old : Value) : Lower Lowered := do
  let id ← fresh
  return { code := [.apply loc id (.compoundOperator operator) [old, right]], value := .ref id }

mutual

/-- Names are read from the object `ref`; the innermost scope stands for lexical
resolution. -/
def expression (node : Node) (ref : Value) : Lower Lowered := do
  enter (.expression node.typeName ref)
  match node with
  | .identifier loc name => identifier name ref loc
  | .literal loc source => literal source loc
  | .assignment loc operator left right =>
    if left.isMissing || right.isMissing then
      fail ["assignment without operand"] .malformedTree
    let r ← (expression right ref).within "right"
    let op := compoundPart operator
    if op.isEmpty then
      enter (.assign ref)
      let write ← match ← memberPlace left ref with
        | some place => do
          let write ← store place r.value
          pure (place.code ++ write)
        | none => assignTarget left r.value ref
      return { code := r.code ++ write, value := r.value }
    else
      let m ← Lower.within "left" do
        enter (.modify ref)
        match ← memberPlace left ref with
        | some place => modifyPlace place (compoundStep loc op r.value)
        | none => modifyTarget left (expression left ref) ref (compoundStep loc op r.value)
      return { code := r.code ++ m.code, value := m.new }
  | .call loc callee args _ =>
    if callee.isMissing then fail ["call without callee"] .malformedTree
    let (code, values) ← arguments 0 args ref
    let target ← (expression callee ref).within "callee"
    enter (.call target.value)
    let result ← callOf loc target.value values
    return { result with code := code ++ target.code ++ result.code }
  | .member loc object property computed _ =>
    let place ← placeOf loc object property computed (expression object ref)
      (expression property ref)
    let e ← load place
    return { e with code := place.code ++ e.code }
  | .chain _ inner => expression inner ref
  | .object loc properties =>
    let id ← createScope .object
    pushScope id .object
    let code ← members properties (.ofScope id)
    popScope
    return { code := .apply loc id .newObject [] :: code, value := .ofScope id }
  | .array loc items =>
    let id ← createScope .object
    let code ← elements 0 items (.ofScope id) ref
    return { code := .apply loc id .newObject [] :: code, value := .ofScope id }
  | .functionExpression loc _ params (.blockStatement _ body) =>
    functionObject params body.length loc (statements body)
  | .functionExpression .. => fail ["function expression without body"] .malformedTree
  | .arrowFunction _ _ .missing _ => fail ["arrow function without body"] .malformedTree
  | .arrowFunction loc params (.blockStatement _ body) _ =>
    functionObject params body.length loc (statements body)
  | .arrowFunction loc params body _ =>
    functionObject params 1 loc do
      enter (.statement "ReturnStatement")
      returnValue body.location (expression body (.ofScope (← currentScope)))
  | .unary loc operator _ argument =>
    operation loc (.unaryOperator operator) [expression argument ref]
  | .binary loc operator left right =>
    operation loc (.binaryOperator operator) [expression left ref, expression right ref]
  | .logical loc operator left right =>
    operation loc (.logicalOperator operator) [expression left ref, expression right ref]
  | .conditional loc test consequent alternate =>
    operation loc .conditional
      [expression test ref, expression consequent ref, expression alternate ref]
  | .update loc operator prefixed argument =>
    if argument.isMissing || operator.utf8ByteSize != 2 then
      fail ["update " ++ Text.quote operator] .malformedTree
    let m ← Lower.within "operand" do
      enter (.modify ref)
      match ← memberPlace argument ref with
      | some place => modifyPlace place (updateStep loc operator)
      | none => modifyTarget argument (expression argument ref) ref (updateStep loc operator)
    return { code := m.code, value := if prefixed then m.new else m.old }
  | .missing => fail ["missing expression"] .malformedTree
  | other =>
    passOver .expression other.typeName other.location
    return { value := .null }

def memberPlace (node : Node) (ref : Value) : Lower (Option Place) :=
  match node with
  | .member loc object property computed _ =>
    some <$> placeOf loc object property computed (expression object ref)
      (expression property ref)
  | _ => return none

/-- Arguments from the given position on. One whose value is known needs no code. -/
def arguments (i : Nat) (nodes : List Node) (ref : Value) :
    Lower (List Instruction × List Value) :=
  match nodes with
  | [] => return ([], [])
  | node :: rest => do
    enter (.known ref)
    let e ← match ← knownArgument node ref with
      | some value => pure { value }
      | none => (expression node ref).within ("argument " ++ toString i)
    let (code, values) ← arguments (i + 1) rest ref
    return (e.code ++ code, e.value :: values)

def members (nodes : List Node) (object : Value) : Lower (List Instruction) :=
  match nodes with
  | [] => return []
  | .property loc key value _ computed _ _ :: rest => do
    if key.isMissing || value.isMissing then
      fail ["property without key or value"] .malformedTree
    if value.isPlaceholder then
      fail ["object property value " ++ value.typeName ++ " at " ++ toString loc.start.line ++
        ":" ++ toString loc.start.column] .unsupportedConstruct
    let code ← match key.staticName? computed with
      | some name => do
        let v ← (expression value object).within ("property " ++ name)
        let write ← declareField name v.value object loc
        pure (v.code ++ write)
      | none => do
        let k ← (expression key object).within "property key"
        let v ← (expression value object).within "computed property"
        let id ← fresh
        pure (k.code ++ v.code ++ [.apply loc id .setFieldDynamic [object, k.value, v.value]])
    return code ++ (← members rest object)
  | other :: rest => do
    passOver .objectMember other.typeName other.location
    members rest object

/-- The elements of an array from the given position on; holes have no field. -/
def elements (i : Nat) (nodes : List Node) (array ref : Value) : Lower (List Instruction) :=
  match nodes with
  | [] => return []
  | .missing :: rest => elements (i + 1) rest array ref
  | node :: rest => do
    let v ← (expression node ref).within ("element " ++ toString i)
    let write ← declareField (toString i) v.value array node.location
    return v.code ++ write ++ (← elements (i + 1) rest array ref)

def statement (node : Node) : Lower Unit := do
  enter (.statement node.typeName)
  match node with
  | .variableDeclaration loc _ declarations =>
    let code ← declarators declarations (.ofScope (← currentScope))
    emit loc code
  | .functionDeclaration loc (.identifier _ name) params (.blockStatement _ body) =>
    let scope ← currentScope
    declare scope name
    let id ← fresh
    let enclosing ← functionName
    let nested ← nestedName id
    let link ← function (if enclosing = mainName then name else nested) params body.length loc []
      (statements body)
    addClosure id link
    let write ← fresh
    let value := Value.func id (some link)
    emit loc [.apply loc id .newObject [],
      .apply loc write (.setField name) [.ofScope scope, value]]
    assign scope name value
  | .functionDeclaration .. => fail ["function declaration without name or body"] .malformedTree
  | .returnStatement loc .missing => emit loc [.ret loc (some .null)]
  | .returnStatement loc argument =>
    returnValue loc (expression argument (.ofScope (← currentScope)))
  | .expressionStatement _ .missing =>
    fail ["expression statement without expression"] .malformedTree
  | .expressionStatement loc e =>
    let lowered ← expression e (.ofScope (← currentScope))
    emit loc lowered.code
  | .blockStatement loc body =>
    let parent ← currentScope
    ensureOpen loc
    enterBlock loc parent
    statements body
    leaveBlock loc
  | .emptyStatement _ => return ()
  | .missing => fail ["null statement"] .malformedTree
  | other => passOver .statement other.typeName other.location

def statements (nodes : List Node) : Lower Unit :=
  match nodes with
  | [] => return ()
  | node :: rest => do
    statement node
    statements rest

def declarators (nodes : List Node) (ref : Value) : Lower (List Instruction) :=
  match nodes with
  | [] => return []
  | .variableDeclarator _ id init :: rest => do
    if id.isMissing then fail ["declarator without target"] .malformedTree
    let e ← if init.isMissing then pure { value := .null }
      else (expression init ref).within "declarator"
    let write ← declareTarget id e.value ref
    return e.code ++ write ++ (← declarators rest ref)
  | _ :: _ => fail ["declarator without target"] .malformedTree

end

end Lower

end ScopeIR
