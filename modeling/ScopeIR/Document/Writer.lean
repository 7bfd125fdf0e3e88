import ScopeIR.Document.OfFunctions
import ScopeIR.Json.Writer

/-! The JSON text of documents. Fields with nothing in them are left out where the
format allows it; a list that was never filled is `null`. -/
namespace ScopeIR.Document

open JsonText in
mutual

/-- Absent for a number that JSON cannot spell. -/
def literalText? : Literal → Option JsonText
  | .null => some null
  | .bool value => some (bool value)
  | .str text => some (string text)
  | .num value => value.documentText?.map JsonText.scalar
  | .big value => some (string (toString value))
  | .int value => some (int value)
  | .list items => (literalItems? items).map .list
  | .record entries => (literalEntries? entries).map .record

def literalItems? : List Literal → Option (List JsonText)
  | [] => some []
  | item :: rest => do
    let item ← literalText? item
    let items ← literalItems? rest
    return item :: items

def literalEntries? : List (String × Literal) → Option (List (String × JsonText))
  | [] => some []
  | (name, item) :: rest => do
    let item ← literalText? item
    let items ← literalEntries? rest
    return (name, item) :: items

end

abbrev Fields := List (String × JsonText)

def optional {α : Type} (name : String) (item : Option α) (text : α → JsonText) : Fields :=
  match item with
  | some a => [(name, text a)]
  | none => []

def optionalString (name text : String) : Fields :=
  if text.isEmpty then [] else [(name, .string text)]

/-- A text that may be cut off inside a character. -/
def cutText (text : String) (cut : Bool) : JsonText := .scalar (JsonText.quoted text cut)

def optionalCut (name text : String) (cut : Bool) : Fields :=
  if text.isEmpty then [] else [(name, cutText text cut)]

def listOrNull (items : List JsonText) : JsonText :=
  if items.isEmpty then .null else .list items

def valueText? (v : ValueRecord) : Option JsonText := do
  let literal ← match v.literal with
    | .null => some []
    | literal => (literalText? literal).map fun text => [("literal", text)]
  return .record ([("kind", .string v.kind), ("id", .int v.id)] ++ literal ++
    optionalString "type" v.type ++ optional "scope" v.scope .int ++
    optionalString "function" v.function)

def spanText (span : SpanRecord) : JsonText :=
  .record [("line", .int span.line), ("column", .int span.column),
    ("end_line", .int span.endLine), ("end_column", .int span.endColumn)]

def instructionText? (x : InstructionRecord) : Option JsonText := do
  let receiver ← x.receiver.mapM valueText?
  let operands ← x.operands.mapM valueText?
  let value ← x.value.mapM valueText?
  return .record ([("kind", .string x.kind)] ++ optional "dest" x.dest .int ++
    optional "receiver" receiver id ++ optionalCut "callee" x.callee.name x.callee.cut ++
    optionalCut "signature" x.callee.signature x.callee.cut ++
    (if operands.isEmpty then [] else [("operands", .list operands)]) ++
    optional "value" value id ++ optional "target" x.target .int ++
    optional "scope" x.scope .int ++ optional "loc" x.loc spanText)

def blockText? (block : BlockRecord) : Option JsonText := do
  let instructions ← block.instructions.mapM instructionText?
  return .record [("index", .int block.index), ("scope", .int block.scope),
    ("instructions", listOrNull instructions)]

def parameterText (p : ParameterRecord) : JsonText :=
  .record [("id", .int p.id), ("name", .string p.name)]

def functionText? (f : FunctionRecord) : Option JsonText := do
  let blocks ← f.blocks.mapM blockText?
  let closures ← f.closures.mapM valueText?
  return .record ([("name", cutText f.definition.name f.definition.cut),
    ("signature", cutText f.definition.signature f.definition.cut),
    ("parameters", listOrNull (f.parameters.map parameterText)),
    ("blocks", listOrNull blocks)] ++
    (if closures.isEmpty then [] else [("closures", .list closures)]))

def text? (d : Document) : Option JsonText := do
  let functions ← d.functions.mapM functionText?
  return .record [("version", .string d.version), ("file", .string d.file),
    ("functions", .list functions)]

def marshal (file : String) (functions : List Function) : Outcome String := do
  let d ← ofFunctions file functions
  match d.text? with
  | some text => return text.render
  | none => Outcome.failAt ["marshal"] .jsonNumber

end ScopeIR.Document
