import ScopeIR.Document.Basic
import ScopeIR.Document.Version
import ScopeIR.Json.Reader
import ScopeIR.Json.Record

namespace ScopeIR.Document

open Json

/-- The last literal counts, an absent one too. -/
def readLiteral (history : History) : Outcome Literal :=
  history.foldlM (fun _ json =>
    match Literal.ofJson? json with
    | some literal => .ok literal
    | none => mismatch) .null

def readValue (history : History) : Outcome ValueRecord := do
  let said := historyOf (← readMembers history)
  return {
    kind := ← readString (said "kind")
    id := ← readInt (said "id")
    literal := ← readLiteral (said "literal")
    type := ← readString (said "type")
    scope := ← readOption readInt (said "scope")
    function := ← readString (said "function") }

def readSpan (history : History) : Outcome SpanRecord := do
  let said := historyOf (← readMembers history)
  return {
    line := ← readInt (said "line")
    column := ← readInt (said "column")
    endLine := ← readInt (said "end_line")
    endColumn := ← readInt (said "end_column") }

def readInstruction (history : History) : Outcome InstructionRecord := do
  let said := historyOf (← readMembers history)
  return {
    kind := ← readString (said "kind")
    dest := ← readOption readInt (said "dest")
    receiver := ← readOption readValue (said "receiver")
    callee := ⟨← readString (said "callee"), ← readString (said "signature"), false⟩
    operands := ← readList readValue (said "operands")
    value := ← readOption readValue (said "value")
    target := ← readOption readInt (said "target")
    scope := ← readOption readInt (said "scope")
    loc := ← readOption readSpan (said "loc") }

def readBlock (history : History) : Outcome BlockRecord := do
  let said := historyOf (← readMembers history)
  return {
    index := ← readInt (said "index")
    scope := ← readInt (said "scope")
    instructions := ← readList readInstruction (said "instructions") }

def readParameter (history : History) : Outcome ParameterRecord := do
  let said := historyOf (← readMembers history)
  return {
    id := ← readInt (said "id")
    name := ← readString (said "name") }

def readFunction (history : History) : Outcome FunctionRecord := do
  let said := historyOf (← readMembers history)
  return {
    definition := ⟨← readString (said "name"), ← readString (said "signature"), false⟩
    parameters := ← readList readParameter (said "parameters")
    blocks := ← readList readBlock (said "blocks")
    closures := ← readList readValue (said "closures") }

def read (history : History) : Outcome Document := do
  let said := historyOf (← readMembers history)
  return {
    version := ← readString (said "version")
    file := ← readString (said "file")
    functions := ← readList readFunction (said "functions") }

def load (text : String) : Outcome Document := do
  let d ← Outcome.within "unmarshal" <|
    match parse? text.toList with
    | some json => read [json]
    | none => Outcome.fail .jsonSyntax
  Version.check d.version
  return d

end ScopeIR.Document
