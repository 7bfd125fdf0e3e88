import ScopeIR.Dump
import ScopeIR.Lowering.Event

namespace ScopeIR

inductive LogField where
  | text (value : String)
  | number (value : Int)
  | numbers (values : List Nat)
  | value (ref : Value)
  | place (loc : Location)
deriving Repr

def Unsupported.text : Unsupported → String
  | .statement => "statement"
  | .expression => "expression"
  | .declarationTarget => "declaration target"
  | .assignmentTarget => "assignment target"
  | .objectMember => "object member"

namespace Event

def message : Event → String
  | .unsupported position .. => "unsupported " ++ position.text
  | .processFunction .. => "process function"
  | .statement .. => "lower statement"
  | .expression .. => "lower expression"
  | .createScope .. => "create scope"
  | .pushScope .. => "push scope"
  | .popScope .. => "pop scope"
  | .function .. => "function"
  | .unreachable .. => "unreachable blocks"

def kindField (kind : ScopeKind) : String × LogField := ("kind", .text (kind.name?.getD ""))

def fields : Event → List (String × LogField)
  | .unsupported _ type loc owner =>
    [("type", .text type), ("loc", .place loc), ("func", .text owner)]
  | .processFunction name parameters statements =>
    [("name", .text name), ("params", .number parameters), ("stmts", .number statements)]
  | .statement type owner => [("type", .text type), ("func", .text owner)]
  | .expression type ref => [("type", .text type), ("ref", .value ref)]
  | .createScope id kind => [("id", .number id), kindField kind]
  | .pushScope id kind depth | .popScope id kind depth =>
    [("id", .number id), kindField kind, ("depth", .number depth)]
  | .function name signature parameters blocks =>
    [("name", .text name), ("signature", .text signature), ("params", .number parameters),
      ("blocks", .number blocks)]
  | .unreachable owner blocks => [("func", .text owner), ("blocks", .numbers blocks)]

end Event

def LogField.show : LogField → String
  | .text s => Text.quote s
  | .number n => toString n
  | .numbers values => "[" ++ " ".intercalate (values.map toString) ++ "]"
  | .value ref => ref.text
  | .place loc => toString loc.start.line ++ ":" ++ toString loc.start.column

def Event.line (event : Event) : String :=
  "  ".intercalate (event.message ::
    event.fields.map fun (name, field) => name ++ "=" ++ field.show) ++ "\n"

end ScopeIR
