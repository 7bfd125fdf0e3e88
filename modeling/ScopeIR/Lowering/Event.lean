import ScopeIR.Code.Value
import ScopeIR.Location
import ScopeIR.Scope.Basic

/-! What a compilation reports about itself. Constructs that are passed over are always
reported, the rest by topic. -/
namespace ScopeIR

inductive Unsupported where
  | statement
  | expression
  | declarationTarget
  | assignmentTarget
  | objectMember
deriving DecidableEq, Repr

inductive Event where
  | unsupported (position : Unsupported) (type : String) (loc : Location) (function : String)
  | processFunction (name : String) (parameters statements : Nat)
  | statement (type function : String)
  | expression (type : String) (ref : Value)
  | createScope (id : Id) (kind : ScopeKind)
  | pushScope (id : Id) (kind : ScopeKind) (depth : Nat)
  | popScope (id : Id) (kind : ScopeKind) (depth : Nat)
  | function (name signature : String) (parameters blocks : Nat)
  | unreachable (function : String) (blocks : List Nat)
deriving Repr

namespace Event

def topic? : Event → Option String
  | .unsupported .. => none
  | .processFunction .. | .statement .. | .expression .. => some "lower"
  | .createScope .. | .pushScope .. | .popScope .. => some "scope"
  | .function .. => some "dump_funcs"
  | .unreachable .. => some "unreachable"

/-- A rule names topics with plus signs between them; a star stands for all. -/
def matchesRule (topic : String) (rule : String) : Bool :=
  (rule.splitOn "+").any fun name => name == "*" || name == topic

/-- Rules are listed with commas between them, and each has a say over those before it.
One that starts with an exclamation mark takes its topics away; a list that starts so
starts from all topics. -/
def isChosen (rules : String) (topic : String) : Bool :=
  (rules.splitOn ",").foldl (fun chosen rule =>
    match rule.toList with
    | '!' :: rule => chosen && !matchesRule topic (String.ofList rule)
    | _ => chosen || matchesRule topic rule) (rules.startsWith "!")

def isShown (rules : String) (event : Event) : Bool :=
  event.topic?.all (isChosen rules)

end Event

end ScopeIR
