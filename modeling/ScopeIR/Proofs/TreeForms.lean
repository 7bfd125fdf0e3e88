import Mathlib.Data.List.Forall2
import ScopeIR.Proofs.JsonRecords
import ScopeIR.Syntax.Reader

/-! The JSON forms of a syntax tree. Each field of a node stands under its ESTree key, what is
absent is `null` or left out, and keys that the node does not have may be added. -/
namespace ScopeIR

namespace Json

/-- Under a name the members have the value and no other, or nothing if that is `null`. Names
are told apart after folding. -/
def Says (fold : String → String) (members : List (String × Json)) (name : String)
    (value : Json) : Prop :=
  (∃ before after, members = before ++ (name, value) :: after ∧
    ∀ other ∈ before ++ after, fold other.1 ≠ name) ∨
  value = .null ∧ ∀ other ∈ members, fold other.1 ≠ name

def IsText (text : String) (json : Json) : Prop := json = .str text ∨ json = .null ∧ text = ""

def IsFlag (flag : Bool) (json : Json) : Prop := json = .bool flag ∨ json = .null ∧ flag = false

def IsInt (i : Int) (json : Json) : Prop :=
  (∃ n, json = .num n ∧ n.int? = some i) ∨ json = .null ∧ i = 0

/-- A record whose fields are all blank may be `null`. Its keys are read without regard to
case, so that an added key differs from them in more than case. -/
def IsRecord (fields : List (String × (Json → Prop))) (json : Json) : Prop :=
  ∃ members, (json = .obj members ∨ json = .null ∧ members = []) ∧
    ∀ field ∈ fields, ∃ value, Says foldName members field.1 value ∧ field.2 value

end Json

def Position.Form (p : Position) : Json → Prop :=
  Json.IsRecord [("line", Json.IsInt p.line), ("column", Json.IsInt p.column)]

def Location.Form (loc : Location) : Json → Prop :=
  Json.IsRecord [("start", loc.start.Form), ("end", loc.stop.Form)]

def RegExp.Form (regex : RegExp) (json : Json) : Prop :=
  Json.IsRecord [("pattern", Json.IsText regex.pattern), ("flags", Json.IsText regex.flags)] json ∧
    json ≠ .null

inductive Literal.Form : Literal → Json → Prop
  | null : Form .null .null
  | bool (value : Bool) : Form (.bool value) (.bool value)
  | str (text : String) : Form (.str text) (.str text)
  | num {x : Binary64} {n : Numeral} (h : n.binary64? = some x) : Form (.num x) (.num n)

inductive Slot where
  | text (text : String)
  | flag (flag : Bool)
  | regex (regex : Option RegExp)
  | value (value : Literal)
  | child (node : Node)
  | items (nodes : List Node)

inductive Slot.Form (P : Node → Json → Prop) : Slot → Json → Prop
  | text {text : String} {json : Json} : Json.IsText text json → Form P (.text text) json
  | flag {flag : Bool} {json : Json} : Json.IsFlag flag json → Form P (.flag flag) json
  | noRegex : Form P (.regex none) .null
  | regex {regex : RegExp} {json : Json} : regex.Form json → Form P (.regex (some regex)) json
  | value {value : Literal} {json : Json} : value.Form json → Form P (.value value) json
  | child {node : Node} {json : Json} : P node json → Form P (.child node) json
  | noItems : Form P (.items []) .null
  | items {nodes : List Node} {jsons : List Json} :
      List.Forall₂ P nodes jsons → Form P (.items nodes) (.arr jsons)

def LiteralSource.isPlain (source : LiteralSource) : Bool :=
  source.regex.isNone && source.bigint.isEmpty

namespace Node

/-- The fields of a node under their ESTree keys. -/
def slots : Node → List (String × Slot)
  | .missing | .emptyStatement _ | .unknown .. => []
  | .program _ sourceType body => [("sourceType", .text sourceType), ("body", .items body)]
  | .identifier _ name => [("name", .text name)]
  | .literal _ source =>
    [("raw", .text source.raw), ("bigint", .text source.bigint), ("regex", .regex source.regex)] ++
      if source.isPlain then [("value", .value source.value)] else []
  | .variableDeclaration _ kind declarations =>
    [("kind", .text kind), ("declarations", .items declarations)]
  | .variableDeclarator _ id init => [("id", .child id), ("init", .child init)]
  | .functionDeclaration _ id params body | .functionExpression _ id params body =>
    [("id", .child id), ("params", .items params), ("body", .child body)]
  | .arrowFunction _ params body expression =>
    [("params", .items params), ("body", .child body), ("expression", .flag expression)]
  | .returnStatement _ argument | .spread _ argument | .restElement _ argument =>
    [("argument", .child argument)]
  | .expressionStatement _ expression | .chain _ expression => [("expression", .child expression)]
  | .blockStatement _ body => [("body", .items body)]
  | .assignment _ operator left right | .binary _ operator left right
  | .logical _ operator left right =>
    [("operator", .text operator), ("left", .child left), ("right", .child right)]
  | .assignmentPattern _ left right => [("left", .child left), ("right", .child right)]
  | .call _ callee arguments optional =>
    [("callee", .child callee), ("arguments", .items arguments), ("optional", .flag optional)]
  | .member _ obj prop computed optional =>
    [("object", .child obj), ("property", .child prop), ("computed", .flag computed),
      ("optional", .flag optional)]
  | .object _ properties => [("properties", .items properties)]
  | .property _ key value kind computed method shorthand =>
    [("key", .child key), ("value", .child value), ("kind", .text kind),
      ("computed", .flag computed), ("method", .flag method), ("shorthand", .flag shorthand)]
  | .array _ elements => [("elements", .items elements)]
  | .unary _ operator prefixed argument | .update _ operator prefixed argument =>
    [("operator", .text operator), ("prefix", .flag prefixed), ("argument", .child argument)]
  | .conditional _ test consequent alternate =>
    [("test", .child test), ("consequent", .child consequent), ("alternate", .child alternate)]

def modelledTypes : List String :=
  ["Program", "Identifier", "Literal", "VariableDeclaration", "VariableDeclarator",
    "FunctionDeclaration", "FunctionExpression", "ArrowFunctionExpression", "ReturnStatement",
    "ExpressionStatement", "BlockStatement", "EmptyStatement", "AssignmentExpression",
    "CallExpression", "MemberExpression", "ChainExpression", "ObjectExpression", "Property",
    "ArrayExpression", "SpreadElement", "UnaryExpression", "UpdateExpression", "BinaryExpression",
    "LogicalExpression", "ConditionalExpression", "AssignmentPattern", "RestElement"]

def isDeclarator : Node → Bool
  | .variableDeclarator .. => true
  | _ => false

def isName : Node → Bool
  | .missing | .identifier .. => true
  | _ => false

def isBody : Node → Bool
  | .missing | .blockStatement .. => true
  | _ => false

def IsRegular : Node → Prop
  | .missing => False
  | .literal _ source => source.isPlain ∨ source.value = .null
  | .variableDeclaration _ _ declarations => ∀ node ∈ declarations, node.isDeclarator
  | .functionDeclaration _ id _ body | .functionExpression _ id _ body => id.isName ∧ body.isBody
  | .unknown _ type => type ≠ "" ∧ type ∉ modelledTypes
  | _ => True

/-- The JSON values that stand for a tree; `said` is what is written under each key. -/
inductive Form : Node → Json → Prop
  | missing : Form .missing .null
  | node {node : Node} {members : Members} (said : String → Json) (regular : node.IsRegular)
      (type : Json.Says id members "type" (.str node.typeName))
      (loc : Json.Says id members "loc" (said "loc")) (located : node.location.Form (said "loc"))
      (stated : ∀ slot ∈ node.slots, Json.Says id members slot.1 (said slot.1))
      (forms : ∀ slot ∈ node.slots, Slot.Form Form slot.2 (said slot.1)) :
      Form node (.obj members)

mutual

def depth : Node → Nat
  | .missing => 0
  | .identifier .. | .literal .. | .emptyStatement _ | .unknown .. => 1
  | .program _ _ nodes | .variableDeclaration _ _ nodes | .blockStatement _ nodes
  | .object _ nodes | .array _ nodes => deepest nodes + 1
  | .functionDeclaration _ id params body | .functionExpression _ id params body =>
    max id.depth (max (deepest params) body.depth) + 1
  | .arrowFunction _ params body _ => max (deepest params) body.depth + 1
  | .call _ callee arguments _ => max callee.depth (deepest arguments) + 1
  | .returnStatement _ inner | .spread _ inner | .restElement _ inner | .unary _ _ _ inner
  | .update _ _ _ inner | .expressionStatement _ inner | .chain _ inner => inner.depth + 1
  | .variableDeclarator _ first second | .assignment _ _ first second | .binary _ _ first second
  | .logical _ _ first second | .assignmentPattern _ first second | .member _ first second _ _
  | .property _ first second _ _ _ _ => max first.depth second.depth + 1
  | .conditional _ test consequent alternate =>
    max test.depth (max consequent.depth alternate.depth) + 1

def deepest : List Node → Nat
  | [] => 0
  | node :: rest => max node.depth (deepest rest)

end

theorem deepest_le {room : Nat} {nodes : List Node} :
    deepest nodes ≤ room ↔ ∀ node ∈ nodes, node.depth ≤ room := by
  induction nodes with
  | nil => simp [deepest]
  | cons node rest ih => simp [deepest, ih]

end Node

end ScopeIR
