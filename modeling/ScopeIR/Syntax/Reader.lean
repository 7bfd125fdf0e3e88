import ScopeIR.Failure
import ScopeIR.Text.Blank
import ScopeIR.Json.Reader
import ScopeIR.Json.Record
import ScopeIR.Syntax.Node

/-! Reading a syntax tree from its JSON text. The fields of a node are read in a fixed
order and the first fault counts; its contexts lead from the root to the field. -/
namespace ScopeIR

namespace Location

def readPosition (history : Json.History) : Outcome Position := do
  let said := Json.historyOf (← Json.readMembers history)
  return { line := ← Json.readInt (said "line"), column := ← Json.readInt (said "column") }

def read (history : Json.History) : Outcome Location := do
  let said := Json.historyOf (← Json.readMembers history)
  return { start := ← readPosition (said "start"), stop := ← readPosition (said "end") }

end Location

namespace RegExp

def read (history : Json.History) : Outcome RegExp := do
  let said := Json.historyOf (← Json.readMembers history)
  return { pattern := ← Json.readString (said "pattern"), flags := ← Json.readString (said "flags") }

end RegExp

namespace Node

def maxDepth : Nat := 1000

abbrev Members := List (String × Json)

def field (members : Members) (name : String) : Json :=
  (Json.lookup members name).getD .null

def stringField (members : Members) (name : String) : Outcome String :=
  (Json.readString [field members name]).within name

def boolField (members : Members) (name : String) : Outcome Bool :=
  (Json.readBool [field members name]).within name

/-- A regular expression excludes the big integer, and that the value. -/
def literalSource (members : Members) : Outcome LiteralSource := do
  let raw ← stringField members "raw"
  let bigint ← stringField members "bigint"
  match field members "regex" with
  | .null =>
    if bigint.isEmpty then
      let value ← valueOf (field members "value")
      return { raw, value }
    else return { raw, bigint }
  | json =>
    let regex ← (RegExp.read [json]).within "regex"
    return { raw, bigint, regex := some regex }
where
  valueOf : Json → Outcome Literal
    | .null => .ok .null
    | .bool value => .ok (.bool value)
    | .str text => .ok (.str text)
    | .num n => match n.binary64? with
      | some value => .ok (.num value)
      | none => Outcome.failAt ["value"] .jsonType
    | .arr _ => Outcome.failAt ["value"] (.unexpected (Literal.list []).carrier)
    | .obj _ => Outcome.failAt ["value"] (.unexpected (Literal.record []).carrier)

def requireDeclarators : List Node → Outcome Unit
  | [] => .ok ()
  | .variableDeclarator .. :: rest => requireDeclarators rest
  | node :: _ => Outcome.failAt ["declarations"] (.unexpected node.typeName)

def requireIdentifier (name : String) : Node → Outcome Unit
  | .missing | .identifier .. => .ok ()
  | node => Outcome.failAt [name] (.expected "Identifier" node.typeName)

def requireBlock (name : String) : Node → Outcome Unit
  | .missing | .blockStatement .. => .ok ()
  | node => Outcome.failAt [name] (.expected "BlockStatement" node.typeName)

def ofMembers (child : Json → Outcome Node) (type : String) (loc : Location)
    (members : Members) : Outcome Node := do
  let string := stringField members
  let bool := boolField members
  let node (name : String) : Outcome Node := (child (field members name)).within name
  let nodes (name : String) : Outcome (List Node) :=
    match field members name with
    | .null => .ok []
    | .arr items => items.zipIdx.mapM fun (json, i) =>
        (child json).within (name ++ "[" ++ toString i ++ "]")
    | _ => Outcome.failAt [name] .jsonType
  match type with
  | "Program" => return .program loc (← string "sourceType") (← nodes "body")
  | "Identifier" => return .identifier loc (← string "name")
  | "Literal" => return .literal loc (← literalSource members)
  | "VariableDeclaration" =>
    let kind ← string "kind"
    let declarations ← nodes "declarations"
    requireDeclarators declarations
    return .variableDeclaration loc kind declarations
  | "VariableDeclarator" => return .variableDeclarator loc (← node "id") (← node "init")
  | "FunctionDeclaration" =>
    let id ← node "id"
    requireIdentifier "id" id
    let params ← nodes "params"
    let body ← node "body"
    requireBlock "body" body
    return .functionDeclaration loc id params body
  | "FunctionExpression" =>
    let id ← node "id"
    requireIdentifier "id" id
    let params ← nodes "params"
    let body ← node "body"
    requireBlock "body" body
    return .functionExpression loc id params body
  | "ArrowFunctionExpression" =>
    return .arrowFunction loc (← nodes "params") (← node "body") (← bool "expression")
  | "ReturnStatement" => return .returnStatement loc (← node "argument")
  | "ExpressionStatement" => return .expressionStatement loc (← node "expression")
  | "BlockStatement" => return .blockStatement loc (← nodes "body")
  | "EmptyStatement" => return .emptyStatement loc
  | "AssignmentExpression" =>
    return .assignment loc (← string "operator") (← node "left") (← node "right")
  | "CallExpression" =>
    return .call loc (← node "callee") (← nodes "arguments") (← bool "optional")
  | "MemberExpression" =>
    return .member loc (← node "object") (← node "property") (← bool "computed")
      (← bool "optional")
  | "ChainExpression" => return .chain loc (← node "expression")
  | "ObjectExpression" => return .object loc (← nodes "properties")
  | "Property" =>
    return .property loc (← node "key") (← node "value") (← string "kind")
      (← bool "computed") (← bool "method") (← bool "shorthand")
  | "ArrayExpression" => return .array loc (← nodes "elements")
  | "SpreadElement" => return .spread loc (← node "argument")
  | "UnaryExpression" =>
    return .unary loc (← string "operator") (← bool "prefix") (← node "argument")
  | "UpdateExpression" =>
    return .update loc (← string "operator") (← bool "prefix") (← node "argument")
  | "BinaryExpression" =>
    return .binary loc (← string "operator") (← node "left") (← node "right")
  | "LogicalExpression" =>
    return .logical loc (← string "operator") (← node "left") (← node "right")
  | "ConditionalExpression" =>
    return .conditional loc (← node "test") (← node "consequent") (← node "alternate")
  | "AssignmentPattern" => return .assignmentPattern loc (← node "left") (← node "right")
  | "RestElement" => return .restElement loc (← node "argument")
  | _ => return .unknown loc type

/-- The first argument is how many nodes may still stand inside each other. A `null`
is the missing node at any depth. -/
def ofJson : Nat → Json → Outcome Node
  | _, .null => .ok .missing
  | 0, _ => Outcome.fail .nestedTooDeep
  | room + 1, .obj members => do
    let type ← stringField members "type"
    if type.isEmpty then Outcome.fail .untypedNode
    else Outcome.within type do
      let loc ← (Location.read [field members "loc"]).within "loc"
      ofMembers (ofJson room) type loc members
  | _ + 1, _ => Outcome.failAt ["decode node"] .jsonType

/-- The tree whose root is a program. A text of blanks and perhaps the word `null`
holds the missing node; the blanks of this rule are those of Unicode. -/
def parseProgram (text : String) : Outcome Node := do
  let chars := text.toList
  let trimmed := Text.trim chars
  let root ←
    if trimmed.isEmpty || trimmed == ['n', 'u', 'l', 'l'] then .ok .missing
    else match Json.parse? chars with
      | some json => ofJson maxDepth json
      | none => Outcome.failAt ["decode node"] .jsonSyntax
  match root with
  | .program .. => return root
  | _ => Outcome.fail (.expected "Program" root.typeName)

end Node

end ScopeIR
