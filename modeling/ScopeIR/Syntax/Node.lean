import ScopeIR.Literal
import ScopeIR.Location

/-! Syntax trees of JavaScript programs, in the shape of ESTree. Nodes of a type not
listed keep their type name and nothing else. -/
namespace ScopeIR

structure RegExp where
  pattern : String := ""
  flags : String := ""
deriving DecidableEq, Repr

/-- What a literal node says: a regular expression, a big integer by its digits, or a
plain value. -/
structure LiteralSource where
  raw : String := ""
  regex : Option RegExp := none
  bigint : String := ""
  value : Literal := .null
deriving Repr

inductive Node where
  | missing
  | program (loc : Location) (sourceType : String) (body : List Node)
  | identifier (loc : Location) (name : String)
  | literal (loc : Location) (source : LiteralSource)
  | variableDeclaration (loc : Location) (kind : String) (declarations : List Node)
  | variableDeclarator (loc : Location) (id init : Node)
  | functionDeclaration (loc : Location) (id : Node) (params : List Node) (body : Node)
  | functionExpression (loc : Location) (id : Node) (params : List Node) (body : Node)
  | arrowFunction (loc : Location) (params : List Node) (body : Node) (expression : Bool)
  | returnStatement (loc : Location) (argument : Node)
  | expressionStatement (loc : Location) (expression : Node)
  | blockStatement (loc : Location) (body : List Node)
  | emptyStatement (loc : Location)
  | assignment (loc : Location) (operator : String) (left right : Node)
  | call (loc : Location) (callee : Node) (arguments : List Node) (optional : Bool)
  | member (loc : Location) (object property : Node) (computed optional : Bool)
  | chain (loc : Location) (expression : Node)
  | object (loc : Location) (properties : List Node)
  | property (loc : Location) (key value : Node) (kind : String)
      (computed method shorthand : Bool)
  | array (loc : Location) (elements : List Node)
  | spread (loc : Location) (argument : Node)
  | unary (loc : Location) (operator : String) (prefixed : Bool) (argument : Node)
  | update (loc : Location) (operator : String) (prefixed : Bool) (argument : Node)
  | binary (loc : Location) (operator : String) (left right : Node)
  | logical (loc : Location) (operator : String) (left right : Node)
  | conditional (loc : Location) (test consequent alternate : Node)
  | assignmentPattern (loc : Location) (left right : Node)
  | restElement (loc : Location) (argument : Node)
  | unknown (loc : Location) (type : String)
deriving Repr

namespace Node

def typeName : Node → String
  | .missing => "null"
  | .program .. => "Program"
  | .identifier .. => "Identifier"
  | .literal .. => "Literal"
  | .variableDeclaration .. => "VariableDeclaration"
  | .variableDeclarator .. => "VariableDeclarator"
  | .functionDeclaration .. => "FunctionDeclaration"
  | .functionExpression .. => "FunctionExpression"
  | .arrowFunction .. => "ArrowFunctionExpression"
  | .returnStatement .. => "ReturnStatement"
  | .expressionStatement .. => "ExpressionStatement"
  | .blockStatement .. => "BlockStatement"
  | .emptyStatement .. => "EmptyStatement"
  | .assignment .. => "AssignmentExpression"
  | .call .. => "CallExpression"
  | .member .. => "MemberExpression"
  | .chain .. => "ChainExpression"
  | .object .. => "ObjectExpression"
  | .property .. => "Property"
  | .array .. => "ArrayExpression"
  | .spread .. => "SpreadElement"
  | .unary .. => "UnaryExpression"
  | .update .. => "UpdateExpression"
  | .binary .. => "BinaryExpression"
  | .logical .. => "LogicalExpression"
  | .conditional .. => "ConditionalExpression"
  | .assignmentPattern .. => "AssignmentPattern"
  | .restElement .. => "RestElement"
  | .unknown _ type => type

def location : Node → Location
  | .missing => {}
  | .program loc .. | .identifier loc .. | .literal loc .. | .variableDeclaration loc ..
  | .variableDeclarator loc .. | .functionDeclaration loc .. | .functionExpression loc ..
  | .arrowFunction loc .. | .returnStatement loc .. | .expressionStatement loc ..
  | .blockStatement loc .. | .emptyStatement loc | .assignment loc .. | .call loc ..
  | .member loc .. | .chain loc .. | .object loc .. | .property loc .. | .array loc ..
  | .spread loc .. | .unary loc .. | .update loc .. | .binary loc .. | .logical loc ..
  | .conditional loc .. | .assignmentPattern loc .. | .restElement loc .. | .unknown loc .. => loc

def isMissing : Node → Bool
  | .missing => true
  | _ => false

/-- The children under their ESTree names, in the order of the node's fields. The item
`i` of a list `name` is called `name[i]`. -/
def children : Node → List (String × Node)
  | .program _ _ body => items "body" body
  | .variableDeclaration _ _ declarations => items "declarations" declarations
  | .variableDeclarator _ id init => [("id", id), ("init", init)]
  | .functionDeclaration _ id params body | .functionExpression _ id params body =>
    ("id", id) :: items "params" params ++ [("body", body)]
  | .arrowFunction _ params body _ => items "params" params ++ [("body", body)]
  | .returnStatement _ argument | .spread _ argument | .restElement _ argument
  | .unary _ _ _ argument | .update _ _ _ argument => [("argument", argument)]
  | .expressionStatement _ expression | .chain _ expression => [("expression", expression)]
  | .blockStatement _ body => items "body" body
  | .assignment _ _ left right | .binary _ _ left right | .logical _ _ left right
  | .assignmentPattern _ left right => [("left", left), ("right", right)]
  | .call _ callee arguments _ => ("callee", callee) :: items "arguments" arguments
  | .member _ obj prop _ _ => [("object", obj), ("property", prop)]
  | .object _ properties => items "properties" properties
  | .property _ key value .. => [("key", key), ("value", value)]
  | .array _ elements => items "elements" elements
  | .conditional _ test consequent alternate =>
    [("test", test), ("consequent", consequent), ("alternate", alternate)]
  | .missing | .identifier .. | .literal .. | .emptyStatement _ | .unknown .. => []
where
  items (name : String) (nodes : List Node) : List (String × Node) :=
    nodes.zipIdx.map fun (node, i) => (name ++ "[" ++ toString i ++ "]", node)

end Node

end ScopeIR
