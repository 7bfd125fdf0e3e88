import ScopeIR.Lowering.Basic

/-! What a syntax tree says about the functions that come out of it: which ones there are,
in the order in which their lowering ends, which of them return in their own statements, and
which names they take from the source. -/
namespace ScopeIR

/-- A function of the source: its parameters and its own statements. An arrow function with
an expression for a body has none. -/
structure FunctionSource where
  parameters : List Node
  body : List Node

namespace Node

/-- Some node of the tree is an identifier of that name. -/
inductive Mentions (name : String) : Node → Prop
  | here (loc : Location) : Mentions name (.identifier loc name)
  | child {node child : Node} {slot : String} :
      (slot, child) ∈ node.children → Mentions name child → Mentions name node

theorem not_mentions {name : String} {node : Node} (here : ∀ loc, node ≠ .identifier loc name)
    (children : ∀ c ∈ node.children, ¬ c.2.Mentions name) : ¬ node.Mentions name := by
  intro h
  cases h with
  | here loc => exact here loc rfl
  | child hc h => exact children _ hc h

mutual

/-- A return statement, by itself or inside braces. -/
def returns : Node → Bool
  | .returnStatement .. => true
  | .blockStatement _ body => anyReturns body
  | _ => false

def anyReturns : List Node → Bool
  | [] => false
  | node :: rest => node.returns || anyReturns rest

end

def isMember : Node → Bool
  | .member .. => true
  | _ => false

mutual

def functions : Node → List FunctionSource
  | .assignment _ operator left right =>
    right.functions ++
      if left.isMember || !(Lower.compoundPart operator).isEmpty then left.functions else []
  | .call _ callee arguments _ => allFunctions arguments ++ callee.functions
  | .member _ obj prop computed _ =>
    obj.functions ++ if (prop.staticName? computed).isSome then [] else prop.functions
  | .chain _ inner => inner.functions
  | .object _ properties => memberFunctions properties
  | .array _ elements => allFunctions elements
  | .functionExpression _ _ params (.blockStatement _ body) =>
    statementFunctions body ++ [⟨params, body⟩]
  | .arrowFunction _ params (.blockStatement _ body) _ =>
    statementFunctions body ++ [⟨params, body⟩]
  | .arrowFunction _ params body _ =>
    body.functions ++ [⟨params, []⟩]
  | .unary _ _ _ argument => argument.functions
  | .binary _ _ left right => left.functions ++ right.functions
  | .logical _ _ left right => left.functions ++ right.functions
  | .conditional _ test consequent alternate =>
    test.functions ++ (consequent.functions ++ alternate.functions)
  | .update _ _ _ argument => argument.functions
  | _ => []

def allFunctions : List Node → List FunctionSource
  | [] => []
  | node :: rest => node.functions ++ allFunctions rest

/-- Static keys are not lowered, and neither are members that are no properties. -/
def memberFunctions : List Node → List FunctionSource
  | [] => []
  | .property _ key value _ computed _ _ :: rest =>
    (if (key.staticName? computed).isSome then [] else key.functions) ++ value.functions ++
      memberFunctions rest
  | _ :: rest => memberFunctions rest

def ofStatement : Node → List FunctionSource
  | .variableDeclaration _ _ declarations => declaratorFunctions declarations
  | .functionDeclaration _ _ params (.blockStatement _ body) =>
    statementFunctions body ++ [⟨params, body⟩]
  | .returnStatement _ argument => argument.functions
  | .expressionStatement _ expression => expression.functions
  | .blockStatement _ body => statementFunctions body
  | _ => []

def statementFunctions : List Node → List FunctionSource
  | [] => []
  | node :: rest => node.ofStatement ++ statementFunctions rest

def declaratorFunctions : List Node → List FunctionSource
  | [] => []
  | .variableDeclarator _ _ init :: rest => init.functions ++ declaratorFunctions rest
  | _ :: rest => declaratorFunctions rest

end

def programFunctions : Node → List FunctionSource
  | .program _ _ body => statementFunctions body ++ [⟨[], body⟩]
  | _ => []

/-- The names that a function takes with those inside it, if it is declared in a function called
`main`. Functions that are not declared take none. -/
def namesWith (declared : Option String) (inside : List String) : List String :=
  declared.elim [] fun name => (if name = mainName then inside else []) ++ [name]

mutual

def takenNames : Node → List String
  | .functionDeclaration _ (.identifier _ name) _ (.blockStatement _ body) =>
    namesWith (some name) (allTakenNames body)
  | .blockStatement _ body => allTakenNames body
  | _ => []

def allTakenNames : List Node → List String
  | [] => []
  | node :: rest => node.takenNames ++ allTakenNames rest

end

def programNames : Node → List String
  | .program _ _ body => allTakenNames body
  | _ => []

end Node

def FunctionSource.returns (f : FunctionSource) : Bool := Node.anyReturns f.body

/-- What lowering a stretch of source amounts to: functions that are finished on the way,
return statements of the function that the stretch belongs to, and the names that functions
take if that one is called `main`. -/
@[ext]
structure Work where
  functions : List FunctionSource := []
  returns : Bool := false
  names : List String := []

namespace Work

instance : Append Work :=
  ⟨fun a b => ⟨a.functions ++ b.functions, a.returns || b.returns, a.names ++ b.names⟩⟩

@[simp] theorem functions_append (a b : Work) :
    (a ++ b).functions = a.functions ++ b.functions := rfl

@[simp] theorem returns_append (a b : Work) : (a ++ b).returns = (a.returns || b.returns) := rfl

@[simp] theorem names_append (a b : Work) : (a ++ b).names = a.names ++ b.names := rfl

end Work

namespace Node

def work (node : Node) : Work where
  functions := node.ofStatement
  returns := node.returns
  names := node.takenNames

def allWork (nodes : List Node) : Work where
  functions := statementFunctions nodes
  returns := anyReturns nodes
  names := allTakenNames nodes

end Node

end ScopeIR
