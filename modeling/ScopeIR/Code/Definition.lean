/-! Callees. A function is known by its name and its signature; field access, object
creation and operators are calls of primitives, whose names start with a hash. -/
namespace ScopeIR

/-- Both texts are `cut` if an operator was taken apart inside a character: their last
character stands for the byte that is left of it and shows as the replacement character. -/
structure FunctionDefinition where
  name : String
  signature : String
  cut : Bool := false
deriving DecidableEq, Repr

namespace FunctionDefinition

def cutMark : String := "�"

def shown (d : FunctionDefinition) (text : String) : String :=
  if d.cut then String.ofList text.toList.dropLast ++ cutMark else text

def shownName (d : FunctionDefinition) : String := d.shown d.name

def shownSignature (d : FunctionDefinition) : String := d.shown d.signature

def primitive (name : String) : FunctionDefinition := ⟨name, name, false⟩

def user (name file : String) : FunctionDefinition := ⟨name, file ++ "." ++ name, false⟩

def getFieldName : String := "#get-field#"
def setFieldName : String := "#set-field#"

def getField (field : String) : FunctionDefinition := primitive (getFieldName ++ " " ++ field)
def setField (field : String) : FunctionDefinition := primitive (setFieldName ++ " " ++ field)
def newObject : FunctionDefinition := primitive "#new-object#"
def getFieldDynamic : FunctionDefinition := primitive "#get-field-dynamic#"
def setFieldDynamic : FunctionDefinition := primitive "#set-field-dynamic#"
def binaryOperator (op : String) : FunctionDefinition := primitive ("#binop# " ++ op)
def unaryOperator (op : String) : FunctionDefinition := primitive ("#unop# " ++ op)
def logicalOperator (op : String) : FunctionDefinition := primitive ("#logical# " ++ op)
def conditional : FunctionDefinition := primitive "#conditional#"
def callDynamic : FunctionDefinition := primitive "#call#"

def compoundOperator (op : String) : FunctionDefinition :=
  if op = "&&" || op = "||" || op = "??" then logicalOperator op else binaryOperator op

/-- The first of the bytes that write a character. -/
def leadingByte (c : Char) : Char := .ofNat ((String.utf8EncodeChar c).headD 0).toNat

/-- The binary operator named by the first byte of a text, which is a character only if
it is an ASCII one. -/
def leadingOperator (op : String) : FunctionDefinition :=
  match op.toList with
  | c :: _ =>
    if c.toNat < 0x80 then binaryOperator (String.singleton c)
    else { binaryOperator (String.singleton (leadingByte c)) with cut := true }
  | [] => binaryOperator ""

def isPrimitive (d : FunctionDefinition) : Bool := d.name.toList.head? == some '#'

def after? (beginning text : String) : Option String :=
  if beginning.toList.isPrefixOf text.toList then
    some (String.ofList (text.toList.drop beginning.length))
  else none

def field? (d : FunctionDefinition) : Option String :=
  after? (getFieldName ++ " ") d.name <|> after? (setFieldName ++ " ") d.name

end FunctionDefinition

end ScopeIR
