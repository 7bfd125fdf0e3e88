import ScopeIR.Text.Quoted

/-! Writing JSON text over several lines, two blanks for each level. -/
namespace ScopeIR

inductive JsonText where
  | scalar (lexeme : String)
  | list (items : List JsonText)
  | record (fields : List (String × JsonText))
deriving Repr

namespace JsonText

/-- Control characters, the characters that markup gives a meaning to and the two
line separators are spelled by number where they have no short escape. -/
def escape (c : Char) : List Char :=
  let n := c.toNat
  if c == '"' || c == '\\' then ['\\', c]
  else if c == '\n' then ['\\', 'n']
  else if c == '\r' then ['\\', 'r']
  else if c == '\t' then ['\\', 't']
  else if n == 0x08 then ['\\', 'b']
  else if n == 0x0C then ['\\', 'f']
  else if n < 0x20 || c == '<' || c == '>' || c == '&' || n == 0x2028 || n == 0x2029 then
    '\\' :: 'u' :: Text.hexDigits 4 n
  else [c]

/-- A string; if it is cut off inside a character, the last one is written as the replacement
escape. -/
def quoted (text : String) (cut : Bool := false) : String :=
  let shown :=
    if cut then text.toList.dropLast.flatMap escape ++ ['\\', 'u', 'f', 'f', 'f', 'd']
    else text.toList.flatMap escape
  String.ofList ('"' :: shown ++ ['"'])

def null : JsonText := .scalar "null"
def bool (value : Bool) : JsonText := .scalar (if value then "true" else "false")
def int (value : Int) : JsonText := .scalar (toString value)
def string (text : String) : JsonText := .scalar (quoted text)

def indent (depth : Nat) : List Char := '\n' :: List.replicate (2 * depth) ' '

mutual

def chars (depth : Nat) : JsonText → List Char
  | .scalar lexeme => lexeme.toList
  | .list [] => ['[', ']']
  | .list (item :: rest) =>
    '[' :: indent (depth + 1) ++ chars (depth + 1) item ++ itemChars (depth + 1) rest ++
      indent depth ++ [']']
  | .record [] => ['\x7b', '\x7d']
  | .record ((name, item) :: rest) =>
    '\x7b' :: indent (depth + 1) ++ (quoted name).toList ++ [':', ' '] ++
      chars (depth + 1) item ++ fieldChars (depth + 1) rest ++ indent depth ++ ['\x7d']

def itemChars (depth : Nat) : List JsonText → List Char
  | [] => []
  | item :: rest => ',' :: indent depth ++ chars depth item ++ itemChars depth rest

def fieldChars (depth : Nat) : List (String × JsonText) → List Char
  | [] => []
  | (name, item) :: rest =>
    ',' :: indent depth ++ (quoted name).toList ++ [':', ' '] ++ chars depth item ++
      fieldChars depth rest

end

def render (json : JsonText) : String := String.ofList (chars 0 json ++ ['\n'])

end JsonText

end ScopeIR
