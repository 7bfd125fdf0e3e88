import ScopeIR.Number.Layout
import ScopeIR.Json.Basic

namespace ScopeIR

/-- Source literals are null, a truth value, a string or a number; big integers come
from their own literal form, machine integers from hand-built code, and lists and
records from documents. The entries of a record are sorted by name. -/
inductive Literal where
  | null
  | bool (value : Bool)
  | str (text : String)
  | num (value : Binary64)
  | big (value : Int)
  | int (value : Int)
  | list (items : List Literal)
  | record (entries : List (String × Literal))
deriving Repr

namespace Literal

def carrier : Literal → String
  | .null => "<nil>"
  | .bool _ => "bool"
  | .str _ => "string"
  | .num _ => "float64"
  | .big _ => "*big.Int"
  | .int _ => "int"
  | .list _ => "[]interface \x7b\x7d"
  | .record _ => "map[string]interface \x7b\x7d"

def boolText (value : Bool) : String := if value then "true" else "false"

mutual

def plainText : Literal → String
  | .null => "<nil>"
  | .bool value => boolText value
  | .str text => text
  | .num value => value.plainText
  | .big value => toString value
  | .int value => toString value
  | .list items => "[" ++ " ".intercalate (plainTexts items) ++ "]"
  | .record entries => "map[" ++ " ".intercalate (entryTexts entries) ++ "]"

def plainTexts : List Literal → List String
  | [] => []
  | item :: rest => plainText item :: plainTexts rest

def entryTexts : List (String × Literal) → List String
  | [] => []
  | (name, item) :: rest => (name ++ ":" ++ plainText item) :: entryTexts rest

end

/-- The text under which equal constants of one kind meet. -/
def canonicalText : Literal → String
  | .null => ""
  | literal => literal.plainText

def insertEntry (name : String) (item : Literal) :
    List (String × Literal) → List (String × Literal)
  | [] => [(name, item)]
  | (other, old) :: rest =>
    if name < other then (name, item) :: (other, old) :: rest
    else if name = other then (name, item) :: rest
    else (other, old) :: insertEntry name item rest

mutual

/-- A JSON value as a literal; absent if a number in it is past the finite ones. -/
def ofJson? : Json → Option Literal
  | .null => some .null
  | .bool value => some (.bool value)
  | .num n => n.binary64?.map .num
  | .str text => some (.str text)
  | .arr items => (ofJsonItems? items).map .list
  | .obj members => (ofJsonMembers? [] members).map .record

def ofJsonItems? : List Json → Option (List Literal)
  | [] => some []
  | json :: rest => do
    let item ← ofJson? json
    let items ← ofJsonItems? rest
    return item :: items

/-- Of members with one name the last one counts. -/
def ofJsonMembers? (entries : List (String × Literal)) :
    List (String × Json) → Option (List (String × Literal))
  | [] => some entries
  | (name, json) :: rest => do
    let item ← ofJson? json
    ofJsonMembers? (insertEntry name item entries) rest

end

end Literal

end ScopeIR
