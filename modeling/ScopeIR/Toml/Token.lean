import ScopeIR.Toml.Key
import ScopeIR.Toml.Moment

/-! The tokens of TOML text. Whether a word is a key or a value hangs on what was read
before it, so that scanning keeps a mode and the brackets that are open. -/
namespace ScopeIR.Toml

/-- A fault is where the text stops to have tokens; none comes after it. -/
inductive Token where
  | key (spelling : List Char)
  | header (spelling : List Char)
  | arrayHeader (spelling : List Char)
  | equals
  | comma
  | openList
  | closeList
  | openTable
  | closeTable
  | openArray
  | closeArray
  | text (value : String)
  | bool (value : Bool)
  | number (lexeme : List Char)
  | special (lexeme : String)
  | date (lexeme : List Char)
  | time (lexeme : List Char)
  | offset (lexeme : List Char)
  | fault
deriving DecidableEq, Repr

/-- A line starts with a key or a header; what follows an equals sign is a value. -/
inductive Mode where
  | line
  | value
deriving DecidableEq, Repr

inductive Bracket where
  | list
  | table
deriving DecidableEq, Repr

inductive Step where
  | go (tokens : List Token) (mode : Mode) (brackets : List Bracket) (rest : List Char)
  | stop (tokens : List Token)

def dropComment : List Char → List Char
  | [] => []
  | '\n' :: rest => '\n' :: rest
  | '\r' :: '\n' :: rest => '\r' :: '\n' :: rest
  | _ :: rest => dropComment rest

def before (rest text : List Char) : List Char := text.take (text.length - rest.length)

def keyStep (brackets : List Bracket) (text : List Char) : Step :=
  match keySpelling (text.length + 1) text with
  | some (spelling, rest) => .go [.key spelling] .line brackets rest
  | none => .stop []

/-- The name of a table in brackets, whose first bracket is read already. An empty name
leaves the brackets alone. -/
def headerStep (brackets : List Bracket) (text : List Char) : Step :=
  let isInside (c : Char) : Bool := c != '[' && c != ']'
  match text with
  | '[' :: text =>
    match text.takeWhile isInside, text.dropWhile isInside with
    | [], ']' :: ']' :: rest => .go [.openArray, .closeArray] .line brackets rest
    | spelling, ']' :: ']' :: rest =>
      .go [.openArray, .arrayHeader spelling, .closeArray] .line brackets rest
    | _, _ => .stop [.openArray]
  | text =>
    match text.takeWhile isInside, text.dropWhile isInside with
    | [], ']' :: rest => .go [.openList, .closeList] .line brackets rest
    | spelling, ']' :: rest => .go [.openList, .header spelling, .closeList] .line brackets rest
    | _, _ => .stop [.openList]

def closeStep (kind : Bracket) (token : Token) (rest : List Char) : List Bracket → Step
  | bracket :: brackets => if bracket = kind then .go [token] .value brackets rest else .stop [token]
  | [] => .stop [token]

def lineStep (brackets : List Bracket) (c : Char) (rest : List Char) : Step :=
  match c with
  | '\x7d' => closeStep .table .closeTable rest brackets
  | '[' => headerStep brackets rest
  | '#' => .go [] .line brackets (dropComment rest)
  | '=' => .go [.equals] .value brackets rest
  | '\r' | '\n' | ' ' | '\t' => .go [] .line brackets rest
  | _ => keyStep brackets (c :: rest)

def words : List (String × Token) :=
  [("true", .bool true), ("false", .bool false), ("inf", .special "+Inf"), ("nan", .special "NaN")]

def word? (text : List Char) : Option (Token × List Char) :=
  words.findSome? fun (spelling, token) =>
    if spelling.toList.isPrefixOf text then some (token, text.drop spelling.length) else none

def signed? (sign : Char) (rest : List Char) : Option (Token × List Char) :=
  match word? rest with
  | some (.special spelling, rest) =>
    some (.special (if sign == '-' && spelling == "+Inf" then "-Inf" else spelling), rest)
  | _ => (decimalChars false false rest).map fun (run, rest) => (.number (sign :: run), rest)

def timeStep (tokens : List Token) (brackets : List Bracket) (text : List Char) : Step :=
  match time? text with
  | none => .stop tokens
  | some rest =>
    let tokens := tokens ++ [.time (before rest text)]
    if rest.head?.any fun c => c == 'Z' || c == '+' || c == '-' then
      match offset? rest with
      | some after => .go (tokens ++ [.offset (before after rest)]) .value brackets after
      | none => .stop tokens
    else .go tokens .value brackets rest

/-- A date ends the text or is followed by a blank or a `T`; a time follows a `T`, and a
blank with two digits after it. -/
def dateStep (brackets : List Bracket) (text : List Char) : Step :=
  match date? text with
  | none => .stop []
  | some rest =>
    let tokens := [.date (before rest text)]
    match rest with
    | [] => .go tokens .value brackets []
    | 'T' :: after => timeStep tokens brackets after
    | ' ' :: after =>
      if (twoDigits? after).isSome then timeStep tokens brackets after
      else .go tokens .value brackets rest
    | _ => .stop tokens

def literalStep (brackets : List Bracket) : Option (Token × List Char) → Step
  | some (token, rest) => .go [token] .value brackets rest
  | none => .stop []

def digitStep (brackets : List Bracket) (text : List Char) : Step :=
  if startsWith 4 '-' text then dateStep brackets text
  else if startsWith 2 ':' text then timeStep [] brackets text
  else literalStep brackets ((unsigned? text).map fun (run, rest) => (.number run, rest))

def valueStep (brackets : List Bracket) (c : Char) (rest : List Char) : Step :=
  match c with
  | '=' => .go [.equals] .value brackets rest
  | '[' => .go [.openList] .value (.list :: brackets) rest
  | ']' => closeStep .list .closeList rest brackets
  | '\x7b' => .go [.openTable] .line (.table :: brackets) rest
  | '\x7d' => closeStep .table .closeTable rest brackets
  | '#' => .go [] .value brackets (dropComment rest)
  | '"' => literalStep brackets ((string? rest).map fun (value, rest) => (.text value, rest))
  | '\'' => literalStep brackets ((literal? rest).map fun (value, rest) => (.text value, rest))
  | ',' => .go [.comma] (if brackets.head? = some .table then .line else .value) brackets rest
  | '\r' | '\n' => .go [] (if brackets.head? = some .list then .value else .line) brackets rest
  | ' ' | '\t' => .go [] .value brackets rest
  | '+' | '-' => literalStep brackets (signed? c rest)
  | _ =>
    if c.isDigit then digitStep brackets (c :: rest)
    else literalStep brackets (word? (c :: rest))

def scanFrom : Nat → Mode → List Bracket → List Char → List Token
  | _, _, _, [] => []
  | 0, _, _, _ => [.fault]
  | fuel + 1, mode, brackets, c :: rest =>
    let step := match mode with
      | .line => lineStep brackets c rest
      | .value => valueStep brackets c rest
    match step with
    | .stop tokens => tokens ++ [.fault]
    | .go tokens mode brackets rest => tokens ++ scanFrom fuel mode brackets rest

/-- Every step uses up a character, so that the length of the text bounds them. A byte
order mark at the start does not count. -/
def scan (text : List Char) : List Token :=
  let text := match text with
    | '\ufeff' :: rest => rest
    | _ => text
  scanFrom text.length .line [] text

end ScopeIR.Toml
