import ScopeIR.Number.Digits

/-! Dates and times in TOML text: their spelling, and whether the calendar and the clock
have them. -/
namespace ScopeIR.Toml

def startsWith (digits : Nat) (mark : Char) (text : List Char) : Bool :=
  (text.take digits).length = digits && (text.take digits).all Char.isDigit &&
    (text.drop digits).head? == some mark

def twoDigits? : List Char → Option (List Char)
  | c :: d :: rest => if c.isDigit && d.isDigit then some rest else none
  | _ => none

def marked? (mark : Char) : List Char → Option (List Char)
  | c :: rest => if c == mark then twoDigits? rest else none
  | [] => none

def date? (text : List Char) : Option (List Char) :=
  ((twoDigits? text).bind twoDigits?).bind fun rest => (marked? '-' rest).bind (marked? '-')

def fraction? (text : List Char) : Option (List Char) :=
  match text with
  | '.' :: rest => if rest.head?.any Char.isDigit then some (rest.dropWhile Char.isDigit) else none
  | _ => some text

def time? (text : List Char) : Option (List Char) :=
  (twoDigits? text).bind fun rest =>
    ((marked? ':' rest).bind (marked? ':')).bind fraction?

def offset? (text : List Char) : Option (List Char) :=
  match text with
  | 'Z' :: rest => some rest
  | '+' :: rest | '-' :: rest => (twoDigits? rest).bind (marked? ':')
  | _ => none

def field (start count : Nat) (lexeme : List Char) : Nat := naturalOf ((lexeme.drop start).take count)

def daysIn (year month : Nat) : Nat :=
  if month = 2 then
    if year % 4 = 0 && (year % 100 != 0 || year % 400 = 0) then 29 else 28
  else if [4, 6, 9, 11].contains month then 30
  else 31

def isDate (lexeme : List Char) : Bool :=
  let month := field 5 2 lexeme
  let day := field 8 2 lexeme
  1 ≤ month && month ≤ 12 && 1 ≤ day && day ≤ daysIn (field 0 4 lexeme) month

def isTime (lexeme : List Char) : Bool :=
  field 0 2 lexeme < 24 && field 3 2 lexeme < 60 && field 6 2 lexeme < 60

/-- Whole days and whole hours count as offsets too. -/
def isOffset (lexeme : List Char) : Bool :=
  lexeme == ['Z'] || (field 1 2 lexeme ≤ 24 && field 4 2 lexeme ≤ 60)

end ScopeIR.Toml
