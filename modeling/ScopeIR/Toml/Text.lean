import ScopeIR.Toml.Number

/-! Strings of TOML text. A reader returns what it read and the characters after it. -/
namespace ScopeIR.Toml

def isGap (c : Char) : Bool := c == ' ' || c == '\t'

def shortEscape? (c : Char) : Option Char :=
  match c with
  | '"' => some '"'
  | '\\' => some '\\'
  | '/' => some '/'
  | 'b' => some '\x08'
  | 'f' => some '\x0c'
  | 'n' => some '\n'
  | 'r' => some '\r'
  | 't' => some '\t'
  | _ => none

def codeEscape? (width : Nat) (text : List Char) : Option (Char × List Char) :=
  let digits := text.take width
  if digits.length < width then none
  else (naturalIn? 16 digits).map fun n =>
    (if n.isValidChar then Char.ofNat n else '\ufffd', text.drop width)

def stringBody (close : List Char) (lines : Bool) : Nat → List Char → Option (List Char × List Char)
  | 0, _ | _, [] => none
  | fuel + 1, c :: rest =>
    if close.isPrefixOf (c :: rest) then some ([], (c :: rest).drop close.length)
    else if c == '\\' then
      match rest with
      | [] => none
      | mark :: after =>
        let isSkipped (c : Char) : Bool := isGap c || c == '\n' || c == '\r'
        if isSkipped mark then stringBody close lines fuel (after.dropWhile isSkipped)
        else if mark == 'u' || mark == 'U' then do
          let (c, after) ← codeEscape? (if mark == 'u' then 4 else 8) after
          cons c (stringBody close lines fuel after)
        else do
          let c ← shortEscape? mark
          cons c (stringBody close lines fuel after)
    else if c.toNat < 32 && c != '\t' && !(lines && (c == '\n' || c == '\r')) then none
    else cons c (stringBody close lines fuel rest)

def literalBody (close : List Char) : List Char → Option (List Char × List Char)
  | [] => none
  | c :: rest =>
    if close.isPrefixOf (c :: rest) then some ([], (c :: rest).drop close.length)
    else cons c (literalBody close rest)

def dropLineEnd : List Char → List Char
  | '\r' :: '\n' :: rest | '\n' :: rest => rest
  | chars => chars

/-- A string whose first quote is read already. Three quotes open one that may go over
several lines, and a line end right after them does not count. -/
def string? (text : List Char) : Option (String × List Char) :=
  let body := match text with
    | '"' :: '"' :: rest =>
      stringBody ['"', '"', '"'] true (text.length + 1) (dropLineEnd rest)
    | _ => stringBody ['"'] false (text.length + 1) text
  body.map fun (run, rest) => (String.ofList run, rest)

def literal? (text : List Char) : Option (String × List Char) :=
  let body := match text with
    | '\'' :: '\'' :: rest => literalBody ['\'', '\'', '\''] (dropLineEnd rest)
    | _ => literalBody ['\''] text
  body.map fun (run, rest) => (String.ofList run, rest)

end ScopeIR.Toml
