import ScopeIR.Number.Reader
import ScopeIR.Toml.Basic
import ScopeIR.Toml.Token

namespace ScopeIR.Toml

/-- Why a text is not read. A misplaced token is one that starts no value but stands
where one is needed; it is told apart from everything else that is wrong. -/
inductive Fault where
  | refused
  | misplaced
deriving DecidableEq, Repr

abbrev Reading := Except Fault

def accept {α : Type} : Option α → Reading α
  | some a => .ok a
  | none => .error .refused

def underscoresApart (isDigit : Char → Bool) (after : Bool) : List Char → Bool
  | [] => true
  | '_' :: rest => after && !rest.isEmpty && underscoresApart isDigit false rest
  | c :: rest => underscoresApart isDigit (isDigit c) rest

def inRange? (n : Int) : Option Toml :=
  if isInt64 n then some (.int n) else none

def integer? (lexeme : List Char) : Option Toml :=
  let digits := lexeme.filter (· != '_')
  match digits with
  | '0' :: mark :: first :: rest => do
    let base ← baseOf? mark
    let isDigit (c : Char) : Bool := if base = 16 then (hexValue? c).isSome else c.isDigit
    if underscoresApart isDigit false lexeme then
      inRange? (← naturalIn? base (first :: rest))
    else none
  | _ =>
    if underscoresApart Char.isDigit false lexeme then
      (signedInt? (String.ofList digits)).bind inRange?
    else none

def number? (lexeme : List Char) : Option Toml :=
  let isFloat := !(baseOf? (lexeme.getD 1 ' ')).isSome &&
    lexeme.any fun c => c == '.' || c == 'e' || c == 'E'
  if isFloat then
    if underscoresApart Char.isDigit false lexeme then
      (Binary64.ofText? (String.ofList (lexeme.filter (· != '_')))).map Toml.float
    else none
  else integer? lexeme

def momentOf (date time offset : List Char) : Reading Toml :=
  if (date.isEmpty || isDate date) && (time.isEmpty || isTime time) &&
      (offset.isEmpty || isOffset offset) then
    .ok (.moment (String.ofList (date ++ (if date.isEmpty || time.isEmpty then [] else ['T']) ++
      time ++ offset)))
  else .error .refused

def ofItems (items : List Toml) : Toml :=
  if !items.isEmpty && items.all isTable then .tables items else .list items

def close : Toml → Toml
  | .table _ entries => .table true entries
  | node => node

mutual

def value : Nat → List Token → Reading (Toml × List Token)
  | 0, _ => .error .refused
  | fuel + 1, tokens =>
    match tokens with
    | .text chars :: rest => .ok (.text chars, rest)
    | .bool truth :: rest => .ok (.bool truth, rest)
    | .number lexeme :: rest => return (← accept (number? lexeme), rest)
    | .special lexeme :: rest => return (.float (← accept (Binary64.ofText? lexeme)), rest)
    | .time lexeme :: rest => return (← momentOf [] lexeme [], rest)
    | .date day :: .time hour :: .offset zone :: rest => return (← momentOf day hour zone, rest)
    | .date day :: .time hour :: rest => return (← momentOf day hour [], rest)
    | .date day :: rest => return (← momentOf day [] [], rest)
    | .openList :: rest => items fuel [] rest
    | .openTable :: rest => fields fuel empty none rest
    | [] | .fault :: _ | .equals :: _ => .error .refused
    | _ => .error .misplaced

def items : Nat → List Toml → List Token → Reading (Toml × List Token)
  | 0, _, _ => .error .refused
  | fuel + 1, done, tokens =>
    match tokens with
    | [] => .error .refused
    | .closeList :: rest => .ok (ofItems done, rest)
    | tokens => do
      let (item, rest) ← value fuel tokens
      match rest with
      | .comma :: rest => items fuel (done ++ [item]) rest
      | .closeList :: rest => .ok (ofItems (done ++ [item]), rest)
      | _ => .error .refused

/-- The fields of a table between braces. Commas stand between fields; whether the last
thing read was one is known unless nothing was. -/
def fields : Nat → Toml → Option Bool → List Token → Reading (Toml × List Token)
  | 0, _, _, _ => .error .refused
  | fuel + 1, done, comma, tokens =>
    match tokens with
    | .closeTable :: rest => if comma = some true then .error .refused else .ok (close done, rest)
    | .comma :: rest => if comma = some true then .error .refused else fields fuel done (some true) rest
    | .key spelling :: .equals :: rest =>
      if comma = some false then .error .refused
      else do
        let path ← accept (keyPath? spelling)
        let (item, rest) ← value fuel rest
        fields fuel (put item path done) (some false) rest
    | _ => .error .refused

end

structure Progress where
  root : Toml := empty
  current : List String := []
  headers : List (List Char) := []

namespace Progress

def define? (p : Progress) (path : List String) (value : Toml) : Option Progress := do
  let name ← path.getLast?
  return { p with root := ← update? (Toml.define? name value) (p.current ++ path.dropLast) p.root }

def enter? (p : Progress) (spelling : List Char) : Option Progress :=
  if p.headers.contains spelling then none
  else do
    let path ← keyPath? spelling
    let root ← extend? path p.root
    match root.follow? path with
    | some (.table true _) => none
    | _ => return { root, current := path, headers := spelling :: p.headers }

/-- A further table of an array of tables; headers of tables inside it count anew. -/
def enterNext? (p : Progress) (spelling : List Char) : Option Progress := do
  let path ← keyPath? spelling
  let root := (extend? path.dropLast p.root).getD p.root
  let earlier ← match root.follow? path with
    | none => some []
    | some (.tables items) => some items
    | some _ => none
  let headers := p.headers.filter fun header => !(spelling ++ ['.']).isPrefixOf header
  let root := put (.tables (earlier ++ [empty])) path root
  return { root, current := path, headers := spelling :: headers }

end Progress

def read : Nat → Progress → List Token → Reading Toml
  | _, p, [] => .ok p.root
  | 0, _, _ => .error .refused
  | fuel + 1, p, tokens =>
    match tokens with
    | .openList :: .header spelling :: .closeList :: rest => do
      read fuel (← accept (p.enter? spelling)) rest
    | .openArray :: .arrayHeader spelling :: .closeArray :: rest => do
      read fuel (← accept (p.enterNext? spelling)) rest
    | .key spelling :: .equals :: rest => do
      let path ← accept (keyPath? spelling)
      let (item, rest) ← value (2 * rest.length + 2) rest
      read fuel (← accept (p.define? path item)) rest
    | _ => .error .refused

def parse (text : String) : Reading Toml :=
  let tokens := scan text.toList
  read tokens.length {} tokens

end ScopeIR.Toml
