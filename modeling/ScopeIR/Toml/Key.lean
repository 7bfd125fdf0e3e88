import ScopeIR.Toml.Text

/-! Keys of TOML text: names with points between them, each bare or in quotes. -/
namespace ScopeIR.Toml

def isBare (c : Char) : Bool := c.isAlphanum || c == '_' || c == '-'

/-- The spelling of a key. It ends before an equals sign, or at a gap that no point
follows. -/
def keySpelling : Nat → List Char → Option (List Char × List Char)
  | 0, _ => none
  | _, [] => some ([], [])
  | fuel + 1, c :: rest =>
    if c == '=' then some ([], c :: rest)
    else if c == '"' || c == '\'' then do
      let (body, rest) ← if c == '"' then stringBody ['"'] true (rest.length + 1) rest
        else literalBody ['\''] rest
      let (tail, rest) ← keySpelling fuel rest
      return (c :: body ++ c :: tail, rest)
    else if isGap c then
      match rest.dropWhile isGap with
      | '.' :: after => do
        let gap := ' ' :: rest.takeWhile isGap ++ '.' :: after.takeWhile isGap
        let (tail, rest) ← keySpelling fuel (after.dropWhile isGap)
        return (gap ++ tail, rest)
      | after => some ([], after)
    else if c == '.' || isBare c then cons c (keySpelling fuel rest)
    else none

def keyNames? : Nat → List Char → Option (List String)
  | 0, _ => none
  | fuel + 1, spelling =>
    match spelling.dropWhile isGap with
    | [] => some []
    | '.' :: rest =>
      if rest.head?.any fun c => isBare c || c == '\'' || c == '"' || c == ' ' then
        keyNames? fuel rest
      else none
    | c :: rest =>
      if c == '"' || c == '\'' then do
        let (name, rest) ← literalBody [c] rest
        return String.ofList name :: (← keyNames? fuel rest)
      else if isBare c then
        let name := String.ofList (c :: rest.takeWhile isBare)
        let after := rest.dropWhile isBare
        match after.dropWhile isGap with
        | [] => some [name]
        | '.' :: tail => (keyNames? fuel ('.' :: tail)).map (name :: ·)
        | _ => none
      else none

def keyPath? (spelling : List Char) : Option (List String) :=
  (keyNames? (spelling.length + 1) spelling).filter (!·.isEmpty)

end ScopeIR.Toml
