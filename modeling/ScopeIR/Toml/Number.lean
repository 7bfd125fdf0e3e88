namespace ScopeIR.Toml

def cons (c : Char) (scanned : Option (List Char × List Char)) : Option (List Char × List Char) :=
  scanned.map fun (run, rest) => (c :: run, rest)

def hexValue? (c : Char) : Option Nat :=
  if c.isDigit then some (c.toNat - 48)
  else if 'a' ≤ c && c ≤ 'f' then some (c.toNat - 87)
  else if 'A' ≤ c && c ≤ 'F' then some (c.toNat - 55)
  else none

def naturalIn? (base : Nat) (digits : List Char) : Option Nat :=
  digits.foldlM (fun n c => do
    let d ← hexValue? c
    if d < base then some (base * n + d) else none) 0

def decimalChars (digit point : Bool) : List Char → Option (List Char × List Char)
  | [] => if digit then some ([], []) else none
  | c :: rest =>
    if c == '.' then
      if point || !digit || !rest.head?.any Char.isDigit then none
      else cons c (decimalChars digit true rest)
    else if c == 'e' || c == 'E' then
      match rest with
      | '+' :: rest => cons c (cons '+' (decimalChars digit point rest))
      | '-' :: rest => cons c (cons '-' (decimalChars digit point rest))
      | rest => cons c (decimalChars digit point rest)
    else if c.isDigit then cons c (decimalChars true point rest)
    else if c == '_' then cons c (decimalChars digit point rest)
    else if digit then some ([], c :: rest)
    else none

def baseOf? (mark : Char) : Option Nat :=
  match mark with
  | 'x' => some 16
  | 'o' => some 8
  | 'b' => some 2
  | _ => none

def unsigned? (text : List Char) : Option (List Char × List Char) :=
  match text with
  | '0' :: mark :: rest =>
    match baseOf? mark with
    | some base =>
      let isIn (c : Char) : Bool := c == '_' || (hexValue? c).any (· < base)
      let digits := rest.takeWhile isIn
      if digits.isEmpty then none else some ('0' :: mark :: digits, rest.dropWhile isIn)
    | none => if mark.isAlpha then none else decimalChars false false text
  | _ => decimalChars false false text

end ScopeIR.Toml
