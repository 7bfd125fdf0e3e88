namespace ScopeIR.Text

/-- The text without codes that set a colour: an escape character, an opening bracket,
digits, semicolons or question marks, and an `m`. -/
def withoutColours : Nat → List Char → List Char
  | 0, text => text
  | _, [] => []
  | fuel + 1, '\x1b' :: '[' :: rest =>
    let isInside (c : Char) : Bool := c.isDigit || c == ';' || c == '?'
    match rest.takeWhile isInside, rest.dropWhile isInside with
    | _ :: _, 'm' :: after => withoutColours fuel after
    | _, _ => '\x1b' :: withoutColours fuel ('[' :: rest)
  | fuel + 1, c :: rest => c :: withoutColours fuel rest

def width (text : String) : Nat := (withoutColours text.length text.toList).length

def widths (rows : List (List String)) : List Nat :=
  rows.foldl (fun done row =>
    (List.range (max done.length row.length)).map fun i =>
      max (done.getD i 0) (width (row.getD i ""))) []

def padTo (columns : Nat) (text : String) : String :=
  text ++ "".pushn ' ' (columns - width text)

def columns (rows : List (List String)) : String :=
  let widths := widths rows
  "\n".intercalate (rows.map fun row =>
    " | ".intercalate (row.zipIdx.map fun (cell, i) => padTo (widths.getD i 0) cell))

end ScopeIR.Text
