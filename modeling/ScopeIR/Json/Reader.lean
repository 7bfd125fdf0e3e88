import ScopeIR.Json.Basic
import ScopeIR.Number.Digits

/-! Reading JSON text. The readers take the characters that are left and return a
value with the characters after it. -/
namespace ScopeIR.Json

/-- Lists and objects inside each other go no deeper than this. -/
def maxNesting : Nat := 10000

def isBlank (c : Char) : Bool := c == ' ' || c == '\t' || c == '\n' || c == '\r'

def skipBlank (text : List Char) : List Char := text.dropWhile isBlank

def hexValue? (c : Char) : Option Nat :=
  let n := c.toNat
  if 48 ≤ n ∧ n ≤ 57 then some (n - 48)
  else if 97 ≤ n ∧ n ≤ 102 then some (n - 87)
  else if 65 ≤ n ∧ n ≤ 70 then some (n - 55)
  else none

def unit? (a b c d : Char) : Option Nat := do
  let a ← hexValue? a
  let b ← hexValue? b
  let c ← hexValue? c
  let d ← hexValue? d
  return ((a * 16 + b) * 16 + c) * 16 + d

def isHighSurrogate (unit : Nat) : Bool := 0xD800 ≤ unit && unit < 0xDC00
def isLowSurrogate (unit : Nat) : Bool := 0xDC00 ≤ unit && unit < 0xE000

def replacement : Char := Char.ofNat 0xFFFD

/-- A unit that is half of a pair stands for no character of its own. -/
def charOfUnit (unit : Nat) : Char :=
  if isHighSurrogate unit || isLowSurrogate unit then replacement else Char.ofNat unit

def simpleEscape? : Char → Option Char
  | '"' => some '"'
  | '\\' => some '\\'
  | '/' => some '/'
  | 'b' => some (Char.ofNat 8)
  | 'f' => some (Char.ofNat 12)
  | 'n' => some '\n'
  | 'r' => some '\r'
  | 't' => some '\t'
  | _ => none

/-- Part of a string: a character, or a UTF-16 unit spelled by number. -/
inductive Piece where
  | char (c : Char)
  | unit (n : Nat)

def pieces : List Char → Option (List Piece × List Char)
  | [] => none
  | '"' :: rest => some ([], rest)
  | '\\' :: 'u' :: a :: b :: c :: d :: rest => do
    let n ← unit? a b c d
    let (tail, rest) ← pieces rest
    return (.unit n :: tail, rest)
  | '\\' :: c :: rest => do
    let c ← simpleEscape? c
    let (tail, rest) ← pieces rest
    return (.char c :: tail, rest)
  | c :: rest => do
    if c.toNat < 0x20 || c == '\\' then none
    let (tail, rest) ← pieces rest
    return (.char c :: tail, rest)

/-- A high and a low unit next to each other are one character; any other half of a
pair is replaced. The first argument is a unit that waits for its other half. -/
def joinPieces : Option Nat → List Piece → List Char
  | none, [] => []
  | some n, [] => [charOfUnit n]
  | none, .char c :: rest => c :: joinPieces none rest
  | some n, .char c :: rest => charOfUnit n :: c :: joinPieces none rest
  | none, .unit m :: rest => joinPieces (some m) rest
  | some n, .unit m :: rest =>
    if isHighSurrogate n && isLowSurrogate m then
      Char.ofNat (0x10000 + (n - 0xD800) * 0x400 + (m - 0xDC00)) :: joinPieces none rest
    else charOfUnit n :: joinPieces (some m) rest

def stringBody (text : List Char) : Option (List Char × List Char) :=
  (pieces text).map fun (parts, rest) => (joinPieces none parts, rest)

def digits1 (text : List Char) : Option (List Char × List Char) :=
  match text.takeWhile Char.isDigit with
  | [] => none
  | run => some (run, text.dropWhile Char.isDigit)

def wholePart : List Char → Option (List Char × List Char)
  | '0' :: rest => some (['0'], rest)
  | text => digits1 text

def fractionPart : List Char → Option (Option (List Char) × List Char)
  | '.' :: rest => (digits1 rest).map fun (run, rest) => (some run, rest)
  | text => some (none, text)

def signedExponent : List Char → Option (Int × List Char)
  | '-' :: rest => (digits1 rest).map fun (run, rest) => (-(naturalOf run : Int), rest)
  | '+' :: rest => (digits1 rest).map fun (run, rest) => ((naturalOf run : Int), rest)
  | text => (digits1 text).map fun (run, rest) => ((naturalOf run : Int), rest)

def exponentPart : List Char → Option (Option Int × List Char)
  | 'e' :: rest | 'E' :: rest => (signedExponent rest).map fun (e, rest) => (some e, rest)
  | text => some (none, text)

def unsigned (negative : Bool) (text : List Char) : Option (Numeral × List Char) := do
  let (whole, rest) ← wholePart text
  let (fraction, rest) ← fractionPart rest
  let (exponent, rest) ← exponentPart rest
  let places := fraction.getD []
  let magnitude := ⟨naturalOf (whole ++ places), exponent.getD 0 - places.length⟩
  return (⟨negative, magnitude, fraction.isNone && exponent.isNone⟩, rest)

def number : List Char → Option (Numeral × List Char)
  | '-' :: rest => unsigned true rest
  | text => unsigned false text

mutual

/-- A value that starts at the first character. The first argument bounds the number
of reader calls, the second how many containers may still be opened inside each other. -/
def value : Nat → Nat → List Char → Option (Json × List Char)
  | 0, _, _ => none
  | fuel + 1, room, text =>
    match text with
    | 'n' :: 'u' :: 'l' :: 'l' :: rest => some (.null, rest)
    | 't' :: 'r' :: 'u' :: 'e' :: rest => some (.bool true, rest)
    | 'f' :: 'a' :: 'l' :: 's' :: 'e' :: rest => some (.bool false, rest)
    | '"' :: rest => (stringBody rest).map fun (body, rest) => (.str (String.ofList body), rest)
    | '[' :: rest =>
      match room with
      | 0 => none
      | room + 1 =>
        match skipBlank rest with
        | ']' :: rest => some (.arr [], rest)
        | rest => (elements fuel room rest).map fun (items, rest) => (.arr items, rest)
    | '\x7b' :: rest =>
      match room with
      | 0 => none
      | room + 1 =>
        match skipBlank rest with
        | '\x7d' :: rest => some (.obj [], rest)
        | rest => (members fuel room rest).map fun (fields, rest) => (.obj fields, rest)
    | _ => (number text).map fun (n, rest) => (.num n, rest)

def elements : Nat → Nat → List Char → Option (List Json × List Char)
  | 0, _, _ => none
  | fuel + 1, room, text => do
    let (item, rest) ← value fuel room text
    match skipBlank rest with
    | ',' :: rest =>
      let (items, rest) ← elements fuel room (skipBlank rest)
      return (item :: items, rest)
    | ']' :: rest => return ([item], rest)
    | _ => none

def members : Nat → Nat → List Char → Option (List (String × Json) × List Char)
  | 0, _, _ => none
  | fuel + 1, room, text =>
    match text with
    | '"' :: rest => do
      let (name, rest) ← stringBody rest
      match skipBlank rest with
      | ':' :: rest =>
        let (item, rest) ← value fuel room (skipBlank rest)
        let field := (String.ofList name, item)
        match skipBlank rest with
        | ',' :: rest =>
          let (fields, rest) ← members fuel room (skipBlank rest)
          return (field :: fields, rest)
        | '\x7d' :: rest => return ([field], rest)
        | _ => none
      | _ => none
    | _ => none

end

def parse? (text : List Char) : Option Json :=
  match value (2 * text.length + 2) maxNesting (skipBlank text) with
  | some (json, rest) => if (skipBlank rest).isEmpty then some json else none
  | none => none

end ScopeIR.Json
