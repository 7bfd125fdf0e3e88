import ScopeIR.Failure
import ScopeIR.Number.Digits
import ScopeIR.Number.Power
import ScopeIR.Text.Quoted

/-! Version numbers: up to three numbers, a pre-release part after a dash and build
metadata after a plus sign. -/
namespace ScopeIR

/-- Numbers that are not spelled are zero. -/
structure Version where
  major : Nat
  minor : Nat
  patch : Nat
  preRelease : List String
  metadata : List String
deriving DecidableEq, Repr

namespace Version

def isPartChar (c : Char) : Bool := c.isAlphanum || c == '-'

def digits? (text : List Char) : Option (List Char × List Char) :=
  match text.takeWhile Char.isDigit with
  | [] => none
  | run => some (run, text.dropWhile Char.isDigit)

/-- A further number after a point; the text is left alone if there is none. -/
def segment (text : List Char) : Option (List Char) × List Char :=
  match text with
  | '.' :: rest => match digits? rest with
    | some (run, rest) => (some run, rest)
    | none => (none, text)
  | _ => (none, text)

def parts? (text : List Char) : Option (List String) :=
  let parts := (String.ofList text).splitOn "."
  if parts.all fun part => !part.isEmpty && part.toList.all isPartChar then some parts else none

def number (digits : List Char) : Outcome Nat :=
  let n := naturalOf digits
  if n < pow2 64 then .ok n else Outcome.fail (.versionSegmentRange (String.ofList digits))

/-- A numeric pre-release part is spelled without a leading zero. -/
def hasLeadingZero (part : String) : Bool :=
  match part.toList with
  | '0' :: _ :: _ => part.toList.all Char.isDigit
  | _ => false

def dropMark : List Char → List Char
  | 'v' :: rest => rest
  | text => text

def markedParts? (mark : Char) : List Char → Option (List String)
  | [] => some []
  | c :: rest => if c == mark then parts? rest else none

def scan? (text : List Char) :
    Option (List Char × Option (List Char) × Option (List Char) × List String × List String) := do
  let isBody (c : Char) : Bool := c != '+'
  let metadata ← markedParts? '+' (text.dropWhile isBody)
  let (major, rest) ← digits? (dropMark (text.takeWhile isBody))
  let (minor, rest) := segment rest
  let (patch, rest) := segment rest
  let preRelease ← markedParts? '-' rest
  return (major, minor, patch, preRelease, metadata)

def parse (text : String) : Outcome Version :=
  match scan? text.toList with
  | none => Outcome.fail .invalidVersion
  | some (major, minor, patch, preRelease, metadata) => do
    let major ← number major
    let minor ← number (minor.getD [])
    let patch ← number (patch.getD [])
    if preRelease.any hasLeadingZero then Outcome.fail .versionLeadingZero
    else return { major, minor, patch, preRelease, metadata }

def compatibleRange : String := "^1"

/-- From 1.0.0 up to, not including, 2.0.0; pre-releases are left out. -/
def isCompatible (v : Version) : Bool := v.major == 1 && v.preRelease.isEmpty

def check (text : String) : Outcome Unit := do
  let v ← (parse text).within ("version " ++ Text.quote text)
  if v.isCompatible then return ()
  else Outcome.failAt [text ++ " not in " ++ compatibleRange] .incompatibleVersion

end Version

end ScopeIR
