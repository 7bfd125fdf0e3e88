import ScopeIR.Failure
import ScopeIR.Json.Basic

/-! Reading JSON values into typed fields. A field may be written several times, and what
is written for it, first to last, is its history. A later value refines the earlier ones:
the members of records add up, items of lists refine those at the same place, and `null`
mostly leaves things as they were. -/
namespace ScopeIR.Json

abbrev History := List Json

/-- Letters that differ in case only are one; the long s and the kelvin sign count
among them. -/
def foldChar (c : Char) : Char :=
  if c.toNat = 0x17F then 's' else if c.toNat = 0x212A then 'k' else c.toLower

def foldName (name : String) : String := String.ofList (name.toList.map foldChar)

def mismatch {α : Type} : Outcome α := Outcome.fail .jsonType

/-- The last value that is not `null` counts, and all must be of the kind. -/
def readScalar {α : Type} (blank : α) (of? : Json → Option α) (history : History) : Outcome α :=
  history.foldlM (fun current json =>
    match json with
    | .null => .ok current
    | json => match of? json with
      | some value => .ok value
      | none => mismatch) blank

def readString : History → Outcome String := readScalar "" fun
  | .str text => some text
  | _ => none

def readInt : History → Outcome Int := readScalar 0 fun
  | .num n => n.int?
  | _ => none

def readBool : History → Outcome Bool := readScalar false fun
  | .bool value => some value
  | _ => none

def isNull : Json → Bool
  | .null => true
  | _ => false

def isEmptyList : Json → Bool
  | .arr [] => true
  | _ => false

/-- A field that can be absent; `null` makes it so, and what comes after starts anew. -/
def readOption {α : Type} (read : History → Outcome α) (history : History) :
    Outcome (Option α) := do
  let runs := history.splitOnP isNull
  let values ← runs.mapM read
  return if (runs.getLast?.getD []).isEmpty then none else values.getLast?

def addItems : List History → List Json → List History
  | places, [] => places
  | [], json :: rest => [json] :: addItems [] rest
  | place :: places, json :: rest => (place ++ [json]) :: addItems places rest

def itemsOf : Json → Outcome (List Json)
  | .arr items => .ok items
  | _ => mismatch

/-- The last list says how many items there are. A place that a shorter list leaves out
keeps its history for a longer one. -/
def readPlaces {α : Type} (read : History → Outcome α) (lists : History) : Outcome (List α) := do
  let lists ← lists.mapM itemsOf
  let items ← (lists.foldl addItems []).mapM read
  return items.take (lists.getLast?.getD []).length

/-- After `null` and after an empty list all places start anew. -/
def readList {α : Type} (read : History → Outcome α) (history : History) : Outcome (List α) := do
  let values ← (history.splitOnP fun json => isNull json || isEmptyList json).mapM (readPlaces read)
  return values.getLast?.getD []

def readMembers (history : History) : Outcome (List (String × Json)) :=
  history.foldlM (fun members json =>
    match json with
    | .null => .ok members
    | .obj more => .ok (members ++ more.map fun (name, value) => (foldName name, value))
    | _ => mismatch) []

def historyOf (members : List (String × Json)) (name : String) : History :=
  (members.filter fun member => member.1 = name).map (·.2)

end ScopeIR.Json
