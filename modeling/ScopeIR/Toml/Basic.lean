import ScopeIR.Number.Binary64

/-! TOML values. Tables are lists of entries in the order in which they were made. -/
namespace ScopeIR

/-- A closed table was written between braces and takes no further entries; `tables`
holds the tables of an array of tables. -/
inductive Toml where
  | text (value : String)
  | int (value : Int)
  | float (value : Binary64)
  | bool (value : Bool)
  | moment (lexeme : String)
  | list (items : List Toml)
  | table (closed : Bool) (entries : List (String × Toml))
  | tables (items : List Toml)
deriving Repr

namespace Toml

def empty : Toml := .table false []

def isTable : Toml → Bool
  | .table .. => true
  | _ => false

def get? (name : String) : Toml → Option Toml
  | .table _ entries => entries.lookup name
  | _ => none

/-- What stands at the end of a path. An array of tables on the way stands for its last
one, and any other value bars the way. -/
def follow? : List String → Toml → Option Toml
  | [], node => some node
  | [name], node => node.get? name
  | name :: path, node =>
    match node.get? name with
    | some (.table closed entries) => follow? path (.table closed entries)
    | some (.tables items) => items.getLast?.bind (follow? path)
    | _ => none

def setEntry (name : String) (value : Toml) : List (String × Toml) → List (String × Toml)
  | [] => [(name, value)]
  | (other, old) :: rest =>
    if other = name then (name, value) :: rest else (other, old) :: setEntry name value rest

def updateLast? (change : Toml → Option Toml) : List Toml → Option (List Toml)
  | [] => none
  | [last] => (change last).map fun last => [last]
  | item :: rest => (updateLast? change rest).map (item :: ·)

/-- Changes the table at the end of a path. Missing tables on the way are made, an array
of tables stands for its last one, and any other value bars the way. -/
def update? (change : Toml → Option Toml) : List String → Toml → Option Toml
  | [], node => change node
  | name :: path, .table closed entries => do
    let child ← match (entries.lookup name).getD (.table closed []) with
      | .tables items => (updateLast? (update? change path) items).map Toml.tables
      | .table c inner => update? change path (.table c inner)
      | _ => none
    return .table closed (setEntry name child entries)
  | _, _ => none

def extend? (path : List String) (root : Toml) : Option Toml := update? some path root

def setLast (change : Toml → Toml) : List Toml → List Toml
  | [] => []
  | [last] => [change last]
  | item :: rest => item :: setLast change rest

/-- Sets what stands at the end of a path, whatever it was. A value on the way that holds
no tables is passed over: the rest of the path starts at the table around it. -/
def put (value : Toml) : List String → Toml → Toml
  | [name], .table closed entries => .table closed (setEntry name value entries)
  | name :: path, .table closed entries =>
    match entries.lookup name with
    | none => .table closed (setEntry name (put value path empty) entries)
    | some (.table c inner) =>
      .table closed (setEntry name (put value path (.table c inner)) entries)
    | some (.tables items) =>
      .table closed (setEntry name (.tables (setLast (put value path) items)) entries)
    | some _ => put value path (.table closed entries)
  | _, node => node

def define? (name : String) (value : Toml) : Toml → Option Toml
  | .table false entries =>
    if (entries.lookup name).isSome then none else some (.table false (setEntry name value entries))
  | _ => none

end Toml

end ScopeIR
