import ScopeIR.Directory
import ScopeIR.Text.Quoted
import ScopeIR.Toml.Reader

namespace ScopeIR

structure Settings where
  globals : List String := []
  /-- The spelling of the output format; `validate` tells whether it names one. -/
  format : String := "json"
  dir : String := ""
  jobs : Int := 1
  verify : Bool := true
  verbosity : String := ""
deriving DecidableEq, Repr

inductive OutputFormat where
  | json
  | text
deriving DecidableEq, Repr

def OutputFormat.ofName? (name : String) : Option OutputFormat :=
  if name = "json" then some .json
  else if name = "text" then some .text
  else none

def OutputFormat.extension : OutputFormat → String
  | .json => ".ir.json"
  | .text => ".ir.txt"

namespace Settings

def outputFormat (s : Settings) : OutputFormat := (OutputFormat.ofName? s.format).getD .json

/-- Refuses an unknown format, and works with at least one job. -/
def validate (s : Settings) : Outcome Settings :=
  match OutputFormat.ofName? s.format with
  | none => Outcome.failAt [Text.quote s.format] .outputFormat
  | some _ => .ok (if s.jobs < 1 then { s with jobs := 1 } else s)

def addGlobals (s : Settings) (names : List String) : Settings :=
  { s with globals := names.foldl (fun known name =>
      if known.contains name then known else known ++ [name]) s.globals }

def entry? (name : String) (table : Toml) : Option Toml :=
  (table.get? name).or (table.get? name.toUpper)

def textOf? : Toml → Option String
  | .text value => some value
  | _ => none

def boolOf? : Toml → Option Bool
  | .bool value => some value
  | _ => none

def intOf? : Toml → Option Int
  | .int value => some value
  | _ => none

def textsOf? : Toml → Option (List String)
  | .list items => items.mapM textOf?
  | _ => none

def tableOf? (node : Toml) : Option Toml := if node.isTable then some node else none

def field? {α : Type} (of? : Toml → Option α) (name : String) (absent : α) (table : Toml) :
    Option α :=
  match entry? name table with
  | none => some absent
  | some node => of? node

def ofToml? (table : Toml) : Option Settings := do
  let base : Settings := {}
  let globals ← field? textsOf? "globals" base.globals table
  let output ← field? tableOf? "output" Toml.empty table
  let format ← field? textOf? "format" base.format output
  let dir ← field? textOf? "dir" base.dir output
  let jobs ← field? intOf? "jobs" base.jobs table
  let verify ← field? boolOf? "verify" base.verify table
  let verbosity ← field? textOf? "verbosity" base.verbosity table
  return { globals, format, dir, jobs, verify, verbosity }

def parse (text : String) : Outcome Settings :=
  match Toml.parse text with
  | .error .misplaced => Outcome.fail .undefined
  | .error .refused => Outcome.failAt ["parse config"] .tomlText
  | .ok table =>
    match ofToml? table with
    | none => Outcome.failAt ["parse config"] .tomlText
    | some settings => settings.validate

def load (files : Directory) (name : String) (optional : Bool) : Outcome Settings :=
  match files.read name with
  | .ok text => parse text
  | .error failure =>
    match optional, failure.cause with
    | true, .missingFile _ => .ok {}
    | _, _ => .error (failure.within "read config")

end Settings

end ScopeIR
