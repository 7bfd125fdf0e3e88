import ScopeIR.Batch
import ScopeIR.CommandLine.Help
import ScopeIR.Document.Reader
import ScopeIR.Document.ToFunctions
import ScopeIR.Document.Writer
import ScopeIR.Lowering.Log
import ScopeIR.Settings
import ScopeIR.Stats

/-! The commands, as functions of the words on the command line and the files around. -/
namespace ScopeIR.CommandLine

structure World where
  files : Directory
  /-- The directories that were made, as they are spelled. There need be no file in them. -/
  made : List String := []
  stdout : String := ""
  log : List Event := []
  /-- The topics of the log. -/
  topics : String := ""
  workers : Batch.Workers := Batch.oneByOne

/-- What a path leads to, with the directories that were made. -/
def World.entry (w : World) (name : String) : Directory.Entry :=
  if w.made.any fun dir => Path.clean dir = Path.clean name then .directory
  else w.files.entry name

/-- A failing command keeps what it did before. -/
abbrev Effect := EStateM Failure World

namespace Effect

def lift {α : Type} (outcome : Outcome α) : Effect α :=
  match outcome with
  | .ok a => return a
  | .error failure => throw failure

def within {α : Type} (context : String) (effect : Effect α) : Effect α :=
  tryCatch effect fun failure => throw (failure.within context)

def print (text : String) : Effect Unit :=
  modify fun w => { w with stdout := w.stdout ++ text }

def readFile (name : String) : Effect String := do lift ((← get).files.read name)

def report (events : List Event) : Effect Unit :=
  modify fun w => { w with log := w.log ++ events }

/-- What was made before is there already. -/
def makeDirectory (dir : String) : Effect Unit := do
  let w ← get
  unless w.made.contains dir do
    lift (w.files.makeAll dir)
    set { w with made := w.made ++ Directory.lineage dir }

def writeFile (name text : String) : Effect Unit := do
  let w ← get
  match w.entry name with
  | .file _ | .missing =>
    if Directory.fits name then set { w with files := w.files.write name text }
    else throw { cause := .nameTooLong "open" name }
  | entry => throw { cause := entry.refusal "open" name }

end Effect

open Effect

def setup (i : Invocation) : Effect Settings := do
  let settings ← within "config"
    (lift (Settings.load (← get).files i.config (i.config == defaultConfig)))
  let settings :=
    if i.globals.isEmpty then settings else settings.addGlobals (i.globals.splitOn ",")
  if i.verbosity.isEmpty then
    modify fun w => { w with topics := settings.verbosity }
  return settings

def override (i : Invocation) (settings : Settings) : Settings :=
  { settings with
    format := if i.format.isEmpty then settings.format else i.format
    dir := if i.out.isEmpty then settings.dir else i.out
    jobs := if 0 < i.jobs then i.jobs else settings.jobs
    verify := settings.verify && !i.noVerify }

def compileAll (settings : Settings) (names : List String) : Effect (List Compiled) := do
  let w ← get
  let result := compileFiles w.files ⟨settings.globals, settings.verify⟩ settings.jobs names
    w.workers
  report result.log
  lift result.results

/-- The name of a file without directories and without what follows its last point. -/
def baseName (name : String) : String :=
  let last := ((Path.ofString name).getLast?.getD "").toList
  match last.reverse.dropWhile (· != '.') with
  | _ :: stem => String.ofList stem.reverse
  | [] => String.ofList last

def outputName (dir extension file : String) : String :=
  Path.toString (Path.clean (dir ++ "/" ++ baseName file ++ extension))

def render (compiled : Compiled) : OutputFormat → Outcome String
  | .json => Document.marshal compiled.file compiled.functions
  | .text => Function.dumpAll compiled.functions

def writeOutput (settings : Settings) (compiled : Compiled) : Effect Unit := do
  let text ← lift (render compiled settings.outputFormat)
  if settings.dir.isEmpty then print text
  else
    within "create output dir" (makeDirectory settings.dir)
    writeFile (outputName settings.dir settings.outputFormat.extension compiled.file) text

def writeOutputs (settings : Settings) (compiled : List Compiled) : Effect Unit :=
  compiled.forM fun c => within ("write " ++ c.file) (writeOutput settings c)

def configure (i : Invocation) : Effect Settings := do
  lift (override i (← setup i)).validate

def transpile (i : Invocation) : Effect Unit := do
  let settings ← configure i
  writeOutputs settings (← compileAll settings i.arguments)

def printDocument (name : String) : Effect Unit := do
  let text ← within ("read " ++ name) (readFile name)
  let d ← within ("load " ++ name) (lift (Document.load text))
  let functions ← within ("decode " ++ name) (lift d.decode)
  let dump ← within ("format " ++ name) (lift (Function.dumpAll functions))
  print ("// " ++ d.file ++ " version " ++ d.version ++ "\n" ++ dump)

def statsHeader : List String :=
  ["File", "Function", "Params", "Blocks", "Instructions", "Calls", "Synthetic", "Constants",
    "Closures"]

def statsRow (file : String) (s : Stats) : List String :=
  [file, s.name, toString s.parameters, toString s.blocks, toString s.instructions,
    toString s.calls, toString s.primitives, toString s.constants, toString s.closures]

def stats (i : Invocation) : Effect Unit := do
  let compiled ← compileAll (← setup i) i.arguments
  let rows := compiled.flatMap fun c =>
    c.functions.map fun f => statsRow c.file (Stats.ofFunction f)
  print (Text.columns (statsHeader :: rows) ++ "\n")

/-- Files are watched from outside; here only the settings are read. -/
def watch (i : Invocation) : Effect Unit := do
  let _ ← setup i
  throw { cause := .usage "no file events" }

def runCommand (i : Invocation) (command : Command) : Effect Unit :=
  match command with
  | .transpile => transpile i
  | .print => i.arguments.forM printDocument
  | .stats => stats i
  | .watch => watch i

structure Report where
  exit : Nat
  stdout : String
  stderr : String
  files : Directory
deriving DecidableEq, Repr

def errorLine (failure : Failure) : String := "error: " ++ failure.message ++ "\n"

/-- Failures exit with one, operations that have no meaning with two. -/
def exitOf : Option Failure → Nat
  | none => 0
  | some failure => if failure.cause = .undefined then 2 else 1

/-- The log goes to a file, or in front of the error. -/
def Report.ofWorld (i : Invocation) (w : World) (failure : Option Failure) : Report :=
  let log := String.join ((w.log.filter (·.isShown w.topics)).map Event.line)
  let error := (failure.map errorLine).getD ""
  match i.logFile? with
  | none => ⟨exitOf failure, w.stdout, log ++ error, w.files⟩
  | some name => ⟨exitOf failure, w.stdout, error, w.files.write name log⟩

/-- A log file is made anew before the command reads anything. -/
def openLog (i : Invocation) (files : Directory) : Outcome Directory :=
  match i.logFile? with
  | none => .ok files
  | some name =>
    i.inCommand ((((files.create name).within "open log file").within toolName).within "before")

def runTask (i : Invocation) (command : Command) (files : Directory)
    (workers : Batch.Workers := Batch.oneByOne) : Report :=
  match openLog i files with
  | .error failure => ⟨1, "", errorLine failure, files⟩
  | .ok files =>
    match (runCommand i command).run { files, topics := i.verbosity, workers } with
    | .ok () w => Report.ofWorld i w none
    | .error failure w =>
      let called := (i.command.map (·.2)).getD ""
      Report.ofWorld i w (some (failure.within called))

def run (words : List String) (files : Directory)
    (workers : Batch.Workers := Batch.oneByOne) : Report :=
  match Invocation.read files words with
  | .error failure => ⟨1, "", errorLine failure, files⟩
  | .ok i =>
    match i.task? with
    | none => ⟨0, help i, "", files⟩
    | some command => runTask i command files workers

end ScopeIR.CommandLine
