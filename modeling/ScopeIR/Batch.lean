import ScopeIR.Compile
import ScopeIR.Directory

/-! Compiling many files. Workers take up the files in list order, no more than the jobs
allow at a time, and finish in any order; the first failure recorded decides, and
results stand in list order. -/
namespace ScopeIR

def parseFile (files : Directory) (name : String) : Outcome Node := do
  Node.parseProgram (← (files.read name).within "read file")

structure Compiled where
  file : String
  functions : List Function

def compileFile (files : Directory) (options : CompileOptions) (name : String) : CompileResult :=
  match (files.read name).within "read file" with
  | .error failure => ⟨.error failure, []⟩
  | .ok text => compile options name text

/-- The work on one file of a list; its failure names the file. -/
def CompileResult.listed (name : String) (result : CompileResult) : Outcome Compiled :=
  Outcome.within name (result.functions.map fun functions => ⟨name, functions⟩)

namespace Batch

inductive WorkerStep where
  /-- The next file is taken up. -/
  | start
  /-- The file at a position of the list is finished. -/
  | finish (position : Nat)
deriving DecidableEq, Repr

/-- How far the workers are: how many files were taken up, which of them are unfinished,
and the finished ones, oldest first. -/
structure Progress (α : Type) where
  started : Nat := 0
  running : List Nat := []
  finished : List (Nat × Outcome α) := []

/-- Zero jobs or fewer set no limit. -/
def hasRoom (jobs : Int) {α : Type} (p : Progress α) : Bool :=
  decide (jobs ≤ 0) || decide ((p.running.length : Int) < jobs)

def step? {α : Type} (jobs : Int) (tasks : List (Outcome α)) (p : Progress α) :
    WorkerStep → Option (Progress α)
  | .start =>
    if p.started < tasks.length && hasRoom jobs p then
      some { p with started := p.started + 1, running := p.started :: p.running }
    else none
  | .finish position =>
    if p.running.contains position then
      (tasks[position]?).map fun outcome =>
        { p with
          running := p.running.erase position
          finished := p.finished ++ [(position, outcome)] }
    else none

def failureOf? {α : Type} : Nat × Outcome α → Option Failure
  | (_, .error failure) => some failure
  | _ => none

def resultAt? {α : Type} (p : Progress α) (position : Nat) : Option α :=
  match p.finished.lookup position with
  | some (.ok result) => some result
  | _ => none

def outcome {α : Type} (p : Progress α) : Outcome (List α) :=
  match p.finished.findSome? failureOf? with
  | some failure => .error failure
  | none => .ok ((List.range p.started).filterMap (resultAt? p))

def run? {α : Type} (jobs : Int) (tasks : List (Outcome α)) (schedule : List WorkerStep) :
    Option (Progress α) :=
  schedule.foldlM (step? jobs tasks) {}

/-- Each file is finished before the next is taken up, which every limit allows. -/
def inOrder (count : Nat) : List WorkerStep :=
  (List.range count).flatMap fun position => [.start, .finish position]

/-- How the workers take turns, for each number of jobs and of files. -/
abbrev Workers := Int → Nat → List WorkerStep

def oneByOne : Workers := fun _ => inOrder

end Batch

structure BatchResult where
  results : Outcome (List Compiled)
  log : List Event

/-- The reports of each file stand together, those of the first that was finished first. -/
def compileFiles (files : Directory) (options : CompileOptions) (jobs : Int)
    (names : List String) (workers : Batch.Workers := Batch.oneByOne) : BatchResult :=
  let work := names.map (compileFile files options)
  let tasks := names.zipWith CompileResult.listed work
  let progress := (Batch.run? jobs tasks (workers jobs names.length)).getD {}
  { results := Batch.outcome progress
    log := progress.finished.flatMap fun entry => ((work[entry.1]?).map (·.log)).getD [] }

end ScopeIR
