import ScopeIR.CommandLine.Run

/-! The command line tool. The files that are named on the command line, or in flag files,
are read before the run, and those that it changed are written after it. -/
namespace ScopeIR.CommandLine

def readInput (name : String) : IO (Option (String × String)) := do
  try
    return some (name, ← IO.FS.readFile name)
  catch _ => return none

def readFlagFiles (words : List String) : Nat → Directory → IO Directory
  | 0, files => return files
  | count + 1, files => do
    match Invocation.read files words with
    | .error ⟨_, .missingFile name⟩ =>
      match ← readInput name with
      | some file => readFlagFiles words count ⟨files.files ++ [file]⟩
      | none => return files
    | _ => return files

def makeLog (i : Invocation) : IO (List (String × String)) := do
  match i.task?.bind fun _ => i.logFile? with
  | none => return []
  | some name =>
    try
      IO.FS.writeFile name ""
      return [(name, "")]
    catch _ => return []

def writeChanged (before : Directory) (file : String × String) : IO Unit := do
  if before.files.contains file then return
  let parent := Path.toString (Path.clean file.1).dropLast
  if !parent.isEmpty then IO.FS.createDirAll parent
  IO.FS.writeFile file.1 file.2

end ScopeIR.CommandLine

open ScopeIR ScopeIR.CommandLine in
def main (words : List String) : IO UInt32 := do
  let flagFiles ← readFlagFiles words Invocation.maxFlagFiles {}
  let inputs ← match Invocation.read flagFiles words with
    | .ok i => do
      let log ← makeLog i
      pure (log ++ (← i.inputs.mapM readInput).filterMap id)
    | .error _ => pure []
  let files : Directory := ⟨flagFiles.files ++ inputs⟩
  let report := run words files
  IO.print report.stdout
  IO.eprint report.stderr
  report.files.files.forM (writeChanged files)
  return report.exit.toUInt32
