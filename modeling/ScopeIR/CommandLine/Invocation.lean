import ScopeIR.Directory
import ScopeIR.Number.Digits
import ScopeIR.Number.Power
import ScopeIR.Text.Blank
import ScopeIR.Text.Quoted

/-! What a command line asks for. Flags of the whole tool may stand before or after the
command, those of a command only after it. A flag file stands for the words in it. -/
namespace ScopeIR.CommandLine

inductive Command where
  | transpile
  | print
  | stats
  | watch
deriving DecidableEq, Repr

namespace Command

def all : List Command := [.transpile, .print, .stats, .watch]

def names : Command → List String
  | .transpile => ["transpile", "t"]
  | .print => ["print"]
  | .stats => ["stats"]
  | .watch => ["watch"]

def description : Command → String
  | .transpile => "lower ESTree JSON files to IR"
  | .print => "print IR documents as text"
  | .stats => "show per function statistics"
  | .watch => "transpile files each time they change"

def ofName? (name : String) : Option Command := all.find? (·.names.contains name)

end Command

/-- The settings file that is read, if it exists, when no other is named. -/
def defaultConfig : String := "dbd.toml"

/-- Empty text, zero jobs and an unset switch leave the settings as they are. The command
goes with the name by which it was called. -/
structure Invocation where
  command : Option (Command × String) := none
  arguments : List String := []
  help : Bool := false
  config : String := defaultConfig
  globals : String := ""
  log : String := "stderr"
  verbosity : String := ""
  format : String := ""
  out : String := ""
  jobs : Int := 0
  noVerify : Bool := false
deriving DecidableEq, Repr

inductive Choice where
  | config
  | globals
  | log
  | verbosity
  | format
  | out
  | jobs
  | noVerify
deriving DecidableEq, Repr

namespace Choice

def isSwitch : Choice → Bool
  | .noVerify => true
  | _ => false

def number (text : String) : Outcome Int :=
  let refuse (reason : String) : Outcome Int :=
    Outcome.fail (.usage ("strconv.ParseInt: parsing " ++ Text.quote text ++ ": " ++ reason))
  match signedInt? text with
  | none => refuse "invalid syntax"
  | some n => if isInt64 n then .ok n else refuse "value out of range"

/-- Capital letters are as good as small ones, and an empty value sets a switch. -/
def truth (text : String) : Outcome Bool :=
  let text := text.toLower
  if ["", "1", "t", "true", "y", "yes"].contains text then .ok true
  else if ["0", "f", "false", "n", "no"].contains text then .ok false
  else Outcome.fail (.usage "not a bool value")

def set (choice : Choice) (value : String) (i : Invocation) : Outcome Invocation :=
  match choice with
  | .config => .ok { i with config := value }
  | .globals => .ok { i with globals := value }
  | .log => .ok { i with log := value }
  | .verbosity => .ok { i with verbosity := value }
  | .format => .ok { i with format := value }
  | .out => .ok { i with out := value }
  | .jobs => return { i with jobs := ← number value }
  | .noVerify => return { i with noVerify := ← truth value }

def current (i : Invocation) : Choice → String
  | .config => i.config
  | .globals => i.globals
  | .log => i.log
  | .verbosity => i.verbosity
  | .format => i.format
  | .out => i.out
  | .jobs => toString i.jobs
  | .noVerify => if i.noVerify then "true" else "false"

end Choice

inductive Flag where
  | choose (choice : Choice)
  /-- The words of a file are read in place of the flag. -/
  | file
  /-- Nothing after it is read. -/
  | help
deriving DecidableEq, Repr

def Flag.defaultValue? : Flag → Option String
  | .choose choice => if choice.isSwitch then some "" else none
  | .file => none
  | .help => some ""

structure FlagEntry where
  flag : Flag
  names : List String
  description : String
  /-- How a value is given, where that needs to be said. -/
  form : String := ""
deriving DecidableEq, Repr

def commonFlags : List FlagEntry := [
  ⟨.choose .config, ["config", "c"], "config file", ""⟩,
  ⟨.choose .globals, ["global", "g"], "comma separated host-defined globals", ""⟩,
  ⟨.choose .log, ["log"], "log output file", ""⟩,
  ⟨.choose .verbosity, ["verbosity", "v"], "logger verbosity topics", ""⟩,
  ⟨.file, ["flagfile", "ff"], "load flags from file", ""⟩,
  ⟨.help, ["help", "h"], "print command help end exit", "=[hidden]"⟩]

def outFlag : FlagEntry :=
  ⟨.choose .out, ["out", "o"], "output directory, stdout if empty", ""⟩

def Command.flags : Command → List FlagEntry
  | .transpile => [
      ⟨.choose .format, ["format", "f"], "output format: json or text", ""⟩,
      outFlag,
      ⟨.choose .jobs, ["jobs", "j"], "files transpiled in parallel", ""⟩,
      ⟨.choose .noVerify, ["no-verify"], "skip IR checks", ""⟩]
  | .print | .stats => []
  | .watch => [outFlag]

def wordsOf (line : List Char) : List String :=
  ((line.splitOnP Text.isBlank).filter (!·.isEmpty)).map String.ofList

/-- The words of a flag file. One that starts with a number sign starts a comment, which
ends with its line. -/
def flagWords (text : String) : List String :=
  (text.splitOn "\n").flatMap fun line =>
    (wordsOf line.toList).takeWhile fun word => !word.startsWith "#"

/-- One or two dashes, a name, and perhaps a value after an equals sign or a blank. -/
def flagParts? (word : String) : Option (String × Option String) :=
  let split (body : List Char) : Option (String × Option String) :=
    let isName (c : Char) : Bool := c != '=' && c != ' '
    if body.isEmpty then none
    else
      let value := match body.dropWhile isName with
        | _ :: value => some (String.ofList value)
        | [] => none
      some (String.ofList (body.takeWhile isName), value)
  match word.toList with
  | '-' :: '-' :: body => split body
  | '-' :: body => split body
  | _ => none

namespace Invocation

def flags (i : Invocation) : List FlagEntry :=
  (i.command.map fun (command, _) => command.flags).getD [] ++ commonFlags

def flag? (i : Invocation) (name : String) : Option Flag :=
  (i.flags.find? (·.names.contains name)).map (·.flag)

def inCommand {α : Type} (i : Invocation) (outcome : Outcome α) : Outcome α :=
  outcome.within ((i.command.map (·.2)).getD "")

def inFlag {α : Type} (i : Invocation) (word : String) (outcome : Outcome α) : Outcome α :=
  i.inCommand ((outcome.within word).within "parse flag")

def refuseFlag {α : Type} (i : Invocation) (word reason : String) : Outcome α :=
  i.inFlag word (Outcome.fail (.usage reason))

def addWord (i : Invocation) (word : String) : Outcome Invocation :=
  match i.command with
  | some _ => .ok { i with arguments := i.arguments ++ [word] }
  | none =>
    match Command.ofName? word with
    | some command => .ok { i with command := some (command, word) }
    | none => Outcome.fail (.usage ("no args expected, got " ++ word))

/-- Reads words, the first of which is the value of a flag that waits for one. After the
command two dashes alone end the flags. The given number of flag files may be opened. -/
def readFrom (files : Directory) (openings : Nat) (i : Invocation) :
    Option (String × Flag) → List String → Outcome Invocation
  | none, [] => .ok i
  | some (shown, _), [] => i.refuseFlag shown "flag value is required"
  | some (_, .help), _ :: _ => .ok { i with help := true }
  | some (shown, .choose choice), value :: rest => do
    let i ← i.inFlag shown (choice.set value i)
    readFrom files openings i none rest
  | some (shown, .file), name :: rest =>
    match openings with
    | 0 => i.refuseFlag shown "too many flag files"
    | openings + 1 => do
      let text ← i.inFlag shown ((files.read name).within "read file")
      readFrom files openings i none (flagWords text ++ rest)
  | none, word :: rest =>
    if word = "--" && i.command.isSome then rest.foldlM addWord i
    else
      match flagParts? word with
      | none => do
        let i ← i.addWord word
        readFrom files openings i none rest
      | some (name, value) =>
        match i.flag? name with
        | none => i.refuseFlag word "no such flag"
        | some flag =>
          match value.or flag.defaultValue? with
          | some value => readFrom files openings i (some (word, flag)) (value :: rest)
          | none => readFrom files openings i (some (word, flag)) rest
termination_by pending words => (openings, 2 * words.length + if pending.isNone then 1 else 0)

/-- Flag files that name each other in a circle would have no end. -/
def maxFlagFiles : Nat := 1000

def read (files : Directory) (words : List String) : Outcome Invocation :=
  readFrom files maxFlagFiles {} none words

def logFile? (i : Invocation) : Option String :=
  if i.log.isEmpty || i.log == "stderr" then none else some i.log

def task? (i : Invocation) : Option Command :=
  if i.help then none else i.command.map (·.1)

def inputs (i : Invocation) : List String := i.config :: i.arguments

end Invocation

end ScopeIR.CommandLine
