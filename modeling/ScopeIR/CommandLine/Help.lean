import ScopeIR.CommandLine.Invocation
import ScopeIR.Text.Columns

namespace ScopeIR.CommandLine

def toolName : String := "dbd"

def toolDescription : String := "dbd lowers JavaScript syntax trees to a scope-explicit IR"

def helpLine (name meaning : String) : String :=
  "    " ++ Text.padTo 20 name ++ " - " ++ meaning ++ "\n"

/-- The value that holds without the flag, unless it is empty text. -/
def FlagEntry.standard (i : Invocation) (entry : FlagEntry) : String :=
  match entry.flag with
  | .choose choice =>
    let value := choice.current i
    if value.isEmpty then "" else " (default " ++ value ++ ")"
  | _ => ""

def FlagEntry.helpLine (i : Invocation) (entry : FlagEntry) : String :=
  CommandLine.helpLine (",".intercalate entry.names ++ entry.form)
    (entry.description ++ entry.standard i)

def helpSection (title : String) (lines : List String) : String :=
  if lines.isEmpty then "" else "\n" ++ title ++ "\n" ++ String.join lines

def commandHelp (i : Invocation) (command : Command) : String :=
  ",".intercalate command.names ++ " [flags_and_args] - " ++ command.description ++ "\n" ++
    helpSection "Flags" (command.flags.map (·.helpLine i)) ++
    helpSection ("Flags of parent command " ++ toolName) (commonFlags.map (·.helpLine i))

def toolHelp (i : Invocation) : String :=
  toolName ++ " [command] [flags_and_args] - " ++ toolDescription ++ "\n" ++
    helpSection "Commands" (Command.all.map fun command =>
      helpLine (",".intercalate command.names) command.description) ++
    helpSection "Flags" (commonFlags.map (·.helpLine i))

def help (i : Invocation) : String :=
  match i.command with
  | some (command, _) => commandHelp i command
  | none => toolHelp i

end ScopeIR.CommandLine
