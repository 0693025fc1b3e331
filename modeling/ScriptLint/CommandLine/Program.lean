/-
The program as a whole.

The first argument names a command, and the rest are its arguments:

* **`Program.run`** — what the program prints and does for its arguments.
-/
import ScriptLint.CommandLine.Lint

namespace ScriptLint.Program

/-- The version of the program. -/
def version : Bytes := "0.3.0"

/-- A command and what it does. -/
structure Action where
  command : Command
  /-- What is wrong with the arguments. -/
  problem? : Arguments → Option Bytes
  execute : Surroundings → Arguments → Ending

/-- The commands in the order in which they are listed. -/
def actions : List Action :=
  [⟨Lint.command, Lint.problem?, Lint.execute⟩,
   ⟨RuleList.command, RuleList.command.problem?, RuleList.execute⟩]

/-- The line of a command. -/
def commandLine (a : Action) : Bytes :=
  "  " ++ Command.column 12 a.command.name ++ a.command.description ++ "\n"

/-- How the program is used. -/
def usage : Bytes :=
  programName ++ " " ++ version ++ "\n\n" ++
    "Usage: modlint <command> [OPTIONS]\n\n" ++
    "Commands:\n" ++ actions.flatMap commandLine ++
    "\nRun 'modlint <command> --help' for command options.\n"

/-- A command with its arguments.  Asking for help is never a problem. -/
def perform (s : Surroundings) (action : Action) (arguments : List Bytes) : Ending :=
  match Arguments.parse action.command.options arguments with
  | (_, some fault) => Ending.fatal s.disk fault.message []
  | (a, none) =>
    match if a.getFlag "help" then none else action.problem? a with
    | some problem => Ending.fatal s.disk problem []
    | none => action.execute s a

/-- Ways to ask for the usage. -/
def helpWords : List Bytes := List.map Bytes.ofString ["help", "--help", "-h"]

/-- Ways to ask for the version. -/
def versionWords : List Bytes := List.map Bytes.ofString ["--version", "version"]

/-- The program with its arguments. -/
def run (s : Surroundings) : List Bytes → Ending
  | [] => { output := usage, code := Ending.fatalCode, disk := s.disk }
  | name :: rest =>
    if helpWords.contains name then { output := usage, disk := s.disk }
    else if versionWords.contains name then
      { output := programName ++ " " ++ version ++ "\n", disk := s.disk }
    else
      match actions.find? fun action => action.command.name = name with
      | none =>
        { Ending.fatal s.disk ("unknown command '" ++ name ++ "'") [] with output := usage }
      | some action => perform s action rest

end ScriptLint.Program
