/-
Commands.

A command has a name, a description and options; its usage and its help follow
from these:

* **`Command.usage`** — one line with the required options, unless the command
  words it itself;
* **`Command.missing?`** — the first required option that is not there;
* **`Command.help`** — everything about a command.
-/
import ScriptLint.CommandLine.Arguments

namespace ScriptLint

/-- A command of the program. -/
structure Command where
  name : Bytes
  description : Bytes
  options : List OptionSpec := []
  ownUsage : Option Bytes := none
  deriving Inhabited, Repr

/-- The name of the program. -/
def programName : Bytes := "modlint"

namespace Command

variable (c : Command)

/-- An option and its value in a line of usage. -/
def usageOf (o : OptionSpec) : Bytes := " --" ++ o.name ++ " <" ++ o.valueName ++ ">"

/-- How a command is used, from its required options. -/
def standardUsage : Bytes :=
  "Usage: " ++ programName ++ " " ++ c.name ++
    (c.options.filter OptionSpec.required).flatMap usageOf ++ " [OPTIONS]"

/-- How the command is used. -/
def usage : Bytes := c.ownUsage.getD c.standardUsage

/-- The first required option that has no value. -/
def missing? (a : Arguments) : Option OptionSpec :=
  c.options.find? fun o => o.required && !a.has o.name

/-- What is wrong with the arguments. -/
def problem? (a : Arguments) : Option Bytes :=
  (c.missing? a).map fun o => "Missing required argument: --" ++ o.name

/-- A text and enough spaces after it to fill a width. -/
def pad (width : Nat) (text : Bytes) : Bytes := text ++ List.replicate (width - text.length) (' ' : UInt8)

/-- A text padded to a width, with one space after it at least. -/
def column (width : Nat) (text : Bytes) : Bytes := pad (max (text.length + 1) width) text

/-- The beginning of an option's line. -/
def shortForm : Option UInt8 → Bytes
  | some b => "-" ++ [b] ++ ", "
  | none => "    "

/-- The note on a default. -/
def defaultNote (value : Bytes) : Bytes := " (default: " ++ value ++ ")"

/-- The line of an option. -/
def optionLine (o : OptionSpec) : Bytes :=
  "  " ++ shortForm o.short ++ "--" ++ pad 20 o.name ++ o.description ++
    (if o.default = [] then [] else defaultNote o.default) ++
    (if o.required then (" [required]" : Bytes) else []) ++ "\n"

/-- The lines of the flags that are always there. -/
def commonLines : Bytes :=
  "Common options:\n" ++
    "  -h, --help                Show this help message\n" ++
    "  -v, --verbose             Log batch progress to stderr\n" ++
    "  -q, --quiet               Only show errors\n" ++
    "      --json                Output in JSON format\n"

/-- The lines of the options. -/
def optionLines : List OptionSpec → Bytes
  | [] => []
  | options => "Options:\n" ++ options.flatMap optionLine

/-- Everything about the command. -/
def help : Bytes :=
  c.description ++ "\n\n" ++ c.usage ++ "\n\n" ++ optionLines c.options ++ "\n" ++ commonLines

end Command

end ScriptLint
