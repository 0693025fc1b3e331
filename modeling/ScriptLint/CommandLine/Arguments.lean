/-
Command-line arguments.

Options are written `--name value`, `--name=value`, `-n value` or `-nvalue`, and
flags `--name` or `-n`; short flags may share one dash, and the last of them may
be an option with a value.  After `--` everything is a plain argument.  Four
flags are always there: `help`, `verbose`, `quiet` and `json`:

* **`Arguments.parse`** — what the arguments say, as far as they can be read,
  and the fault that ends the reading;
* **`Arguments.get?`**, **`Arguments.getAll`**, **`Arguments.getFlag`** — asking
  for an option.
-/
import ScriptLint.Table

namespace ScriptLint

/-- An option that a command has. -/
structure OptionSpec where
  name : Bytes
  /-- The byte of the short form. -/
  short : Option UInt8 := none
  description : Bytes := []
  required : Bool := false
  /-- The option has a value; otherwise it is a flag. -/
  takesValue : Bool := true
  /-- The value without the option; an empty one is none. -/
  default : Bytes := []
  valueName : Bytes := "VALUE"
  deriving DecidableEq, Inhabited, Repr

/-- What arguments say. -/
structure Arguments where
  defaults : Table Bytes := []
  /-- The values that were given, in their order. -/
  given : List (Bytes × Bytes) := []
  flags : List Bytes := []
  positional : List Bytes := []
  deriving DecidableEq, Inhabited, Repr

/-- Why arguments cannot be read. -/
inductive ArgumentFault where
  | unknownOption (name : Bytes)
  | unwantedValue (name : Bytes)
  | missingValue (name : Bytes)
  | unknownShort (short : UInt8)
  | missingShortValue (short : UInt8)
  deriving DecidableEq, Inhabited, Repr

/-- The wording of a fault. -/
def ArgumentFault.message : ArgumentFault → Bytes
  | .unknownOption name => "Unknown option: --" ++ name
  | .unwantedValue name => "Option --" ++ name ++ " does not take a value"
  | .missingValue name => "Option --" ++ name ++ " requires a value"
  | .unknownShort short => "Unknown option: -" ++ [short]
  | .missingShortValue short => "Option -" ++ [short] ++ " requires a value"

namespace Arguments

variable (a : Arguments)

/-! ### Asking -/

/-- Every value that was given for an option. -/
def getAll (name : Bytes) : List Bytes :=
  (a.given.filter fun (n, _) => n = name).map Prod.snd

/-- The last value that was given for an option, or its default. -/
def get? (name : Bytes) : Option Bytes :=
  (a.getAll name).getLast? <|> a.defaults.find? name

/-- The flag was given. -/
def getFlag (name : Bytes) : Bool := a.flags.contains name

/-- The option has a value or was given as a flag. -/
def has (name : Bytes) : Bool := (a.get? name).isSome || a.getFlag name

/-- The number that decimal digits stand for, if it fits 32 bits. -/
def readNumber (text : Bytes) : Option UInt32 :=
  if text ≠ [] ∧ text.all Bytes.isDigit then
    let n := text.foldl (fun n b => 10 * n + (b - '0').toNat) 0
    if n < UInt32.size then some n.toUInt32 else none
  else none

/-- The value of an option as a number. -/
def getNumber? (name : Bytes) : Option UInt32 := (a.get? name).bind readNumber

/-! ### Reading -/

/-- The arguments with one more value. -/
def give (name value : Bytes) : Arguments := { a with given := a.given ++ [(name, value)] }

/-- The arguments with one more flag. -/
def raise (name : Bytes) : Arguments := { a with flags := a.flags ++ [name] }

/-- The flags that are always there. -/
def commonFlags : List Bytes := List.map Bytes.ofString ["help", "verbose", "quiet", "json"]

/-- The flag that a short form always stands for. -/
def commonShort? (b : UInt8) : Option Bytes :=
  if b = 'h' then some "help"
  else if b = 'v' then some "verbose"
  else if b = 'q' then some "quiet"
  else none

/-- Nothing but defaults.  Of two defaults for one name the later one counts. -/
def initial (specs : List OptionSpec) : Arguments :=
  { defaults := specs.foldl
      (fun table spec => if spec.default = [] then table else table.insert spec.name spec.default) [] }

/-- The last option of a name. -/
def byName? (specs : List OptionSpec) (name : Bytes) : Option OptionSpec :=
  specs.reverse.find? fun spec => spec.name = name

/-- The last option of a short form. -/
def byShort? (specs : List OptionSpec) (short : UInt8) : Option OptionSpec :=
  specs.reverse.find? fun spec => spec.short = some short

/-- The outcome of reading one argument: the arguments so far, and a fault or
whether the next argument was used as a value. -/
abbrev Reading := Arguments × Except ArgumentFault Bool

/-- The byte between a name and its value. -/
def isEquals (b : UInt8) : Bool := b == '='

/-- Reads an option from the text after its two dashes.  `next` is the argument
after it. -/
def readLong (specs : List OptionSpec) (next : Option Bytes) (text : Bytes) : Reading :=
  let name := text.takeWhile (!isEquals ·)
  let inline := (text.dropWhile (!isEquals ·)).tail?
  match byName? specs name with
  | none =>
    if commonFlags.contains name ∧ inline = none then (a.raise name, .ok false)
    else (a, .error (.unknownOption name))
  | some spec =>
    if !spec.takesValue then
      if inline = none then (a.raise name, .ok false) else (a, .error (.unwantedValue name))
    else
      let value := (inline <|> next).getD []
      if value = [] then (a, .error (.missingValue name))
      else (a.give name value, .ok inline.isNone)

/-- Reads short forms that share a dash. -/
def readShort (specs : List OptionSpec) (next : Option Bytes) (a : Arguments) : Bytes → Reading
  | [] => (a, .ok false)
  | b :: rest =>
    match commonShort? b, byShort? specs b with
    | some name, _ => readShort specs next (a.raise name) rest
    | none, none => (a, .error (.unknownShort b))
    | none, some spec =>
      if !spec.takesValue then readShort specs next (a.raise spec.name) rest
      else
        let value := if rest = [] then next.getD [] else rest
        if value = [] then (a, .error (.missingShortValue b))
        else (a.give spec.name value, .ok (rest = []))

/-- Reads an argument that begins with a dash. -/
def readOption (specs : List OptionSpec) (next : Option Bytes) (argument : Bytes) : Reading :=
  if Bytes.startsWith argument "--" then a.readLong specs next (argument.drop 2)
  else readShort specs next a (argument.drop 1)

/-- The argument is an option: a dash and something after it. -/
def isOption (argument : Bytes) : Bool :=
  Bytes.startsWith argument "-" && 1 < argument.length

/-- Reads arguments up to the first fault.  Once `ended`, there are no options
any more; empty arguments do not count. -/
def readAll (specs : List OptionSpec) (ended : Bool) (a : Arguments) :
    List Bytes → Arguments × Option ArgumentFault
  | [] => (a, none)
  | argument :: rest =>
    if argument = [] then readAll specs ended a rest
    else if argument = "--" ∧ !ended then readAll specs true a rest
    else if ended ∨ !isOption argument then
      readAll specs ended { a with positional := a.positional ++ [argument] } rest
    else
      match a.readOption specs rest.head? argument, rest with
      | (a, .error fault), _ => (a, some fault)
      | (a, .ok true), _ :: rest => readAll specs ended a rest
      | (a, .ok _), rest => readAll specs ended a rest

/-- What the arguments say for a command with the given options. -/
def parse (specs : List OptionSpec) (arguments : List Bytes) : Arguments × Option ArgumentFault :=
  readAll specs false (initial specs) arguments

end Arguments

end ScriptLint
