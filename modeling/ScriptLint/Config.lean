/-
Configuration.

A configuration is a JSON object.  Of its members `rules`, `extensions`,
`ignorePatterns`, `batch_multiplier` and `fix` are read, in this order, and the
first one that is wrong is the fault; other members do not matter:

* **`Config.parse`** — the configuration that a text stands for;
* **`RuleSet.configured`** — rules at the severities of a configuration.
-/
import ScriptLint.Json.Read
import ScriptLint.Rule

namespace ScriptLint

/-- What a configuration says. -/
structure Config where
  rules : Table Severity := []
  /-- The extensions to lint; none means all that are known. -/
  extensions : List Bytes := []
  ignorePatterns : List Bytes := []
  batchMultiplier : Option UInt64 := none
  fix : Option Bool := none
  deriving Inhabited, Repr

/-- What can be wrong with a configuration. -/
inductive Config.Fault where
  | notJson
  | notObject
  | rulesNotObject
  | severityNotString (rule : Bytes)
  | unknownSeverity (text rule : Bytes)
  | extensionsNotArray
  | extensionNotString
  | emptyExtension
  | ignorePatternsNotArray
  | ignorePatternNotString
  | multiplierNotPositive
  | fixNotBoolean
  deriving DecidableEq, Repr

/-- The failure to read a severity. -/
def Severity.unknown (text : Bytes) : Error :=
  ⟨.config, "Invalid severity '" ++ text ++ "'", some "expected off, warn or error"⟩

/-- The severity that a text stands for. -/
def Severity.parse (text : Bytes) : Outcome Severity :=
  if text = "off" then .ok .off
  else if text = "warn" ∨ text = "warning" then .ok .warning
  else if text = "error" then .ok .error
  else .error (Severity.unknown text)

/-- A fault as a failure. -/
def Config.Fault.error : Config.Fault → Error
  | .notJson => ⟨.config, "Invalid configuration: JSON parse error", some "<json>"⟩
  | .notObject => { kind := .config, message := "Configuration must be a JSON object" }
  | .rulesNotObject => { kind := .config, message := "'rules' must be an object" }
  | .severityNotString rule =>
    { kind := .config, message := "Severity of rule '" ++ rule ++ "' must be a string" }
  | .unknownSeverity text rule => (Severity.unknown text).inContext ("rule " ++ rule)
  | .extensionsNotArray => { kind := .config, message := "'extensions' must be an array" }
  | .extensionNotString => { kind := .config, message := "Extensions must be strings" }
  | .emptyExtension => { kind := .config, message := "Empty extension" }
  | .ignorePatternsNotArray => { kind := .config, message := "'ignorePatterns' must be an array" }
  | .ignorePatternNotString => { kind := .config, message := "Ignore patterns must be strings" }
  | .multiplierNotPositive =>
    { kind := .config, message := "'batch_multiplier' must be a positive integer" }
  | .fixNotBoolean => ⟨.config, "'fix' must be a boolean", some "fix: <json>"⟩

namespace Config

/-- The severity of a rule. -/
def readSeverity (rule : Bytes) : JsonValue → Except Fault Severity
  | .string text => (Severity.parse text).mapError fun _ => .unknownSeverity text rule
  | _ => .error (.severityNotString rule)

/-- The severities of rules, in the order of their names. -/
def readRules : JsonValue → Except Fault (Table Severity)
  | .object members =>
    members.mapM fun (rule, value) => do return (rule, ← readSeverity rule value)
  | _ => .error .rulesNotObject

/-- An extension; the dot before it may be missing. -/
def readExtension : JsonValue → Except Fault Bytes
  | .string [] => .error .emptyExtension
  | .string (b :: rest) => .ok (if b == '.' then b :: rest else '.' :: b :: rest)
  | _ => .error .extensionNotString

/-- A list of extensions. -/
def readExtensions : JsonValue → Except Fault (List Bytes)
  | .array items => items.mapM readExtension
  | _ => .error .extensionsNotArray

/-- A list of ignore patterns. -/
def readIgnorePatterns : JsonValue → Except Fault (List Bytes)
  | .array items => items.mapM fun
    | .string text => .ok text
    | _ => .error .ignorePatternNotString
  | _ => .error .ignorePatternsNotArray

/-- A factor for the size of batches. -/
def readMultiplier : JsonValue → Except Fault UInt64
  | .natural n => if n = 0 then .error .multiplierNotPositive else .ok n.toUInt64
  | _ => .error .multiplierNotPositive

/-- Whether to fix. -/
def readFix : JsonValue → Except Fault Bool
  | .bool b => .ok b
  | _ => .error .fixNotBoolean

/-- What a member says, if it is there. -/
def readMember {α : Type} (members : Table JsonValue) (key : Bytes)
    (read : JsonValue → Except Fault α) : Except Fault (Option α) :=
  match members.find? key with
  | none => .ok none
  | some value => (read value).map some

/-- The configuration that a value stands for. -/
def ofJson : JsonValue → Except Fault Config
  | .object members => do
    let rules ← readMember members "rules" readRules
    let extensions ← readMember members "extensions" readExtensions
    let ignorePatterns ← readMember members "ignorePatterns" readIgnorePatterns
    let batchMultiplier ← readMember members "batch_multiplier" readMultiplier
    let fix ← readMember members "fix" readFix
    return ⟨rules.getD [], extensions.getD [], ignorePatterns.getD [], batchMultiplier, fix⟩
  | _ => .error .notObject

/-- The configuration that a text stands for. -/
def parse (text : Bytes) : Except Fault Config :=
  match JsonValue.parse text with
  | none => .error .notJson
  | some value => ofJson value

end Config

namespace RuleSet

/-- The known rules, those of the table at its severities.  The table may name
known rules only; the first unknown name is the fault. -/
def configured (severities : Table Severity) (rules : List Rule) : Outcome RuleSet :=
  match severities.keys.find? fun name => (Rule.find? name rules).isNone with
  | some name => .error { kind := .config, message := "Unknown rule '" ++ name ++ "'" }
  | none => .ok (rules.map fun rule => ⟨rule, (severities.find? rule.name).getD rule.severity⟩)

end RuleSet

end ScriptLint
