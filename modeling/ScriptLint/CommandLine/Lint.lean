/-
The commands that lint and list rules.

Linting reads the configuration, collects the files that the arguments name,
runs the rules and prints a report.  What goes wrong before the run ends the
command with a message and the code of a fatal error:

* **`Lint.prepare`** — from arguments to settings and files;
* **`Lint.execute`** — the command as a whole;
* **`RuleList.execute`** — the known rules.
-/
import ScriptLint.Collect
import ScriptLint.CommandLine.Command
import ScriptLint.Config.File
import ScriptLint.Json.Print
import ScriptLint.Rule.Builtin
import ScriptLint.Run

namespace ScriptLint

/-- How a command ends: what it printed, its exit code, the files as it left
them, and the graph if there was a run. -/
structure Ending where
  output : Bytes := []
  errors : Bytes := []
  code : Nat := 0
  disk : Disk
  graph : Option ModuleGraph := none

namespace Ending

/-- The code of a fatal error. -/
def fatalCode : Nat := RunStatus.fatal.exitCode

/-- A line of an error. -/
def errorLine (message : Bytes) : Bytes := "error: " ++ message ++ "\n"

/-- The end by an error, after what was printed to the error output before. -/
def fatal (disk : Disk) (message : Bytes) (before : Bytes) : Ending :=
  { errors := before ++ errorLine message, code := fatalCode, disk }

end Ending

/-- What a command needs to know besides its arguments: the files, and the
number of workers there are by default. -/
structure Surroundings where
  disk : Disk
  workers : UInt32 := 1

namespace Lint

/-- The options of the command. -/
def options : List OptionSpec :=
  [{ name := "config", short := some 'c', valueName := "FILE"
     description := "Configuration file (default: nearest .modlintrc.json)" },
   { name := "parallel", short := some 'j', default := "0", valueName := "N"
     description := "Number of worker threads (0 = all cores)" },
   { name := "batch-multiplier", short := some 'k', valueName := "K"
     description := "Entry files per batch per worker" },
   { name := "fix", takesValue := false, valueName := []
     description := "Apply automatic fixes" },
   { name := "no-cross-module", takesValue := false, valueName := []
     description := "Do not resolve imports or run graph rules" },
   { name := "lint-dependencies", takesValue := false, valueName := []
     description := "Also report on imported files outside the inputs" },
   { name := "release-edges", takesValue := false, valueName := []
     description := "Drop dependency edges once their batch is done" },
   { name := "insertion-order", takesValue := false, valueName := []
     description := "Process inputs in the given order" },
   { name := "ignore-pattern", valueName := "PATTERN"
     description := "Skip files matching a gitignore-style pattern (repeatable)" },
   { name := "ignore-path", valueName := "FILE"
     description := "Ignore file to use instead of .gitignore" },
   { name := "no-ignore", takesValue := false, valueName := []
     description := "Disable ignore files and ignore patterns" },
   { name := "deny-warnings", takesValue := false, valueName := []
     description := "Exit with 1 if any warning is reported" },
   { name := "max-warnings", valueName := "N"
     description := "Exit with 1 if more than N warnings are reported" }]

/-- The lines of usage. -/
def usage : Bytes :=
  "Usage: modlint lint [OPTIONS] <paths...>\n" ++
    "\n" ++
    "Examples:\n" ++
    "  modlint lint src/\n" ++
    "  modlint lint --fix -j 8 src/app.ts src/components\n" ++
    "  modlint lint --json --config ci/.modlintrc.json .\n" ++
    "  modlint lint --ignore-pattern 'dist/' --max-warnings 10 ."

/-- The command. -/
def command : Command where
  name := "lint"
  description := "Lint JavaScript, TypeScript and component files with their imports"
  options := options
  ownUsage := some usage

/-- What is wrong with the arguments. -/
def problem? (a : Arguments) : Option Bytes :=
  if a.positional = [] then some "No paths specified. Use 'modlint lint <paths...>'"
  else if (a.getNumber? "parallel").isNone then
    some "--parallel expects a non-negative integer"
  else if a.has "max-warnings" ∧ (a.getNumber? "max-warnings").isNone then
    some "--max-warnings expects a non-negative integer"
  else if a.has "batch-multiplier" ∧ (a.getNumber? "batch-multiplier").getD 0 = 0 then
    some "--batch-multiplier expects a positive integer"
  else none

/-- Only errors are shown. -/
def isQuiet (a : Arguments) : Bool := a.getFlag "quiet" && !a.getFlag "verbose"

/-- The configuration file: the given one, or the nearest one. -/
def configPath? (d : Disk) (a : Arguments) : Option Path :=
  match a.get? "config" with
  | some p => some ⟨p⟩
  | none => Config.locate d d.directory

/-- The configuration of a file, and the empty one if there is no file. -/
def configuration (d : Disk) : Option Path → Outcome Config
  | none => .ok {}
  | some p => Config.load d p

/-- The rules with those of patterns below a base. -/
def addPatterns (base : Path) (rules : IgnoreRules) : List Bytes → Outcome IgnoreRules
  | [] => .ok rules
  | pattern :: rest =>
    match rules.add pattern base with
    | .ok rules => addPatterns base rules rest
    | .error fault => .error fault.error

/-- The ignore rules that do not come from a walk, and how to walk: first the
patterns of the configuration, then those of the arguments, then an ignore file
that stands for all others. -/
def ignoring (d : Disk) (a : Arguments) (configPath : Option Path) (config : Config) :
    Outcome (IgnoreRules × WalkOptions) :=
  let cwd := d.directory
  if a.getFlag "no-ignore" then .ok ([], { ignoreFileName := [] })
  else do
    let base := ((configPath.map Path.parent).getD cwd).absoluteFrom cwd
    let rules ← addPatterns base [] config.ignorePatterns
    let rules ← addPatterns cwd rules (a.getAll "ignore-pattern")
    match a.get? "ignore-path" with
    | none => return (rules, {})
    | some p =>
      match rules.addFile d (Path.absoluteFrom ⟨p⟩ cwd) with
      | (rules, none) => return (rules, { ignoreFileName := [] })
      | (_, some e) => throw e

/-- How many entries a batch has for each worker.  The number of the
configuration is cut to 32 bits. -/
def batchMultiplier (a : Arguments) (config : Config) : UInt64 :=
  ((a.getNumber? "batch-multiplier").getD (config.batchMultiplier.getD 4).toUInt32).toUInt64

/-- The options of the run. -/
def runOptions (s : Surroundings) (a : Arguments) (config : Config) : RunOptions :=
  let parallel := (a.getNumber? "parallel").getD 0
  { concurrency := if parallel = 0 then s.workers else parallel
    batchMultiplier := batchMultiplier a config
    ordering := if a.getFlag "insertion-order" then .insertion else .depthFirst
    fix := a.getFlag "fix" || config.fix.getD false
    crossModule := !a.getFlag "no-cross-module"
    retainDependencies := a.getFlag "lint-dependencies"
    releaseEdges := a.getFlag "release-edges"
    denyWarnings := a.getFlag "deny-warnings"
    maxWarnings := (a.getNumber? "max-warnings").map UInt32.toNat
    directory := s.disk.directory }

/-- The files to lint, with the settings of the run.  Without files nothing else
is looked at. -/
def prepare (s : Surroundings) (a : Arguments) (configPath : Option Path) (config : Config) :
    Outcome (Option (LintSession × List Path)) := do
  let rules ← RuleSet.configured config.rules Rule.builtin
  let loaders := if config.extensions = [] then Loaders.standard
    else Loaders.standard.retain config.extensions
  let (ignored, walking) ← ignoring s.disk a configPath config
  let files ← s.disk.collect (a.positional.map Path.mk) s.disk.directory ignored
    (fun p => loaders.supports p.extension) walking
  if files = [] then return none
  else return some (← LintSession.create (runOptions s a config) loaders {} rules, files)

/-! ### Reports -/

/-- A number in a report. -/
def count (n : Nat) : JsonValue := .natural n

/-- A span in a report. -/
def spanJson (s : Span) : JsonValue :=
  .ofMembers [("start", count s.start.toNat), ("end", count s.stop.toNat)]

/-- A problem in a report. -/
def diagnosticJson (d : Disk) (p : Diagnostic) : JsonValue :=
  .ofMembers
    [("path", .string (d.relativeTo p.path d.directory).text),
     ("segment", .ofOption count p.segment),
     ("span", .ofOption spanJson p.span),
     ("severity", .string p.severity.name),
     ("code", .string p.code),
     ("message", .string p.message),
     ("help", .ofOption .string p.help)]

/-- The counts in a report. -/
def statisticsJson (r : RunReport) (arenas : Nat) : JsonValue :=
  .ofMembers
    [("input_paths", count r.inputPaths),
     ("batches", count r.counts.batches),
     ("modules", count r.modules),
     ("edges", count r.edges),
     ("analyzed", count r.counts.analyzed),
     ("failed", count r.counts.failed),
     ("unsupported", count r.counts.unsupported),
     ("rule_failures", count r.counts.ruleFailures),
     ("fixes_applied", count r.counts.fixesApplied),
     ("files_written", count r.counts.filesWritten),
     ("peak_retained_content", count r.counts.peakRetained),
     ("arenas_created", count arenas)]

/-- The report as JSON. -/
def reportJson (d : Disk) (r : RunReport) (arenas : Nat) : JsonValue :=
  .ofMembers
    [("diagnostics", .array (r.diagnostics.map (diagnosticJson d))),
     ("status", .string r.status.name),
     ("errors", count r.errors),
     ("warnings", count r.warnings),
     ("stats", statisticsJson r arenas)]

/-- The line of a problem. -/
def diagnosticLine (d : Disk) (p : Diagnostic) : Bytes :=
  { p with path := d.relativeTo p.path d.directory }.render ++ "\n"

/-- The lines of the problems.  Quietly, only errors have one. -/
def diagnosticLines (d : Disk) (quiet : Bool) (r : RunReport) : Bytes :=
  (r.diagnostics.filter fun p => !quiet || p.severity = .error).flatMap (diagnosticLine d)

/-- The lines that sum up a run. -/
def summary (fix : Bool) (r : RunReport) : Bytes :=
  "\n" ++ Bytes.decimal r.counts.analyzed ++ " files analyzed, " ++ Bytes.decimal r.modules ++
    " modules in graph, " ++ Bytes.decimal r.errors ++ " errors, " ++ Bytes.decimal r.warnings ++
    " warnings\n" ++
    (if fix then
      (Bytes.decimal r.counts.fixesApplied ++ " fixes applied to " ++
        Bytes.decimal r.counts.filesWritten ++ " files\n" : Bytes)
    else [])

/-- Why warnings alone let a run fail. -/
def warningNote (o : RunOptions) (r : RunReport) : Bytes :=
  if r.errors = 0 ∧ r.status = .found then
    if o.denyWarnings then Ending.errorLine "Warnings are not allowed (--deny-warnings)"
    else
      match o.maxWarnings with
      | some limit => Ending.errorLine ("Too many warnings: " ++ Bytes.decimal r.warnings ++
          " (maximum " ++ Bytes.decimal limit ++ ")")
      | none => []
  else []

/-- The end of a run that was reported. -/
def finish (a : Arguments) (o : RunOptions) (before : Bytes) (r : RunReport) (g : ModuleGraph)
    (after : Resources Disk) : Ending :=
  let d := after.files
  let status := r.status
  let ending : Ending := { code := status.exitCode, disk := d, graph := some g, errors := before }
  if a.getFlag "json" then
    { ending with output := (reportJson d r after.pool.created).print ++ "\n" }
  else
    { ending with
      output := diagnosticLines d (isQuiet a) r ++ (if isQuiet a then [] else summary o.fix r)
      errors := before ++ warningNote o r }

/-- Lints files with the settings of a run. -/
def lint (s : Surroundings) (a : Arguments) (before : Bytes) (session : LintSession)
    (files : List Path) : Ending :=
  match session.run files { files := s.disk, pool := session.pool } with
  | (.error e, r) => Ending.fatal r.files e.render before
  | (.ok (report, graph), r) => finish a session.options before report graph r

/-- The command. -/
def execute (s : Surroundings) (a : Arguments) : Ending :=
  if a.getFlag "help" then { output := command.help, disk := s.disk }
  else
    let configPath := configPath? s.disk a
    match configuration s.disk configPath with
    | .error e => Ending.fatal s.disk e.render []
    | .ok config =>
      let before : Bytes :=
        match configPath with
        | some p => if a.getFlag "verbose" then "Using configuration " ++ p.text ++ "\n" else []
        | none => []
      match prepare s a configPath config with
      | .error e => Ending.fatal s.disk e.render before
      | .ok none =>
        let warning : Bytes := if isQuiet a then [] else "warning: No lintable files found\n"
        { errors := before ++ warning, disk := s.disk }
      | .ok (some (session, files)) => lint s a before session files

end Lint

namespace RuleList

/-- The command. -/
def command : Command where
  name := "rules"
  description := "List the built-in rules and their default severity"

/-- A rule as JSON. -/
def ruleJson (r : Rule) : JsonValue :=
  .ofMembers
    [("name", .string r.name),
     ("description", .string r.description),
     ("severity", .string r.severity.name),
     ("fixable", .bool r.fixable),
     ("cross_module", .bool r.needsGraph)]

/-- The line of a rule: its name, severity and description in columns. -/
def ruleLine (r : Rule) : Bytes :=
  Command.column 34 (Command.column 24 r.name ++ r.severity.name) ++ r.description ++
    (if r.fixable then (" [fixable]" : Bytes) else []) ++ "\n"

/-- The command. -/
def execute (s : Surroundings) (a : Arguments) : Ending :=
  if a.getFlag "help" then { output := command.help, disk := s.disk }
  else if a.getFlag "json" then
    { output := (JsonValue.array (Rule.builtin.map ruleJson)).print ++ "\n", disk := s.disk }
  else { output := Rule.builtin.flatMap ruleLine, disk := s.disk }

end RuleList

end ScriptLint
