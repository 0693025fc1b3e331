/-
Linting files and everything that they import.

A run takes the paths in batches and reports, in a fixed order, what loading
and the rules find.  The store of files and the arenas outlive the run, the
graph does not:

* **`LintSession.create`** — the settings of runs, if their options are sound;
* **`LintSession.run`** — one run.
-/
import ScriptLint.Run.Batch

namespace ScriptLint

/-- What a run reports. -/
structure RunReport where
  diagnostics : List Diagnostic
  status : RunStatus
  counts : RunCounts
  inputPaths : Nat
  modules : Nat
  edges : Nat
  stages : List (Nat × Stage)

namespace RunReport

/-- The number of problems of a severity. -/
def countOf (severity : Severity) (ds : List Diagnostic) : Nat :=
  ds.countP fun d => d.severity = severity

/-- The number of errors. -/
def errors (r : RunReport) : Nat := countOf .error r.diagnostics

/-- The number of warnings. -/
def warnings (r : RunReport) : Nat := countOf .warning r.diagnostics

end RunReport

/-- Settings for runs, checked. -/
structure LintSession where
  options : RunOptions
  loaders : Loaders := Loaders.standard
  resolver : Resolver := {}
  rules : RuleSet

namespace LintSession

variable {σ : Type} [FileStore σ]

/-- Settings for runs, if the options are sound. -/
def create (options : RunOptions) (loaders : Loaders) (resolver : Resolver) (rules : RuleSet) :
    Outcome LintSession := do
  let options ← options.check
  return { options, loaders, resolver, rules }

/-- A pool of arenas for the runs, without arenas yet. -/
def pool (s : LintSession) : Arena.Pool :=
  { capacity := s.options.concurrency.toUInt64, blockSize := s.options.blockSize }

/-- The linter of a run over the given entries.  Without looking at other
modules, nothing is resolved. -/
def linter (s : LintSession) (entries : PathSet) : Linter where
  options := s.options
  loading :=
    { loaders := s.loaders
      resolver := if s.options.crossModule then some s.resolver else none
      extractDependencies := s.options.extractDependencies
      retainDependencies := s.options.retainDependencies }
  rules := s.rules
  entries := entries

/-- The distinct modules that the given paths name. -/
def entries (s : LintSession) (paths : List Path) : PathSet :=
  .ofList (paths.map fun p => p.absoluteFrom s.options.directory)

/-- The report on the state at the end of a run. -/
def report (s : LintSession) (entries : PathSet) (state : RunState σ) : RunReport :=
  let diagnostics := Diagnostic.sort state.emitted
  { diagnostics
    status := .of (RunReport.countOf .error diagnostics) (RunReport.countOf .warning diagnostics)
      s.options
    counts := state.counts
    inputPaths := entries.size
    modules := state.graph.size
    edges := state.graph.edgeCount
    stages := state.stages }

/-- Lints the given paths and what they import.  The graph is that of the run. -/
def run (s : LintSession) (paths : List Path) (r : Resources σ) :
    Outcome (RunReport × ModuleGraph) × Resources σ :=
  if paths = [] then (.error { kind := .invalidArgument, message := "No paths to lint" }, r)
  else
    let entries := s.entries paths
    let batches := schedule entries s.options.concurrency.toUInt64 s.options.batchMultiplier
      s.options.ordering
    let state := batches.foldl (s.linter entries).runBatch { resources := r }
    (.ok (s.report entries state, state.graph), state.resources)

end LintSession

end ScriptLint
