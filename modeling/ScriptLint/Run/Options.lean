/-
Options and outcome of a run.

* **`RunStatus.of`** — how a run ends, from its numbers of errors and warnings;
* **`RunOptions.check`** — the options with which a run can begin.
-/
import ScriptLint.Error
import ScriptLint.Schedule

namespace ScriptLint

/-- How a run is done. -/
structure RunOptions where
  /-- The number of workers. -/
  concurrency : UInt32 := 1
  batchMultiplier : UInt64 := 4
  ordering : BatchOrder := .depthFirst
  fix : Bool := false
  /-- Imports are resolved, and rules see the graph. -/
  crossModule : Bool := true
  extractDependencies : Bool := true
  retainDependencies : Bool := false
  /-- The edges that leave dependencies are dropped after their batch. -/
  releaseEdges : Bool := false
  /-- Any warning counts against the run. -/
  denyWarnings : Bool := false
  /-- More warnings than this count against the run. -/
  maxWarnings : Option Nat := none
  blockSize : UInt64 := 1048576
  /-- Relative paths are relative to this one. -/
  directory : Path := ⟨[]⟩
  deriving Inhabited

/-- The options, unless a batch or a block would be empty. -/
def RunOptions.check (o : RunOptions) : Outcome RunOptions :=
  if o.batchMultiplier = 0 then
    .error { kind := .config, message := "Batch multiplier must be at least 1" }
  else if o.blockSize = 0 then
    .error { kind := .config, message := "Arena block size must be non-zero" }
  else .ok o

/-- How a run ends. -/
inductive RunStatus where
  | clean | found | fatal
  deriving DecidableEq, Inhabited, Repr

namespace RunStatus

/-- The name under which a status is shown. -/
def name : RunStatus → Bytes
  | .clean => "clean"
  | .found => "diagnostics-found"
  | .fatal => "fatal-error"

/-- The exit code of the program. -/
def exitCode : RunStatus → Nat
  | .clean => 0
  | .found => 1
  | .fatal => 2

/-- Errors count against a run, warnings only as the options say. -/
def of (errors warnings : Nat) (o : RunOptions) : RunStatus :=
  if 0 < errors then .found
  else if o.denyWarnings && 0 < warnings then .found
  else if o.maxWarnings.any (· < warnings) then .found
  else .clean

end RunStatus

/-- The stages of a batch. -/
inductive Stage where
  | awaiting | draining | complete | analyzing | released
  deriving DecidableEq, Inhabited, Repr

/-- The name under which a stage is shown. -/
def Stage.name : Stage → Bytes
  | .awaiting => "awaiting-entries"
  | .draining => "draining"
  | .complete => "closure-complete"
  | .analyzing => "analyzing"
  | .released => "released"

end ScriptLint
