/-
One batch of a run.

Workers load modules, and a coordinator takes what they load into the graph and
hands out the modules that are asked for in turn, until nothing is left to load.
Then the requests are linked, the modules that kept their content are analyzed,
and the contents are given back.  Which worker is done first is open: both
halves are step machines, whose events may come in any order in which they are
possible, and the run takes the first possible one each time:

* **`Closing.step`** — a worker begins to load, ends loading, or the
  coordinator receives;
* **`Analyzing.step`** — a worker begins to analyze, ends, or the coordinator
  counts;
* **`Linter.runBatch`** — a batch from its first stage to its last.
-/
import ScriptLint.Analysis
import ScriptLint.Channel
import ScriptLint.Run.Options

namespace ScriptLint

/-- What happens next in a machine: the oldest task is taken by a worker, the
worker's task at an index is done, or the oldest message is received. -/
inductive Event where
  | start
  | finish (index : Nat)
  | receive
  deriving DecidableEq, Inhabited, Repr

/-- Counts of a run.  `retained` is the number of contents that are kept. -/
structure RunCounts where
  batches : Nat := 0
  dispatched : Nat := 0
  processed : Nat := 0
  failed : Nat := 0
  unsupported : Nat := 0
  analyzed : Nat := 0
  ruleFailures : Nat := 0
  fixesApplied : Nat := 0
  filesWritten : Nat := 0
  retained : Nat := 0
  peakRetained : Nat := 0
  deriving DecidableEq, Inhabited, Repr

/-- What all batches of a run share. -/
structure RunState (σ : Type) where
  resources : Resources σ
  graph : ModuleGraph := {}
  emitted : List Diagnostic := []
  counts : RunCounts := {}
  stages : List (Nat × Stage) := []

/-- What a run depends on. -/
structure Linter where
  options : RunOptions
  loading : LoadSettings
  rules : RuleSet
  entries : PathSet

/-- A problem of the linter itself. -/
def internalDiagnostic (path : Path) (what : Bytes) : Diagnostic where
  path := path
  code := Code.internal
  message := what

/-! ### Loading -/

/-- A batch that is being loaded: paths that wait, paths that workers load,
modules that the coordinator has not received, and those that it has. -/
structure Closing (σ : Type) where
  state : RunState σ
  waiting : Channel Path := .empty
  running : List Path := []
  results : Channel Module := .empty
  outstanding : Nat := 0
  received : List Path := []
  analyzable : List Module := []

namespace Closing

variable {σ : Type} [FileStore σ] (l : Linter)

/-- Hands a path out to the workers, unless that was done before in this run. -/
def dispatch (c : Closing σ) (path : Path) : Closing σ :=
  if c.state.graph.isDispatched path then c
  else
    { c with
      state := { c.state with
        graph := c.state.graph.dispatch path
        counts := { c.state.counts with dispatched := c.state.counts.dispatched + 1 } }
      waiting := c.waiting.send path
      outstanding := c.outstanding + 1 }

/-- The module of a path whose loading broke off. -/
def brokenModule (path : Path) (entry : Bool) (mishap : Mishap) : Module where
  path := path
  entry := entry
  body := .refused (internalDiagnostic path ("Processing failed: " ++ mishap.message))

/-- Loads the module of a path. -/
def loaded (path : Path) (r : Resources σ) : Module × Resources σ :=
  let entry := l.entries.contains path
  match l.loading.load path entry r with
  | (.ok m, r) => (m, r)
  | (.error mishap, r) => (brokenModule path entry mishap, r)

/-- Takes what became of a request into the graph.  A target that is new is
handed out. -/
def receiveResolution (path : Path) (c : Closing σ) (r : Resolution) : Closing σ :=
  match r.outcome with
  | .error e =>
    { c with state := { c.state with graph := c.state.graph.addUnresolved path r.specifier e } }
  | .ok target =>
    { c with state := { c.state with
        graph := c.state.graph.addEdge path r.specifier target } }.dispatch target

/-- Takes a segment into the graph. -/
def receiveRecord (path : Path) (c : Closing σ) : Except Diagnostic Extract → Closing σ
  | .error d => { c with state := { c.state with emitted := c.state.emitted ++ [d] } }
  | .ok e =>
    e.resolutions.foldl (receiveResolution path)
      { c with state := { c.state with graph := c.state.graph.addRecord path e.interface } }

/-- The graph with a node for a module. -/
def enter (m : Module) (g : ModuleGraph) : ModuleGraph :=
  if m.entry then (g.addModule m.path).markEntry m.path else g.addModule m.path

/-- The graph after a module was received. -/
def conclude (m : Module) (g : ModuleGraph) : ModuleGraph :=
  if m.failed then g.markFailed m.path else g

/-- The counts after a module was received. -/
def count (m : Module) (n : RunCounts) : RunCounts :=
  let retained := if m.content.isSome then n.retained + 1 else n.retained
  { n with
    processed := n.processed + 1
    unsupported := if m.isSupported then n.unsupported else n.unsupported + 1
    failed := if m.failed then n.failed + 1 else n.failed
    retained
    peakRetained := max n.peakRetained retained }

/-- The coordinator takes a module into the graph. -/
def receive (m : Module) (c : Closing σ) : Closing σ :=
  let c := { c with state := { c.state with graph := enter m c.state.graph } }
  let c := m.records.foldl (receiveRecord m.path) c
  { c with
    state := { c.state with
      graph := conclude m c.state.graph, counts := count m c.state.counts }
    received := c.received ++ [m.path]
    analyzable := if m.content.isSome then c.analyzable ++ [m] else c.analyzable }

/-- The machine after an event; the same if the event is not possible. -/
def step (c : Closing σ) : Event → Closing σ
  | .start =>
    match c.waiting.receive with
    | (none, _) => c
    | (some path, waiting) => { c with waiting, running := c.running ++ [path] }
  | .finish index =>
    match c.running[index]? with
    | none => c
    | some path =>
      let (m, resources) := loaded l path c.state.resources
      { c with
        state := { c.state with resources }
        running := c.running.eraseIdx index
        results := c.results.send m }
  | .receive =>
    match c.results.receive with
    | (none, _) => c
    | (some m, results) => receive m { c with results, outstanding := c.outstanding - 1 }

/-- The first possible event, if there is one. -/
def next? (c : Closing σ) : Option Event :=
  if !c.results.isEmpty then some .receive
  else if !c.running.isEmpty then some (.finish 0)
  else if !c.waiting.isEmpty then some .start
  else none

/-- Lets first possible events happen, at most a number of them. -/
def run (fuel : Nat) (c : Closing σ) : Closing σ :=
  match fuel with
  | 0 => c
  | fuel + 1 =>
    match c.next? with
    | none => c
    | some event => run fuel (step l c event)

/-- No more than this many events can happen: three for each path that is an
entry or a file. -/
def bound (c : Closing σ) : Nat :=
  3 * (l.entries.size + FileStore.bound c.state.resources.files) + 1

end Closing

/-! ### Analyzing -/

/-- A batch that is being analyzed: modules that wait, modules that workers
analyze, analyses that were not counted, and how many are still to be. -/
structure Analyzing (σ : Type) where
  state : RunState σ
  waiting : Channel Module := .empty
  running : List Module := []
  results : Channel AnalysisCounts := .empty
  pending : Nat := 0

namespace Analyzing

variable {σ : Type} [FileStore σ] (l : Linter)

/-- The interfaces that the requests of a module's segment lead to. -/
def links (g : ModuleGraph) (path : Path) (segment : Nat) : Table Interface :=
  (((g.find? path).map Node.records).getD []).findSome? (fun r =>
    if r.interface.segment = segment then some r.loaded else none) |>.getD []

/-- Analyzes a module, reports, and gives its content back.  An analysis that
breaks off is a problem of its own. -/
def analyzed (m : Module) (s : RunState σ) : AnalysisCounts × RunState σ :=
  let settings : AnalysisSettings := { rules := l.rules, fix := l.options.fix }
  let graph := if l.options.crossModule then some s.graph else none
  let (result, files) := settings.analyze (links s.graph m.path) graph m s.resources.files
  let pool := match m.content with
    | none => s.resources.pool
    | some content => s.resources.pool.giveBack content.lease
  let (counts, more) : AnalysisCounts × List Diagnostic := match result.counts with
    | .ok counts => (counts, [])
    | .error mishap =>
      ({ diagnostics := 1 }, [internalDiagnostic m.path ("Analysis failed: " ++ mishap.message)])
  (counts, { s with resources := ⟨files, pool⟩, emitted := s.emitted ++ result.emitted ++ more })

/-- The counts after an analysis. -/
def count (a : AnalysisCounts) (n : RunCounts) : RunCounts :=
  { n with
    retained := n.retained - 1
    analyzed := n.analyzed + 1
    ruleFailures := n.ruleFailures + a.ruleFailures
    fixesApplied := n.fixesApplied + a.fixesApplied
    filesWritten := if a.written then n.filesWritten + 1 else n.filesWritten }

/-- The machine after an event; the same if the event is not possible. -/
def step (a : Analyzing σ) : Event → Analyzing σ
  | .start =>
    match a.waiting.receive with
    | (none, _) => a
    | (some m, waiting) => { a with waiting, running := a.running ++ [m] }
  | .finish index =>
    match a.running[index]? with
    | none => a
    | some m =>
      let (counts, state) := analyzed l m a.state
      { a with state, running := a.running.eraseIdx index, results := a.results.send counts }
  | .receive =>
    match a.results.receive with
    | (none, _) => a
    | (some counts, results) =>
      { a with
        state := { a.state with counts := count counts a.state.counts }
        results, pending := a.pending - 1 }

/-- The first possible event, if there is one. -/
def next? (a : Analyzing σ) : Option Event :=
  if !a.results.isEmpty then some .receive
  else if !a.running.isEmpty then some (.finish 0)
  else if !a.waiting.isEmpty then some .start
  else none

/-- Lets first possible events happen, at most a number of them. -/
def run (fuel : Nat) (a : Analyzing σ) : Analyzing σ :=
  match fuel with
  | 0 => a
  | fuel + 1 =>
    match a.next? with
    | none => a
    | some event => run fuel (step l a event)

end Analyzing

/-! ### The whole batch -/

namespace RunState

variable {σ : Type}

/-- Enters a stage of a batch. -/
def reach (index : Nat) (stage : Stage) (s : RunState σ) : RunState σ :=
  { s with stages := s.stages ++ [(index, stage)] }

/-- Drops the edges that leave dependencies among the given modules. -/
def release (paths : List Path) (s : RunState σ) : RunState σ :=
  { s with graph := paths.foldl (fun g p =>
      if (g.find? p).any (!·.entry) then g.releaseEdges p else g) s.graph }

end RunState

section

variable {σ : Type}

/-- The batch with its paths handed out. -/
def Closing.ofBatch (batch : Batch) (s : RunState σ) : Closing σ :=
  let s := { s with counts := { s.counts with batches := s.counts.batches + 1 } }
  let c : Closing σ :=
    batch.paths.foldl Closing.dispatch { state := s.reach batch.index .awaiting }
  { c with state := c.state.reach batch.index .draining }

/-- The batch with the requests of its modules linked, about to be analyzed. -/
def Analyzing.ofClosing (batch : Batch) (c : Closing σ) : Analyzing σ :=
  let s := c.state.reach batch.index .complete
  let s := { s with graph := c.received.foldl ModuleGraph.link s.graph }
  { state := s.reach batch.index .analyzing
    waiting := ⟨c.analyzable⟩
    pending := c.analyzable.length }

end

namespace Linter

variable {σ : Type} [FileStore σ] (l : Linter)

/-- The batch after its analyses. -/
def released (batch : Batch) (received : List Path) (a : Analyzing σ) : RunState σ :=
  let s := if l.options.releaseEdges then a.state.release received else a.state
  s.reach batch.index .released

/-- Runs a batch from its first stage to its last. -/
def runBatch (s : RunState σ) (batch : Batch) : RunState σ :=
  let c := Closing.ofBatch batch s
  let c := c.run l (c.bound l)
  let a := Analyzing.ofClosing batch c
  l.released batch c.received (a.run l (3 * a.pending))

end Linter

end ScriptLint
