/-
Executions of a run, move by move.

`Linter.Step` takes a module into the graph in one step, as if the workers stood still
meanwhile.  They do not: between any two things that the coordinator does they may
begin or end a task, and while the coordinator waits it may run a task itself.  Here
both have their own moves:

* **`Act`** — one thing that the coordinator does with a module in its hand, and
  `Closing.receive_eq`, that receiving a module is a sequence of acts;
* **`Moment`** — where a run is: what the coordinator is about to do, what waits, what
  runs and what was not received;
* **`Linter.Move`** — one move of the coordinator or of a worker;
* **`Linter.Advances`** — some moves, with the history that they leave.

`LintSession.run` is one of these executions, whatever the number of workers
(`LintSession.exists_advances`): the one in which the coordinator runs all tasks.
-/
import ScriptLint.Proofs.Completion

namespace ScriptLint

/-! ### Receiving a module, act by act -/

/-- Something that the coordinator does with a module that it has in its hand. -/
inductive Act where
  | enter (m : Module)
  | report (d : Diagnostic)
  | record (p : Path) (i : Interface)
  | miss (p : Path) (specifier : Bytes) (e : Error)
  | connect (p : Path) (specifier : Bytes) (target : Path)
  | dispatch (target : Path)

namespace Act

/-- The paths that an act hands out, unless they had been. -/
def targets : Act → List Path
  | dispatch target => [target]
  | _ => []

/-- What an act does. -/
def perform {σ : Type} (c : Closing σ) : Act → Closing σ
  | enter m => { c with state := { c.state with graph := Closing.enter m c.state.graph } }
  | report d => { c with state := { c.state with emitted := c.state.emitted ++ [d] } }
  | record p i => { c with state := { c.state with graph := c.state.graph.addRecord p i } }
  | miss p specifier e =>
    { c with state := { c.state with graph := c.state.graph.addUnresolved p specifier e } }
  | connect p specifier target =>
    { c with state := { c.state with graph := c.state.graph.addEdge p specifier target } }
  | dispatch target => c.dispatch target

/-- The acts for a request. -/
def ofResolution (p : Path) (r : Resolution) : List Act :=
  match r.outcome with
  | .error e => [miss p r.specifier e]
  | .ok target => [connect p r.specifier target, dispatch target]

/-- The acts for a segment. -/
def ofRecord (p : Path) : Except Diagnostic Extract → List Act
  | .error d => [report d]
  | .ok e => record p e.interface :: e.resolutions.flatMap (ofResolution p)

/-- The acts for a module. -/
def ofModule (m : Module) : List Act := enter m :: m.records.flatMap (ofRecord m.path)

variable {σ : Type}

/-- Apart from the graph and what is reported, an act hands out the paths that are its
targets. -/
theorem hands_perform (c : Closing σ) (a : Act) :
    ∃ fresh, Closing.Hands a.targets fresh c (a.perform c) := by
  cases a with
  | dispatch target => exact Closing.hands_dispatch c target
  | report d => exact ⟨[], { Closing.Hands.refl c with all := by simp [targets] }⟩
  | enter m => exact ⟨[], Closing.hands_of_graph (Closing.dispatched_enter m _)⟩
  | record p i => exact ⟨[], Closing.hands_of_graph rfl⟩
  | miss p s e => exact ⟨[], Closing.hands_of_graph rfl⟩
  | connect p s t =>
    refine ⟨[], Closing.hands_of_graph ?_⟩
    unfold ModuleGraph.addEdge
    simp only
    split <;> rfl

end Act

namespace Closing

variable {σ : Type}

/-- The coordinator has done everything with a module, and puts it away. -/
def settle (m : Module) (c : Closing σ) : Closing σ :=
  { c with
    state := { c.state with
      graph := conclude m c.state.graph, counts := count m c.state.counts }
    received := c.received ++ [m.path]
    analyzable := if m.content.isSome then c.analyzable ++ [m] else c.analyzable }

theorem receiveResolution_eq (p : Path) (c : Closing σ) (r : Resolution) :
    receiveResolution p c r = (Act.ofResolution p r).foldl Act.perform c := by
  unfold receiveResolution Act.ofResolution
  cases r.outcome <;> rfl

theorem receiveRecord_eq (p : Path) (c : Closing σ) (o : Except Diagnostic Extract) :
    receiveRecord p c o = (Act.ofRecord p o).foldl Act.perform c := by
  cases o with
  | error d => rfl
  | ok e =>
    have hstep : receiveResolution (σ := σ) p =
        fun c r => (Act.ofResolution p r).foldl Act.perform c :=
      funext fun c => funext fun r => receiveResolution_eq p c r
    rw [Act.ofRecord, List.foldl_cons, List.foldl_flatMap, receiveRecord, hstep]
    rfl

/-- **Receiving a module** is to perform its acts one after the other, and then to put
it away. -/
theorem receive_eq (m : Module) (c : Closing σ) :
    receive m c = settle m ((Act.ofModule m).foldl Act.perform c) := by
  have hstep : receiveRecord (σ := σ) m.path =
      fun c o => (Act.ofRecord m.path o).foldl Act.perform c :=
    funext fun c => funext fun o => receiveRecord_eq m.path c o
  rw [Act.ofModule, List.foldl_cons, List.foldl_flatMap, receive, hstep]
  rfl

end Closing

/-! ### Moments -/

/-- What the coordinator of a batch that is being loaded is about to do: hand out the
paths of the batch that are left, wait, end the task that it runs itself, do what is
left to be done with a module, or link the modules that are left. -/
inductive Closing.Control where
  | handing (left : List Path)
  | waiting
  | helping (task : Path)
  | taking (m : Module) (left : List Act)
  | linking (left : List Path)

/-- What the coordinator of a batch that is being analyzed is about to do: post the
analyses that are left, wait, end the analysis that it runs itself, or drop the edges
of the modules that are left. -/
inductive Analyzing.Control where
  | posting (left : List Module)
  | waiting
  | helping (task : Module)
  | releasing (left : List Path)

/-- The number of hands that the coordinator lends to the workers. -/
def Closing.Control.hands : Closing.Control → Nat
  | helping _ => 1
  | _ => 0

/-- The number of hands that the coordinator lends to the workers. -/
def Analyzing.Control.hands : Analyzing.Control → Nat
  | helping _ => 1
  | _ => 0

/-- Where a run is: before the given batches, or in a batch, with those that follow. -/
inductive Moment (σ : Type) where
  | between (rest : List Batch) (s : RunState σ)
  | closing (batch : Batch) (rest : List Batch) (control : Closing.Control) (c : Closing σ)
  | analyzing (batch : Batch) (rest : List Batch) (received : List Path)
      (control : Analyzing.Control) (a : Analyzing σ)

/-- What a move shows: nothing, a message with a module, that a module was received, or
that an analysis was. -/
inductive Signal where
  | silent
  | sent (m : Module)
  | received (m : Module)
  | completed

/-- What the moves of a run have shown. -/
structure History where
  sent : List Module := []
  received : List Module := []
  completed : Nat := 0

/-- The history after a move. -/
def History.after (h : History) : Signal → History
  | .silent => h
  | .sent m => { h with sent := h.sent ++ [m] }
  | .received m => { h with received := h.received ++ [m] }
  | .completed => { h with completed := h.completed + 1 }

/-- A moment, and what came before it. -/
structure Scene (σ : Type) where
  history : History := {}
  moment : Moment σ

/-! ### Moves -/

/-- The graph without the edges that leave a module, if that is a dependency. -/
def ModuleGraph.releaseDependency (g : ModuleGraph) (p : Path) : ModuleGraph :=
  if (g.find? p).any (!·.entry) then g.releaseEdges p else g

section

variable {σ : Type}

/-- The batch before its paths are handed out. -/
def Closing.opened (batch : Batch) (s : RunState σ) : Closing σ where
  state := RunState.reach batch.index .awaiting
    { s with counts := { s.counts with batches := s.counts.batches + 1 } }

/-- The batch in another stage. -/
def Closing.reach (batch : Batch) (stage : Stage) (c : Closing σ) : Closing σ :=
  { c with state := c.state.reach batch.index stage }

/-- The batch without the module that the coordinator takes into its hand. -/
def Closing.taken (more : List Module) (c : Closing σ) : Closing σ :=
  { c with results := ⟨more⟩, outstanding := c.outstanding - 1 }

/-- The batch with one more module linked. -/
def Closing.link (p : Path) (c : Closing σ) : Closing σ :=
  { c with state := { c.state with graph := c.state.graph.link p } }

/-- The batch before its analyses are posted. -/
def Analyzing.opened (batch : Batch) (c : Closing σ) : Analyzing σ where
  state := c.state.reach batch.index .analyzing
  pending := c.analyzable.length

/-- The batch with one more analysis posted. -/
def Analyzing.post (m : Module) (a : Analyzing σ) : Analyzing σ :=
  { a with waiting := a.waiting.send m }

/-- The batch with one more dependency released. -/
def Analyzing.release (p : Path) (a : Analyzing σ) : Analyzing σ :=
  { a with state := { a.state with graph := a.state.graph.releaseDependency p } }

end

namespace Linter

variable {σ : Type} [FileStore σ] (l : Linter)

/-- One move of a run with the given number of workers, and what it shows.  A task that
the coordinator runs is ended by the coordinator, all others by a worker. -/
inductive Move (workers : Nat) : Moment σ → Signal → Moment σ → Prop where
  | opens {batch rest} {s : RunState σ} :
      Move workers (.between (batch :: rest) s) .silent
        (.closing batch rest (.handing batch.paths) (.opened batch s))
  | hands {batch rest p left} {c : Closing σ} :
      Move workers (.closing batch rest (.handing (p :: left)) c) .silent
        (.closing batch rest (.handing left) (c.dispatch p))
  | drains {batch rest} {c : Closing σ} :
      Move workers (.closing batch rest (.handing []) c) .silent
        (.closing batch rest .waiting (c.reach batch .draining))
  | loads {batch rest control} {c : Closing σ} (h : c.waiting.waiting ≠ [])
      (hfree : c.running.length < workers + control.hands) :
      Move workers (.closing batch rest control c) .silent
        (.closing batch rest control (c.step l .start))
  | sends {batch rest control} {c : Closing σ} {index : Nat} {p : Path}
      (h : c.running[index]? = some p) (hother : control ≠ .helping p) :
      Move workers (.closing batch rest control c) (.sent (Closing.loaded l p c.state.resources).1)
        (.closing batch rest control (c.step l (.finish index)))
  | helps {batch rest p more} {c : Closing σ} (h : c.waiting.waiting = p :: more) :
      Move workers (.closing batch rest .waiting c) .silent
        (.closing batch rest (.helping p) (c.step l .start))
  | helped {batch rest} {c : Closing σ} {index : Nat} {p : Path}
      (h : c.running[index]? = some p) :
      Move workers (.closing batch rest (.helping p) c)
        (.sent (Closing.loaded l p c.state.resources).1)
        (.closing batch rest .waiting (c.step l (.finish index)))
  | takes {batch rest m more} {c : Closing σ} (h : c.results.waiting = m :: more) :
      Move workers (.closing batch rest .waiting c) .silent
        (.closing batch rest (.taking m (Act.ofModule m)) (c.taken more))
  | performs {batch rest m act left} {c : Closing σ} :
      Move workers (.closing batch rest (.taking m (act :: left)) c) .silent
        (.closing batch rest (.taking m left) (act.perform c))
  | settles {batch rest m} {c : Closing σ} :
      Move workers (.closing batch rest (.taking m []) c) (.received m)
        (.closing batch rest .waiting (c.settle m))
  | closes {batch rest} {c : Closing σ} (h : c.outstanding = 0) :
      Move workers (.closing batch rest .waiting c) .silent
        (.closing batch rest (.linking c.received) (c.reach batch .complete))
  | links {batch rest p left} {c : Closing σ} :
      Move workers (.closing batch rest (.linking (p :: left)) c) .silent
        (.closing batch rest (.linking left) (c.link p))
  | turns {batch rest} {c : Closing σ} :
      Move workers (.closing batch rest (.linking []) c) .silent
        (.analyzing batch rest c.received (.posting c.analyzable) (.opened batch c))
  | posts {batch rest received m left} {a : Analyzing σ} :
      Move workers (.analyzing batch rest received (.posting (m :: left)) a) .silent
        (.analyzing batch rest received (.posting left) (a.post m))
  | posted {batch rest received} {a : Analyzing σ} :
      Move workers (.analyzing batch rest received (.posting []) a) .silent
        (.analyzing batch rest received .waiting a)
  | inspects {batch rest received control} {a : Analyzing σ} (h : a.waiting.waiting ≠ [])
      (hfree : a.running.length < workers + control.hands) :
      Move workers (.analyzing batch rest received control a) .silent
        (.analyzing batch rest received control (a.step l .start))
  | reports {batch rest received control} {a : Analyzing σ} {index : Nat} {m : Module}
      (h : a.running[index]? = some m) (hother : control ≠ .helping m) :
      Move workers (.analyzing batch rest received control a) .silent
        (.analyzing batch rest received control (a.step l (.finish index)))
  | assists {batch rest received m more} {a : Analyzing σ} (h : a.waiting.waiting = m :: more) :
      Move workers (.analyzing batch rest received .waiting a) .silent
        (.analyzing batch rest received (.helping m) (a.step l .start))
  | assisted {batch rest received} {a : Analyzing σ} {index : Nat} {m : Module}
      (h : a.running[index]? = some m) :
      Move workers (.analyzing batch rest received (.helping m) a) .silent
        (.analyzing batch rest received .waiting (a.step l (.finish index)))
  | counts {batch rest received} {a : Analyzing σ} (h : a.results.waiting ≠ []) :
      Move workers (.analyzing batch rest received .waiting a) .completed
        (.analyzing batch rest received .waiting (a.step l .receive))
  | counted {batch rest received} {a : Analyzing σ} (h : a.pending = 0) :
      Move workers (.analyzing batch rest received .waiting a) .silent
        (.analyzing batch rest received
          (.releasing (if l.options.releaseEdges then received else [])) a)
  | releases {batch rest received p left} {a : Analyzing σ} :
      Move workers (.analyzing batch rest received (.releasing (p :: left)) a) .silent
        (.analyzing batch rest received (.releasing left) (a.release p))
  | ends {batch rest received} {a : Analyzing σ} :
      Move workers (.analyzing batch rest received (.releasing []) a) .silent
        (.between rest (a.state.reach batch.index .released))

/-- A move, and what it adds to the history. -/
def Advance (workers : Nat) (x y : Scene σ) : Prop :=
  ∃ signal, l.Move workers x.moment signal y.moment ∧ y.history = x.history.after signal

/-- Some moves. -/
def Advances (workers : Nat) : Scene σ → Scene σ → Prop := Relation.ReflTransGen (l.Advance workers)

variable {l} {workers : Nat}

theorem Advances.tail {x y : Scene σ} (h : l.Advances workers x y) {signal : Signal}
    {moment : Moment σ} (hmove : l.Move workers y.moment signal moment) :
    l.Advances workers x ⟨y.history.after signal, moment⟩ :=
  Relation.ReflTransGen.tail h ⟨signal, hmove, rfl⟩

theorem Advances.head {history : History} {x y : Moment σ} {z : Scene σ} {signal : Signal}
    (hmove : l.Move workers x signal y) (h : l.Advances workers ⟨history.after signal, y⟩ z) :
    l.Advances workers ⟨history, x⟩ z :=
  Relation.ReflTransGen.head ⟨signal, hmove, rfl⟩ h

/-- A property that every move keeps holds wherever a run can come. -/
theorem Advances.induct {motive : History → Moment σ → Prop} {x y : Scene σ}
    (h : l.Advances workers x y) (hfirst : motive x.history x.moment)
    (hkeep : ∀ history moment signal moment', motive history moment →
      l.Move workers moment signal moment' → motive (history.after signal) moment') :
    motive y.history y.moment := by
  induction h with
  | refl => exact hfirst
  | tail _ hadvance ih =>
    obtain ⟨signal, hmove, hhistory⟩ := hadvance
    rw [hhistory]
    exact hkeep _ _ _ _ ih hmove

end Linter

/-! ### The run is an execution -/

section

variable {σ : Type}

/-- The coordinator is alone: nothing runs while it waits, and what it runs itself is
the only task. -/
def Closing.Alone (c : Closing σ) : Closing.Control → Prop
  | .waiting => c.running = []
  | .helping p => c.running = [p] ∧ c.results.waiting = []
  | _ => False

/-- The coordinator is alone: nothing runs while it waits, and what it runs itself is
the only analysis. -/
def Analyzing.Alone (a : Analyzing σ) : Analyzing.Control → Prop
  | .waiting => a.running = []
  | .helping m => a.running = [m] ∧ a.results.waiting = []
  | _ => False

theorem Closing.waiting_of_alone {c : Closing σ} {control : Closing.Control}
    (halone : c.Alone control) (hrunning : c.running = []) : control = .waiting := by
  cases control with
  | waiting => rfl
  | helping p => exact absurd (halone.1.symm.trans hrunning) (List.cons_ne_nil p [])
  | handing | taking | linking => exact halone.elim

theorem Analyzing.waiting_of_alone {a : Analyzing σ} {control : Analyzing.Control}
    (halone : a.Alone control) (hrunning : a.running = []) : control = .waiting := by
  cases control with
  | waiting => rfl
  | helping m => exact absurd (halone.1.symm.trans hrunning) (List.cons_ne_nil m [])
  | posting | releasing => exact halone.elim

end

namespace Linter

variable {σ : Type} [FileStore σ] {l : Linter} {workers : Nat} {batch : Batch} {rest : List Batch}

theorem advances_acts (history : History) (m : Module) (acts : List Act) (c : Closing σ) :
    l.Advances workers ⟨history, .closing batch rest (.taking m acts) c⟩
      ⟨history, .closing batch rest (.taking m []) (acts.foldl Act.perform c)⟩ := by
  induction acts generalizing c with
  | nil => exact .refl
  | cons act acts ih => exact Advances.head .performs (ih _)

theorem advances_hands (history : History) (paths : List Path) (c : Closing σ) :
    l.Advances workers ⟨history, .closing batch rest (.handing paths) c⟩
      ⟨history, .closing batch rest (.handing []) (paths.foldl Closing.dispatch c)⟩ := by
  induction paths generalizing c with
  | nil => exact .refl
  | cons p paths ih => exact Advances.head .hands (ih _)

theorem advances_linking (history : History) (paths : List Path) (c : Closing σ) :
    l.Advances workers ⟨history, .closing batch rest (.linking paths) c⟩
      ⟨history, .closing batch rest (.linking []) { c with
        state := { c.state with graph := paths.foldl ModuleGraph.link c.state.graph } }⟩ := by
  induction paths generalizing c with
  | nil => exact .refl
  | cons p paths ih => exact Advances.head .links (ih _)

theorem advances_posts (history : History) (received : List Path) (modules : List Module)
    (a : Analyzing σ) :
    l.Advances workers ⟨history, .analyzing batch rest received (.posting modules) a⟩
      ⟨history, .analyzing batch rest received (.posting [])
        { a with waiting := ⟨a.waiting.waiting ++ modules⟩ }⟩ := by
  induction modules generalizing a with
  | nil => rw [List.append_nil]; exact .refl
  | cons m modules ih =>
    have hposts := ih (a.post m)
    rw [Analyzing.post, Channel.send, List.append_assoc] at hposts
    exact Advances.head .posts hposts

theorem advances_releases (history : History) (received paths : List Path) (a : Analyzing σ) :
    l.Advances workers ⟨history, .analyzing batch rest received (.releasing paths) a⟩
      ⟨history, .analyzing batch rest received (.releasing [])
        { a with state := a.state.release paths }⟩ := by
  induction paths generalizing a with
  | nil => exact .refl
  | cons p paths ih => exact Advances.head .releases (ih _)

/-- A coordinator that is alone can do what comes next. -/
theorem advances_closing_step {c : Closing σ} {control : Closing.Control} {event : Event}
    (halone : c.Alone control) (hnext : c.next? = some event) (history : History) :
    ∃ history' control', (c.step l event).Alone control' ∧
      l.Advances workers ⟨history, .closing batch rest control c⟩
        ⟨history', .closing batch rest control' (c.step l event)⟩ := by
  cases control with
  | handing | taking | linking => exact halone.elim
  | helping p =>
    -- the only running task is the coordinator's own
    obtain ⟨hrunning, hresults⟩ := halone
    obtain rfl : .finish 0 = event := by
      simpa [Closing.next?, Channel.isEmpty, hrunning, hresults] using hnext
    have hp : c.running[0]? = some p := by rw [hrunning]; rfl
    refine ⟨_, .waiting, ?_, .single ⟨_, .helped hp, rfl⟩⟩
    rw [Closing.step_finish l hp]
    show c.running.eraseIdx 0 = []
    rw [hrunning, List.eraseIdx_cons_zero]
  | waiting =>
    have hrunning : c.running = [] := halone
    cases hresults : c.results.waiting with
    | cons m more =>
      obtain rfl : .receive = event := by
        simpa [Closing.next?, Channel.isEmpty, hresults] using hnext
      -- receiving a message takes one move for each act
      obtain ⟨fresh, hreceives⟩ := Closing.exists_receives m (c.taken more)
      rw [Closing.step_receive l hresults]
      refine ⟨history.after (.received m), .waiting, hreceives.running.trans hrunning, ?_⟩
      rw [Closing.receive_eq]
      exact .head (.takes hresults) ((advances_acts history m _ _).tail .settles)
    | nil =>
      cases hwaiting : c.waiting.waiting with
      | nil => simp [Closing.next?, Channel.isEmpty, hresults, hrunning, hwaiting] at hnext
      | cons p more =>
        obtain rfl : .start = event := by
          simpa [Closing.next?, Channel.isEmpty, hresults, hrunning, hwaiting] using hnext
        refine ⟨_, .helping p, ?_, .single ⟨.silent, .helps hwaiting, rfl⟩⟩
        rw [Closing.step_start l hwaiting]
        exact ⟨by rw [hrunning]; rfl, hresults⟩

/-- A coordinator that is alone can do what comes next. -/
theorem advances_analyzing_step {received : List Path} {a : Analyzing σ}
    {control : Analyzing.Control} {event : Event} (halone : a.Alone control)
    (hnext : a.next? = some event) (history : History) :
    ∃ history' control', (a.step l event).Alone control' ∧
      l.Advances workers ⟨history, .analyzing batch rest received control a⟩
        ⟨history', .analyzing batch rest received control' (a.step l event)⟩ := by
  cases control with
  | posting | releasing => exact halone.elim
  | helping m =>
    obtain ⟨hrunning, hresults⟩ := halone
    obtain rfl : .finish 0 = event := by
      simpa [Analyzing.next?, Channel.isEmpty, hrunning, hresults] using hnext
    have hm : a.running[0]? = some m := by rw [hrunning]; rfl
    refine ⟨_, .waiting, ?_, .single ⟨.silent, .assisted hm, rfl⟩⟩
    rw [Analyzing.step_finish l hm]
    show a.running.eraseIdx 0 = []
    rw [hrunning, List.eraseIdx_cons_zero]
  | waiting =>
    have hrunning : a.running = [] := halone
    cases hresults : a.results.waiting with
    | cons counts more =>
      obtain rfl : .receive = event := by
        simpa [Analyzing.next?, Channel.isEmpty, hresults] using hnext
      refine ⟨_, .waiting, ?_, .single ⟨.completed, .counts (by simp [hresults]), rfl⟩⟩
      rw [Analyzing.step_receive l hresults]
      exact hrunning
    | nil =>
      cases hwaiting : a.waiting.waiting with
      | nil => simp [Analyzing.next?, Channel.isEmpty, hresults, hrunning, hwaiting] at hnext
      | cons m more =>
        obtain rfl : .start = event := by
          simpa [Analyzing.next?, Channel.isEmpty, hresults, hrunning, hwaiting] using hnext
        refine ⟨_, .helping m, ?_, .single ⟨.silent, .assists hwaiting, rfl⟩⟩
        rw [Analyzing.step_start l hwaiting]
        exact ⟨by rw [hrunning]; rfl, hresults⟩

variable (workers batch rest)

theorem advances_closing_run (fuel : Nat) {c : Closing σ} {control : Closing.Control}
    (halone : c.Alone control) (history : History) :
    ∃ history' control', (c.run l fuel).Alone control' ∧
      l.Advances workers ⟨history, .closing batch rest control c⟩
        ⟨history', .closing batch rest control' (c.run l fuel)⟩ := by
  induction fuel generalizing c control history with
  | zero => exact ⟨history, control, halone, .refl⟩
  | succ fuel ih =>
    rw [Closing.run]
    cases hnext : c.next? with
    | none => exact ⟨history, control, halone, .refl⟩
    | some event =>
      obtain ⟨history', control', halone', hstep⟩ :=
        advances_closing_step (l := l) halone hnext history
      obtain ⟨history'', control'', halone'', hrun⟩ := ih halone' history'
      exact ⟨history'', control'', halone'', hstep.trans hrun⟩

theorem advances_analyzing_run (received : List Path) (fuel : Nat) {a : Analyzing σ}
    {control : Analyzing.Control} (halone : a.Alone control) (history : History) :
    ∃ history' control', (a.run l fuel).Alone control' ∧
      l.Advances workers ⟨history, .analyzing batch rest received control a⟩
        ⟨history', .analyzing batch rest received control' (a.run l fuel)⟩ := by
  induction fuel generalizing a control history with
  | zero => exact ⟨history, control, halone, .refl⟩
  | succ fuel ih =>
    rw [Analyzing.run]
    cases hnext : a.next? with
    | none => exact ⟨history, control, halone, .refl⟩
    | some event =>
      obtain ⟨history', control', halone', hstep⟩ :=
        advances_analyzing_step (l := l) halone hnext history
      obtain ⟨history'', control'', halone'', hrun⟩ := ih halone' history'
      exact ⟨history'', control'', halone'', hstep.trans hrun⟩

/-- A batch is loaded as `Linter.runBatch` says, if nothing is left under way then. -/
theorem advances_ofBatch {s : RunState σ} {c : Closing σ}
    (hc : c = (Closing.ofBatch batch s).run l ((Closing.ofBatch batch s).bound l))
    (hdone : c.outstanding = 0) (hidle : c.running = []) (history : History) :
    ∃ history', l.Advances workers ⟨history, .between (batch :: rest) s⟩
      ⟨history', .analyzing batch rest c.received .waiting (.ofClosing batch c)⟩ := by
  have halone : (Closing.ofBatch batch s).Alone .waiting := by
    obtain ⟨fresh, hhands⟩ := Closing.hands_dispatches batch.paths (Closing.opened batch s)
    exact hhands.running
  obtain ⟨history', control, halone', hrun⟩ := advances_closing_run (l := l) workers batch rest
    ((Closing.ofBatch batch s).bound l) halone history
  rw [← hc] at halone' hrun
  obtain rfl := Closing.waiting_of_alone halone' hidle
  have hopen : l.Advances workers ⟨history, .between (batch :: rest) s⟩
      ⟨history, .closing batch rest .waiting (.ofBatch batch s)⟩ :=
    Advances.head .opens ((advances_hands history batch.paths _).tail .drains)
  have hclose : l.Advances workers ⟨history', .closing batch rest .waiting c⟩ _ :=
    Advances.head (.closes hdone) ((advances_linking history' c.received _).tail .turns)
  have hpost : l.Advances workers ⟨history', .analyzing batch rest c.received
      (.posting c.analyzable) { Analyzing.ofClosing batch c with waiting := .empty }⟩ _ :=
    (advances_posts history' c.received c.analyzable _).tail .posted
  exact ⟨history', ((hopen.trans hrun).trans hclose).trans hpost⟩

/-- A batch is analyzed as `Linter.runBatch` says, if nothing is left under way then. -/
theorem advances_released (received : List Path) {a a' : Analyzing σ}
    (hrunning : a.running = []) (ha : a' = a.run l (3 * a.pending)) (hdone : a'.pending = 0)
    (hidle : a'.running = []) (history : History) :
    ∃ history', l.Advances workers ⟨history, .analyzing batch rest received .waiting a⟩
      ⟨history', .between rest (l.released batch received a')⟩ := by
  have halone : a.Alone .waiting := hrunning
  obtain ⟨history', control, halone', hrun⟩ := advances_analyzing_run (l := l) workers batch rest
    received (3 * a.pending) halone history
  rw [← ha] at halone' hrun
  obtain rfl := Analyzing.waiting_of_alone halone' hidle
  have hstate : (if l.options.releaseEdges then a'.state.release received else a'.state) =
      a'.state.release (if l.options.releaseEdges then received else []) := by
    split <;> rfl
  refine ⟨history', hrun.trans (Advances.head (.counted hdone) ?_)⟩
  rw [released, hstate]
  exact (advances_releases history' received _ a').tail .ends

end Linter

namespace LintSession

/-- The beginning of a run over the given paths. -/
def opening {σ : Type} (s : LintSession) (paths : List Path) (r : Resources σ) : Scene σ where
  moment := .between (s.batches paths) { resources := r }

end LintSession

namespace Linter

variable {l : Linter} {workers : Nat} {files : MemoryFiles} {loaded : List Path} {batch : Batch}
  {rest : List Batch}

/-- A batch of a run over files in memory is an execution. -/
theorem Sound.advances_runBatch {s : RunState MemoryFiles}
    (h : Sound l files loaded (.begin s (batch :: rest))) (history : History) :
    ∃ history', l.Advances workers ⟨history, .between (batch :: rest) s⟩
      ⟨history', .between rest (l.runBatch s batch)⟩ := by
  obtain ⟨n, more, hclosing, hdone⟩ := Sound.run_closing h h.tasks_ofBatch
  -- what is outstanding counts what runs
  obtain ⟨prior, analyses, hloading⟩ := h.steps hclosing
  have hidle := List.length_eq_zero_iff.mp (Nat.eq_zero_of_add_eq_zero_left
    (Nat.eq_zero_of_add_eq_zero_right (hloading.outstanding.symm.trans hdone)))
  obtain ⟨history', hload⟩ := advances_ofBatch workers batch rest rfl hdone hidle history
  have hsound := h.steps (hclosing.tail (.close hdone))
  have htasks (c : Closing MemoryFiles) :
      (Analyzing.ofClosing batch c).tasks ≤ 3 * (Analyzing.ofClosing batch c).pending :=
    Nat.le_refl _
  obtain ⟨n', more', hanalyzing, hdone'⟩ := hsound.run_analyzing (htasks _)
  obtain ⟨analyses, hsound'⟩ := hsound.steps hanalyzing
  have hidle' := List.length_eq_zero_iff.mp (Nat.eq_zero_of_add_eq_zero_left
    (Nat.eq_zero_of_add_eq_zero_right (hsound'.pending.symm.trans hdone')))
  obtain ⟨history'', hanalyze⟩ := advances_released workers batch rest _ rfl rfl hdone' hidle'
    history'
  exact ⟨history'', hload.trans hanalyze⟩

/-- So are all batches of such a run. -/
theorem Sound.advances_runBatches {s : RunState MemoryFiles} {batches : List Batch}
    (h : Sound l files loaded (.begin s batches)) (history : History) :
    ∃ history', l.Advances workers ⟨history, .between batches s⟩
      ⟨history', .between [] (batches.foldl l.runBatch s)⟩ := by
  induction batches generalizing s loaded history with
  | nil => exact ⟨history, .refl⟩
  | cons batch rest ih =>
    obtain ⟨history', hbatch⟩ := h.advances_runBatch history
    obtain ⟨n, more, hsteps⟩ := h.runBatch
    obtain ⟨history'', hrest⟩ := ih (h.steps hsteps) history'
    exact ⟨history'', hbatch.trans hrest⟩

end Linter

/-- **`LintSession.run` is an execution move by move**, whatever the number of workers. -/
theorem LintSession.exists_advances (s : LintSession) {paths : List Path} (h : paths ≠ [])
    (r : Resources MemoryFiles) (workers : Nat) : ∃ history state,
      (s.linterOf paths).Advances workers (s.opening paths r) ⟨history, .between [] state⟩ ∧
        s.run paths r = (.ok (s.report (s.entries paths) state, state.graph), state.resources) := by
  obtain ⟨history, hadvances⟩ := (s.sound_start paths r).advances_runBatches {}
  exact ⟨history, _, hadvances, if_neg h⟩

end ScriptLint
