/-
Two runs that take the same steps.

What a run loads, and what its graph knows, does not depend on what its analyses do with
the files.  So a run of a linter that analyzes in another way can take the same steps:
each worker and the coordinator do the same at the same time, and the two runs differ in
their files, arenas, counts and problems alone:

* **`Phase.Like`** — two runs are at the same place;
* **`Linter.Paired`** — and both have done the same analyses, in the same graphs;
* **`Linter.Paired.step`** — a step of one run is a step of the other;
* **`LintSession.exists_paired`** — to every run there is one that takes the same steps.
-/
import ScriptLint.Proofs.Invariant

namespace ScriptLint

/-! ### Runs at the same place -/

/-- The states have the same graph and have gone through the same stages. -/
structure RunState.Like (s s' : RunState MemoryFiles) : Prop where
  graph : s.graph = s'.graph
  stages : s.stages = s'.stages

/-- The same paths wait and are being loaded, and the same modules were loaded. -/
structure Closing.Like (c c' : Closing MemoryFiles) : Prop where
  state : c.state.Like c'.state
  waiting : c.waiting = c'.waiting
  running : c.running = c'.running
  results : c.results.waiting.map Module.unleased = c'.results.waiting.map Module.unleased
  outstanding : c.outstanding = c'.outstanding
  received : c.received = c'.received
  analyzable : c.analyzable.map Module.unleased = c'.analyzable.map Module.unleased

/-- The same modules wait and are being analyzed. -/
structure Analyzing.Like (a a' : Analyzing MemoryFiles) : Prop where
  state : a.state.Like a'.state
  waiting : a.waiting.waiting.map Module.unleased = a'.waiting.waiting.map Module.unleased
  running : a.running.map Module.unleased = a'.running.map Module.unleased
  results : a.results.waiting.length = a'.results.waiting.length
  pending : a.pending = a'.pending

namespace Closing.Like

variable {c c' : Closing MemoryFiles}

theorem dispatch (h : c.Like c') (p : Path) : (c.dispatch p).Like (c'.dispatch p) := by
  unfold Closing.dispatch
  rw [h.state.graph]
  split
  · exact h
  · exact { h with
      state := ⟨rfl, h.state.stages⟩
      waiting := congrArg (·.send p) h.waiting
      outstanding := congrArg (· + 1) h.outstanding }

theorem dispatches (h : c.Like c') (paths : List Path) :
    (paths.foldl Closing.dispatch c).Like (paths.foldl Closing.dispatch c') := by
  induction paths generalizing c c' with
  | nil => exact h
  | cons p more ih => exact ih (h.dispatch p)

theorem receiveResolution (h : c.Like c') (p : Path) (r : Resolution) :
    (Closing.receiveResolution p c r).Like (Closing.receiveResolution p c' r) := by
  unfold Closing.receiveResolution
  cases r.outcome with
  | error e =>
    exact { h with state := ⟨congrArg (·.addUnresolved p r.specifier e) h.state.graph,
      h.state.stages⟩ }
  | ok target =>
    refine Closing.Like.dispatch ?_ target
    exact { h with state := ⟨congrArg (·.addEdge p r.specifier target) h.state.graph,
      h.state.stages⟩ }

theorem receiveRecord (h : c.Like c') (p : Path) (o : Except Diagnostic Extract) :
    (Closing.receiveRecord p c o).Like (Closing.receiveRecord p c' o) := by
  unfold Closing.receiveRecord
  cases o with
  | error d => exact { h with state := ⟨h.state.graph, h.state.stages⟩ }
  | ok e =>
    have hfold (rs : List Resolution) {c c' : Closing MemoryFiles} (h : c.Like c') :
        (rs.foldl (Closing.receiveResolution p) c).Like
          (rs.foldl (Closing.receiveResolution p) c') := by
      induction rs generalizing c c' with
      | nil => exact h
      | cons r more ih => exact ih (h.receiveResolution p r)
    refine hfold e.resolutions ?_
    exact { h with state := ⟨congrArg (·.addRecord p e.interface) h.state.graph,
      h.state.stages⟩ }

/-- The coordinators receive a module. -/
theorem receive (h : c.Like c') {m m' : Module} (hm : m.unleased = m'.unleased) :
    (Closing.receive m c).Like (Closing.receive m' c') := by
  have hpath : m.path = m'.path := by rw [← Module.path_unleased, hm, Module.path_unleased]
  have hentry : m.entry = m'.entry := by rw [← Module.entry_unleased, hm, Module.entry_unleased]
  have hfailed : m.failed = m'.failed := by
    rw [← Module.failed_unleased, hm, Module.failed_unleased]
  have hrecords : m.records = m'.records := by
    rw [← Module.records_unleased, hm, Module.records_unleased]
  have hcontent : m.content.isSome = m'.content.isSome := by
    rw [← Module.isSome_content_unleased, hm, Module.isSome_content_unleased]
  have hfold (os : List (Except Diagnostic Extract)) {c c' : Closing MemoryFiles}
      (h : c.Like c') : (os.foldl (Closing.receiveRecord m'.path) c).Like
        (os.foldl (Closing.receiveRecord m'.path) c') := by
    induction os generalizing c c' with
    | nil => exact h
    | cons o more ih => exact ih (h.receiveRecord m'.path o)
  have henter : Closing.enter m c.state.graph = Closing.enter m' c'.state.graph := by
    rw [Closing.enter, Closing.enter, hpath, hentry, h.state.graph]
  have hentered : Closing.Like
      { c with state := { c.state with graph := Closing.enter m c.state.graph } }
      { c' with state := { c'.state with graph := Closing.enter m' c'.state.graph } } :=
    { h with state := ⟨henter, h.state.stages⟩ }
  have htaken := hfold m'.records hentered
  unfold Closing.receive
  rw [hrecords, hpath]
  refine ⟨⟨?_, htaken.state.stages⟩, htaken.waiting, htaken.running, htaken.results,
    htaken.outstanding, congrArg (· ++ [m'.path]) htaken.received, ?_⟩
  · simp only [Closing.conclude, hfailed, hpath, htaken.state.graph]
  · simp only [hcontent]
    split
    · rw [List.map_append, List.map_append, htaken.analyzable, List.map_singleton,
        List.map_singleton, hm]
    · exact htaken.analyzable

theorem ofBatch {s s' : RunState MemoryFiles} (h : s.Like s') (batch : Batch) :
    (Closing.ofBatch batch s).Like (Closing.ofBatch batch s') := by
  have hfirst : Closing.Like
      { state := RunState.reach batch.index .awaiting
          { s with counts := { s.counts with batches := s.counts.batches + 1 } } }
      { state := RunState.reach batch.index .awaiting
          { s' with counts := { s'.counts with batches := s'.counts.batches + 1 } } } :=
    { state := ⟨h.graph, congrArg (· ++ [(batch.index, Stage.awaiting)]) h.stages⟩
      waiting := rfl, running := rfl, results := rfl, outstanding := rfl, received := rfl
      analyzable := rfl }
  have hlast := hfirst.dispatches batch.paths
  exact { hlast with
    state := ⟨hlast.state.graph,
      congrArg (· ++ [(batch.index, Stage.draining)]) hlast.state.stages⟩ }

/-- A worker takes the next path. -/
theorem step_start (h : c.Like c') (l l' : Linter) (hw : c.waiting.waiting ≠ []) :
    c'.waiting.waiting ≠ [] ∧ (c.step l .start).Like (c'.step l' .start) := by
  obtain ⟨p, more, hp⟩ := List.exists_cons_of_ne_nil hw
  have hp' : c'.waiting.waiting = p :: more := by rw [← h.waiting]; exact hp
  refine ⟨hp' ▸ List.cons_ne_nil _ _, ?_⟩
  rw [Closing.step_start l hp, Closing.step_start l' hp']
  exact { h with waiting := rfl, running := congrArg (· ++ [p]) h.running }

/-- A path is loaded to the same module. -/
theorem step_finish (h : c.Like c') {l l' : Linter} {index : Nat} {p : Path}
    (hp : c.running[index]? = some p)
    (hloaded : (Closing.loaded l p c.state.resources).1.unleased =
      (Closing.loaded l' p c'.state.resources).1.unleased) :
    (c.step l (.finish index)).Like (c'.step l' (.finish index)) := by
  have hp' : c'.running[index]? = some p := by rwa [← h.running]
  rw [Closing.step_finish l hp, Closing.step_finish l' hp']
  exact { h with
    state := ⟨h.state.graph, h.state.stages⟩
    running := congrArg (·.eraseIdx index) h.running
    results := by
      simp only [Channel.send, List.map_append, h.results, List.map_singleton, hloaded] }

/-- The coordinators receive the next module. -/
theorem step_receive (h : c.Like c') (l l' : Linter) (hw : c.results.waiting ≠ []) :
    c'.results.waiting ≠ [] ∧ (c.step l .receive).Like (c'.step l' .receive) := by
  obtain ⟨m, more, hm⟩ := List.exists_cons_of_ne_nil hw
  have hresults := h.results
  rw [hm, List.map_cons] at hresults
  obtain ⟨m', more', hm', hsame, hmore⟩ := List.map_eq_cons_iff.mp hresults.symm
  refine ⟨hm' ▸ List.cons_ne_nil _ _, ?_⟩
  rw [Closing.step_receive l hm, Closing.step_receive l' hm']
  refine receive ?_ hsame.symm
  exact { h with
    results := hmore.symm
    outstanding := congrArg (· - 1) h.outstanding }

end Closing.Like

namespace Analyzing.Like

variable {a a' : Analyzing MemoryFiles}

theorem ofClosing {c c' : Closing MemoryFiles} (h : c.Like c') (batch : Batch) :
    (Analyzing.ofClosing batch c).Like (Analyzing.ofClosing batch c') where
  state := by
    refine ⟨?_, ?_⟩
    · simp only [Analyzing.ofClosing, RunState.reach, h.received, h.state.graph]
    · simp only [Analyzing.ofClosing, RunState.reach, h.state.stages]
  waiting := h.analyzable
  running := rfl
  results := rfl
  pending := by
    have hlength := congrArg List.length h.analyzable
    rwa [List.length_map, List.length_map] at hlength

/-- A worker takes the next module. -/
theorem step_start (h : a.Like a') (l l' : Linter) (hw : a.waiting.waiting ≠ []) :
    a'.waiting.waiting ≠ [] ∧ (a.step l .start).Like (a'.step l' .start) := by
  obtain ⟨m, more, hm⟩ := List.exists_cons_of_ne_nil hw
  have hwaiting := h.waiting
  rw [hm, List.map_cons] at hwaiting
  obtain ⟨m', more', hm', hsame, hmore⟩ := List.map_eq_cons_iff.mp hwaiting.symm
  refine ⟨hm' ▸ List.cons_ne_nil _ _, ?_⟩
  rw [Analyzing.step_start l hm, Analyzing.step_start l' hm']
  exact { h with
    waiting := hmore.symm
    running := by
      rw [List.map_append, List.map_append, h.running, List.map_singleton, List.map_singleton,
        hsame] }

/-- Modules of the same path are analyzed. -/
theorem step_finish (h : a.Like a') (l l' : Linter) {index : Nat} {m : Module}
    (hm : a.running[index]? = some m) :
    ∃ m', a'.running[index]? = some m' ∧ m'.path = m.path ∧
      (a.step l (.finish index)).Like (a'.step l' (.finish index)) := by
  have hrunning := congrArg (fun ms => ms[index]?) h.running
  simp only [List.getElem?_map, hm, Option.map_some] at hrunning
  obtain ⟨m', hm', hsame⟩ := Option.map_eq_some_iff.mp hrunning.symm
  have hpath : m'.path = m.path := by rw [← Module.path_unleased, hsame, Module.path_unleased]
  refine ⟨m', hm', hpath, ?_⟩
  rw [Analyzing.step_finish l hm, Analyzing.step_finish l' hm']
  exact { h with
    state := ⟨h.state.graph, h.state.stages⟩
    running := by simp only [← List.eraseIdx_map, h.running]
    results := by
      simp only [Channel.send, List.length_append, h.results, List.length_singleton] }

/-- The coordinators receive the next counts, which may differ. -/
theorem step_receive (h : a.Like a') (l l' : Linter) (hw : a.results.waiting ≠ []) :
    a'.results.waiting ≠ [] ∧ (a.step l .receive).Like (a'.step l' .receive) := by
  obtain ⟨counts, more, hcounts⟩ := List.exists_cons_of_ne_nil hw
  have hlength := h.results
  rw [hcounts, List.length_cons] at hlength
  obtain ⟨counts', more', hcounts'⟩ := List.exists_cons_of_length_eq_add_one hlength.symm
  refine ⟨hcounts' ▸ List.cons_ne_nil _ _, ?_⟩
  rw [Analyzing.step_receive l hcounts, Analyzing.step_receive l' hcounts']
  exact { h with
    state := ⟨h.state.graph, h.state.stages⟩
    results := by
      rw [hcounts', List.length_cons] at hlength
      exact Nat.succ.inj hlength
    pending := congrArg (· - 1) h.pending }

theorem released (h : a.Like a') {l l' : Linter}
    (hrelease : l.options.releaseEdges = l'.options.releaseEdges) (batch : Batch)
    (received : List Path) :
    (l.released batch received a).Like (l'.released batch received a') := by
  unfold Linter.released
  rw [hrelease]
  split
  · refine ⟨?_, ?_⟩
    · simp only [RunState.reach, RunState.release, h.state.graph]
    · simp only [RunState.reach, RunState.release, h.state.stages]
  · exact ⟨h.state.graph, congrArg (· ++ [(batch.index, Stage.released)]) h.state.stages⟩

end Analyzing.Like

/-! ### Runs that have done the same -/

namespace Linter

/-- Linters that load in the same way, and drop edges both or neither. -/
structure LoadsAs (l l' : Linter) : Prop where
  loading : l.loading = l'.loading
  entries : l.entries = l'.entries
  releaseEdges : l.options.releaseEdges = l'.options.releaseEdges

theorem LoadsAs.module {l l' : Linter} (h : l.LoadsAs l') (files : MemoryFiles) (p : Path) :
    l.module files p = l'.module files p :=
  module_congr h.loading files (by rw [h.entries])

/-- The analyses of paths in graphs. -/
def analysesOf (l : Linter) (files : MemoryFiles) (log : List (ModuleGraph × Path)) :
    List Analysis :=
  log.map fun x => l.analysis files x.1 x.2

/-- The graphs showed the paths that were analyzed in them what the files say. -/
def ShownIn (l : Linter) (files : MemoryFiles) (log : List (ModuleGraph × Path)) : Prop :=
  ∀ x ∈ log, x.1.Shows l files x.2

/-- Two runs are at the same place, and their analyses were of the same paths in the same
graphs. -/
inductive Paired (l l' : Linter) (files : MemoryFiles) (log : List (ModuleGraph × Path))
    (loaded : List Path) : Phase MemoryFiles → Phase MemoryFiles → Prop where
  | closing {batch rest prior} {c c' : Closing MemoryFiles} (shown : l.ShownIn files log)
      (h : l.WhileClosing files loaded prior (l.analysesOf files log) rest c)
      (h' : l'.WhileClosing files loaded prior (l'.analysesOf files log) rest c')
      (like : c.Like c') : Paired l l' files log loaded (.closing batch rest c) (.closing batch rest c')
  | analyzing {batch rest received} {a a' : Analyzing MemoryFiles} (shown : l.ShownIn files log)
      (h : l.WhileAnalyzing files loaded (l.analysesOf files log) rest received a)
      (h' : l'.WhileAnalyzing files loaded (l'.analysesOf files log) rest received a')
      (like : a.Like a') :
      Paired l l' files log loaded (.analyzing batch rest received a)
        (.analyzing batch rest received a')
  | finished {s s' : RunState MemoryFiles} (shown : l.ShownIn files log)
      (h : l.Between files loaded (l.analysesOf files log) [] s)
      (h' : l'.Between files loaded (l'.analysesOf files log) [] s') (like : s.Like s') :
      Paired l l' files log loaded (.finished s) (.finished s')

namespace Paired

variable {l l' : Linter} {files : MemoryFiles} {log : List (ModuleGraph × Path)}
  {loaded : List Path}

/-- The next batch begins in both runs, or both end. -/
theorem begin {rest : List Batch} {s s' : RunState MemoryFiles} (shown : l.ShownIn files log)
    (h : l.Between files loaded (l.analysesOf files log) rest s)
    (h' : l'.Between files loaded (l'.analysesOf files log) rest s') (like : s.Like s') :
    Paired l l' files log loaded (.begin s rest) (.begin s' rest) := by
  cases rest with
  | nil => exact .finished shown h h' like
  | cons batch rest => exact .closing shown h.begin h'.begin (.ofBatch like batch)

/-- **A step of one run is a step of the other.** -/
theorem step (hloads : l.LoadsAs l') {phase phase' twin : Phase MemoryFiles} {more : List Path}
    (h : Paired l l' files log loaded phase twin) (hstep : l.Step phase more phase') :
    ∃ log' twin', l'.Step twin more twin' ∧
      Paired l l' files log' (loaded ++ more) phase' twin' := by
  cases hstep with
  | start hw =>
    cases h with
    | closing shown h h' like =>
    obtain ⟨hw', hlike⟩ := like.step_start l l' hw
    refine ⟨log, _, .start hw', ?_⟩
    rw [List.append_nil]
    exact .closing shown (h.start hw) (h'.start hw') hlike
  | @finish batch rest c index p hp =>
    cases h with
    | @closing _ _ prior _ c' shown h h' like =>
    have hp' : c'.running[index]? = some p := by rwa [← like.running]
    have hmodule := (h.stored.load (l := l) (h.new_of_running hp)).1
    have hmodule' := (h'.stored.load (l := l') (h'.new_of_running hp')).1
    refine ⟨log, _, .finish hp', .closing shown (h.finish hp) (h'.finish hp') ?_⟩
    exact like.step_finish hp (by rw [hmodule, hmodule', hloads.module])
  | receive hw =>
    cases h with
    | closing shown h h' like =>
    obtain ⟨hw', hlike⟩ := like.step_receive l l' hw
    refine ⟨log, _, .receive hw', ?_⟩
    rw [List.append_nil]
    exact .closing shown (h.receive hw) (h'.receive hw') hlike
  | @close batch rest c hdone =>
    cases h with
    | @closing _ _ prior _ c' shown h h' like =>
    have hdone' : c'.outstanding = 0 := like.outstanding ▸ hdone
    refine ⟨log, _, .close hdone', ?_⟩
    rw [List.append_nil, ← like.received]
    refine .analyzing shown (h.close hdone) ?_ (.ofClosing like batch)
    rw [like.received]
    exact h'.close hdone'
  | inspect hw =>
    cases h with
    | analyzing shown h h' like =>
    obtain ⟨hw', hlike⟩ := like.step_start l l' hw
    refine ⟨log, _, .inspect hw', ?_⟩
    rw [List.append_nil]
    exact .analyzing shown (h.start hw) (h'.start hw') hlike
  | @conclude batch rest received a index m hm =>
    cases h with
    | @analyzing _ _ _ _ a' shown h h' like =>
    obtain ⟨m', hm', hpath, hlike⟩ := like.step_finish l l' hm
    have hfinish := h'.finish hm'
    rw [← like.state.graph, hpath] at hfinish
    -- both analyses are of the same path, in the same graph
    refine ⟨log ++ [(a.state.graph, m.path)], _, .conclude hm', ?_⟩
    rw [List.append_nil]
    refine .analyzing (fun x hx => ?_) ?_ ?_ hlike
    · rcases List.mem_append.mp hx with hx | hx
      · exact shown x hx
      · rw [List.mem_singleton.mp hx]
        exact h.shows _ (h.modules m (List.mem_append_left _ (List.mem_of_getElem? hm))).2
    · rw [analysesOf, List.map_append]
      exact h.finish hm
    · rw [analysesOf, List.map_append]
      exact hfinish
  | count hw =>
    cases h with
    | analyzing shown h h' like =>
    obtain ⟨hw', hlike⟩ := like.step_receive l l' hw
    refine ⟨log, _, .count hw', ?_⟩
    rw [List.append_nil]
    exact .analyzing shown (h.count hw) (h'.count hw') hlike
  | @release batch rest received a hdone =>
    cases h with
    | @analyzing _ _ _ _ a' shown h h' like =>
    have hdone' : a'.pending = 0 := like.pending ▸ hdone
    refine ⟨log, _, .release hdone', ?_⟩
    rw [List.append_nil]
    exact .begin shown (h.release hdone) (h'.release hdone')
      (like.released hloads.releaseEdges batch received)

/-- The other run can take the same steps. -/
theorem steps (hloads : l.LoadsAs l') {first twin phase : Phase MemoryFiles} {n : Nat}
    {more : List Path} (h : Paired l l' files log loaded first twin)
    (hsteps : l.Steps first n more phase) :
    ∃ log' twin', (∃ n', l'.Steps twin n' more twin') ∧
      Paired l l' files log' (loaded ++ more) phase twin' := by
  refine hsteps.induct (motive := fun more phase => ∃ log' twin',
    (∃ n', l'.Steps twin n' more twin') ∧
      Paired l l' files log' (loaded ++ more) phase twin') ?_ ?_
  · rw [List.append_nil]
    exact ⟨log, twin, ⟨0, .refl⟩, h⟩
  · rintro more phase some phase' ⟨log', twin', ⟨n', hsteps'⟩, h⟩ hstep
    obtain ⟨log'', twin'', hstep', h'⟩ := h.step hloads hstep
    rw [← List.append_assoc]
    exact ⟨log'', twin'', ⟨n' + 1, hsteps'.tail hstep'⟩, h'⟩

end Paired

end Linter

namespace LintSession

variable {s s' : LintSession} {paths : List Path} {loaded : List Path}
  {state : RunState MemoryFiles}

/-- **To every run there is one of the other settings that takes the same steps**, and
both do the same analyses. -/
theorem exists_paired (hloads : (s.linterOf paths).LoadsAs (s'.linterOf paths))
    (hbatches : s.batches paths = s'.batches paths) {r : Resources MemoryFiles}
    (h : s.Finishes paths r loaded state) :
    ∃ log state', s'.Finishes paths r loaded state' ∧ state.Like state' ∧
      (s.linterOf paths).ShownIn r.files log ∧
      (s.linterOf paths).Between r.files loaded ((s.linterOf paths).analysesOf r.files log) []
        state ∧
      (s'.linterOf paths).Between r.files loaded ((s'.linterOf paths).analysesOf r.files log) []
        state' := by
  obtain ⟨hpaths, n, hsteps⟩ := h
  have hfirst : Linter.Paired (s.linterOf paths) (s'.linterOf paths) r.files [] []
      (s.start paths r) (s'.start paths r) := by
    have hstart' := s'.between_start paths r
    rw [← hbatches] at hstart'
    rw [start, start, ← hbatches]
    exact .begin (by simp [Linter.ShownIn]) (s.between_start paths r) hstart' ⟨rfl, rfl⟩
  obtain ⟨log, twin, ⟨n', hsteps'⟩, hpaired⟩ := hfirst.steps hloads hsteps
  rw [List.nil_append] at hpaired
  cases hpaired with
  | finished shown h h' like => exact ⟨log, _, ⟨hpaths, n', hsteps'⟩, like, shown, h, h'⟩

end LintSession

end ScriptLint
