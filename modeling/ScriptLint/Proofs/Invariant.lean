/-
What holds in every state of a run.

The invariant has a form for each phase.  While a batch is loaded, everything that
was handed out is loaded, being loaded or waiting (`Linter.WhileClosing`); while it is
analyzed, the loaded modules are closed under imports and the graph shows each module
of the batch what the files say (`Linter.WhileAnalyzing`); between two batches nothing
is under way (`Linter.Between`):

* **`Linter.Sound.step`** — every step of a run keeps it;
* **`Linter.Sound.steps`** — so it holds in every state that a run can be in.
-/
import ScriptLint.Proofs.Execution
import ScriptLint.Proofs.Ledger

namespace ScriptLint

namespace Linter

variable (l : Linter) (files : MemoryFiles)

/-- The content of a module is kept for its analysis. -/
def Kept (p : Path) : Bool := (l.module files p).content.isSome

/-- The analysis was done in a graph that shows the module what the files say. -/
def Analyzes (a : Analysis) : Prop :=
  ∃ g : ModuleGraph, g.Shows l files a.path ∧ a = l.analysis files g a.path

/-- A batch is being loaded; `prior` are the modules of earlier batches. -/
structure WhileClosing (loaded prior : List Path) (analyses : List Analysis) (rest : List Batch)
    (c : Closing MemoryFiles) : Prop where
  loaded_eq : loaded = prior ++ c.received ++ c.results.waiting.map Module.path
  stored : Stored files loaded analyses c.state.resources.files
  handed : Handed l files (loaded ++ c.running ++ c.waiting.waiting) c.state.graph
  knows : ModuleGraph.Knows l files (prior ++ c.received) c.state.graph
  targets : ∀ p ∈ prior ++ c.received, ∀ t ∈ (l.module files p).targets,
    t.key ∈ c.state.graph.dispatched
  tallied : Tallied l files (prior ++ c.received) analyses [] c.state
  current : ∀ p ∈ c.received, c.state.graph.core p.key = (l.module files p).node
  results : ∀ m ∈ c.results.waiting, m.unleased = l.module files m.path
  analyzable : c.analyzable.map Module.unleased =
    (c.received.map (l.module files)).filter fun m => m.content.isSome
  outstanding : c.outstanding =
    c.results.waiting.length + c.running.length + c.waiting.waiting.length
  closed : ModuleGraph.ClosedUnder l files prior
  analyzed : ∀ a ∈ analyses, l.Analyzes files a
  work : (analyses.map Analysis.path).Perm (prior.filter (l.Kept files))
  entries : ∀ p ∈ l.entries.paths, p.key ∈ c.state.graph.dispatched ∨ ∃ b ∈ rest, p ∈ b.paths
  rest : ∀ b ∈ rest, ∀ p ∈ b.paths, p ∈ l.entries.paths

/-- A batch was loaded and is being analyzed; `received` are its modules. -/
structure WhileAnalyzing (loaded : List Path) (analyses : List Analysis) (rest : List Batch)
    (received : List Path) (a : Analyzing MemoryFiles) : Prop where
  subset : ∀ p ∈ received, p ∈ loaded
  stored : Stored files loaded analyses a.state.resources.files
  handed : Handed l files loaded a.state.graph
  knows : ModuleGraph.Knows l files loaded a.state.graph
  closed : ModuleGraph.ClosedUnder l files loaded
  tallied : Tallied l files loaded analyses a.results.waiting a.state
  shows : ∀ p ∈ received, a.state.graph.Shows l files p
  modules : ∀ m ∈ a.running ++ a.waiting.waiting,
    m.unleased = l.module files m.path ∧ m.path ∈ received
  pending : a.pending = a.results.waiting.length + a.running.length + a.waiting.waiting.length
  analyzed : ∀ a ∈ analyses, l.Analyzes files a
  work : (analyses.map Analysis.path ++ (a.running ++ a.waiting.waiting).map Module.path).Perm
    (loaded.filter (l.Kept files))
  entries : ∀ p ∈ l.entries.paths, p.key ∈ loaded.map Path.key ∨ ∃ b ∈ rest, p ∈ b.paths
  rest : ∀ b ∈ rest, ∀ p ∈ b.paths, p ∈ l.entries.paths

/-- No batch is under way, and these are left. -/
structure Between (loaded : List Path) (analyses : List Analysis) (rest : List Batch)
    (s : RunState MemoryFiles) : Prop where
  stored : Stored files loaded analyses s.resources.files
  handed : Handed l files loaded s.graph
  knows : ModuleGraph.Knows l files loaded s.graph
  closed : ModuleGraph.ClosedUnder l files loaded
  tallied : Tallied l files loaded analyses [] s
  analyzed : ∀ a ∈ analyses, l.Analyzes files a
  work : (analyses.map Analysis.path).Perm (loaded.filter (l.Kept files))
  entries : ∀ p ∈ l.entries.paths, p.key ∈ loaded.map Path.key ∨ ∃ b ∈ rest, p ∈ b.paths
  rest : ∀ b ∈ rest, ∀ p ∈ b.paths, p ∈ l.entries.paths

/-- The invariant of a run in which the given paths have been loaded. -/
def Sound (loaded : List Path) : Phase MemoryFiles → Prop
  | .closing _ rest c => ∃ prior analyses, WhileClosing l files loaded prior analyses rest c
  | .analyzing _ rest received a => ∃ analyses, WhileAnalyzing l files loaded analyses rest received a
  | .finished s => ∃ analyses, Between l files loaded analyses [] s

variable {l files} {loaded prior received : List Path} {analyses : List Analysis}
  {rest : List Batch} {batch : Batch}

/-! ### Loading -/

namespace WhileClosing

variable {c : Closing MemoryFiles}

/-- A worker begins to load. -/
theorem start (h : WhileClosing l files loaded prior analyses rest c)
    (hne : c.waiting.waiting ≠ []) :
    WhileClosing l files loaded prior analyses rest (c.step l .start) := by
  cases hw : c.waiting.waiting with
  | nil => exact absurd hw hne
  | cons p more =>
    rw [Closing.step_start l hw]
    have hhanded : loaded ++ (c.running ++ [p]) ++ more =
        loaded ++ c.running ++ c.waiting.waiting := by
      rw [hw]
      simp
    exact { h with
      handed := hhanded ▸ h.handed
      outstanding := by
        have := h.outstanding
        simp only [hw, List.length_append, List.length_cons, List.length_nil] at this ⊢
        omega }

/-- What is being loaded was not loaded before. -/
theorem new_of_running (h : WhileClosing l files loaded prior analyses rest c) {index : Nat}
    {p : Path} (hp : c.running[index]? = some p) : p.key ∉ loaded.map Path.key := by
  have hnodup := h.handed.nodup
  rw [List.append_assoc, List.map_append] at hnodup
  refine fun hmem => List.disjoint_of_nodup_append hnodup hmem (List.mem_map_of_mem ?_)
  exact List.mem_append_left _ (List.mem_of_getElem? hp)

/-- A worker ends loading. -/
theorem finish (h : WhileClosing l files loaded prior analyses rest c) {index : Nat} {p : Path}
    (hp : c.running[index]? = some p) :
    WhileClosing l files (loaded ++ [p]) prior analyses rest (c.step l (.finish index)) := by
  obtain ⟨hindex, hget⟩ := List.getElem?_eq_some_iff.mp hp
  have hperm : (p :: c.running.eraseIdx index).Perm c.running := by
    rw [← hget]
    exact List.getElem_cons_eraseIdx_perm hindex
  obtain ⟨hmodule, hstored⟩ := h.stored.load (l := l) (h.new_of_running hp)
  have hpath : (Closing.loaded l p c.state.resources).1.path = p := by
    rw [← Module.path_unleased, hmodule, path_module]
  have hlength := hperm.length_eq
  rw [List.length_cons] at hlength
  rw [Closing.step_finish l hp]
  exact { h with
    loaded_eq := by
      simp only [Channel.send, List.map_append, List.map_singleton, hpath, h.loaded_eq,
        List.append_assoc]
    stored := hstored
    handed := h.handed.perm (by
      rw [List.append_assoc, List.append_assoc, List.append_assoc, ← List.append_assoc [p]]
      exact (hperm.append_right _).append_left _)
    tallied := h.tallied.congr rfl rfl
    results := fun m hm => by
      rcases List.mem_append.mp hm with hm | hm
      · exact h.results m hm
      · rw [List.mem_singleton.mp hm]
        exact hmodule.trans (by rw [hpath])
    outstanding := by
      have := h.outstanding
      simp only [Channel.send, List.length_append, List.length_cons, List.length_nil] at this ⊢
      omega }

/-- The coordinator receives a module. -/
theorem receive (h : WhileClosing l files loaded prior analyses rest c)
    (hne : c.results.waiting ≠ []) :
    WhileClosing l files loaded prior analyses rest (c.step l .receive) := by
  cases hw : c.results.waiting with
  | nil => exact absurd hw hne
  | cons m more =>
    rw [Closing.step_receive l hw]
    obtain ⟨fresh, hr⟩ := Closing.exists_receives m
      { c with results := ⟨more⟩, outstanding := c.outstanding - 1 }
    generalize Closing.receive m { c with results := ⟨more⟩, outstanding := c.outstanding - 1 } = c'
      at hr ⊢
    have hm : m.unleased = l.module files m.path := h.results m (hw ▸ List.mem_cons_self)
    have htargets : m.targets = (l.module files m.path).targets := by rw [← hm]; rfl
    have hloaded : loaded = prior ++ (c.received ++ [m.path]) ++ more.map Module.path := by
      rw [h.loaded_eq, hw]
      simp
    have hmem : m.path ∈ loaded := by
      rw [hloaded]
      simp
    have hnew : m.path.key ∉ (prior ++ c.received).map Path.key := by
      have hnodup := h.handed.nodup
      rw [h.loaded_eq, hw, List.append_assoc, List.append_assoc, List.map_append] at hnodup
      exact fun hk => List.disjoint_of_nodup_append hnodup hk (by simp)
    have hreached : l.Reaches files m.path.key :=
      h.handed.reached _ (List.mem_append_left _ (List.mem_append_left _ hmem))
    obtain ⟨hknows, hcore⟩ := h.knows.receive hm hnew hr.edits
    have hmono {k : Path.Key} (hk : k ∈ c.state.graph.dispatched) :
        k ∈ c'.state.graph.dispatched := (hr.dispatched k).mpr (.inr hk)
    refine ⟨?_, ?_, ?_, ?_, ?_, ?_, ?_, ?_, ?_, ?_, h.closed, h.analyzed, h.work, ?_, h.rest⟩
    · rw [hr.received, hr.results, hloaded]
    · rw [hr.resources]
      exact h.stored
    · rw [hr.running, hr.waiting, ← List.append_assoc]
      refine h.handed.append hr.dispatched hr.nodup hr.new fun p hp => ?_
      exact .imported hreached (imports_of_mem (htargets ▸ hr.mem p hp))
    · rw [hr.received, ← List.append_assoc]
      exact hknows
    · intro p hp t ht
      rw [hr.received, ← List.append_assoc] at hp
      rcases List.mem_append.mp hp with hp | hp
      · exact hmono (h.targets p hp t ht)
      · rw [List.mem_singleton.mp hp, ← htargets] at ht
        exact hr.all t ht
    · rw [hr.received, ← List.append_assoc]
      exact h.tallied.receive hm hr.emitted hr.counts
    · intro p hp
      rw [hr.received] at hp
      rcases List.mem_append.mp hp with hp | hp
      · have hne : m.path.key ≠ p.key := fun heq =>
          hnew (heq ▸ List.mem_map_of_mem (List.mem_append_right _ hp))
        rw [hr.edits.core, if_neg hne]
        exact h.current p hp
      · rw [List.mem_singleton.mp hp]
        exact hcore
    · intro m' hm'
      rw [hr.results] at hm'
      exact h.results m' (hw ▸ List.mem_cons_of_mem _ hm')
    · have hcontent : (l.module files m.path).content.isSome = m.content.isSome := by
        rw [← hm, Module.isSome_content_unleased]
      rw [hr.analyzable, hr.received, List.map_append, List.filter_append, ← h.analyzable,
        List.map_singleton, List.filter_singleton, hcontent]
      cases m.content.isSome with
      | false => simp
      | true => simp [hm]
    · have := h.outstanding
      rw [hr.outstanding, hr.results, hr.running, hr.waiting]
      simp only [hw, List.length_append, List.length_cons] at this ⊢
      omega
    · exact fun p hp => (h.entries p hp).imp_left hmono

/-- The batch is loaded: nothing is under way, and the requests are linked. -/
theorem close (h : WhileClosing l files loaded prior analyses rest c) (hdone : c.outstanding = 0) :
    WhileAnalyzing l files loaded analyses rest c.received (Analyzing.ofClosing batch c) := by
  have houtstanding := h.outstanding
  rw [hdone] at houtstanding
  have hresults : c.results.waiting = [] := List.length_eq_zero_iff.mp (by omega)
  have hrunning : c.running = [] := List.length_eq_zero_iff.mp (by omega)
  have hwaiting : c.waiting.waiting = [] := List.length_eq_zero_iff.mp (by omega)
  have hloaded : loaded = prior ++ c.received := by
    rw [h.loaded_eq, hresults, List.map_nil, List.append_nil]
  have hhanded : Handed l files loaded c.state.graph := by
    have := h.handed
    rw [hrunning, hwaiting, List.append_nil, List.append_nil] at this
    exact this
  have hclosed : ModuleGraph.ClosedUnder l files loaded := fun p hp t ht =>
    (hhanded.dispatched _).mp (h.targets p (hloaded ▸ hp) t ht)
  have hnodup : (c.received.map Path.key).Nodup := by
    have := hhanded.nodup
    rw [hloaded, List.map_append] at this
    exact this.of_append_right
  have hgraph : (Analyzing.ofClosing batch c).state.graph =
      c.received.foldl ModuleGraph.link c.state.graph := rfl
  have hdispatched (paths : List Path) (g : ModuleGraph) :
      (paths.foldl ModuleGraph.link g).dispatched = g.dispatched := by
    induction paths generalizing g with
    | nil => rfl
    | cons p more ih =>
      rw [List.foldl_cons, ih]
      unfold ModuleGraph.link
      split <;> rfl
  have hmodules (m : Module) (hm : m ∈ c.analyzable) :
      m.unleased = l.module files m.path ∧ m.path ∈ c.received := by
    have hmem : m.unleased ∈ (c.received.map (l.module files)).filter fun m => m.content.isSome :=
      h.analyzable ▸ List.mem_map_of_mem hm
    obtain ⟨p, hp, heq⟩ := List.mem_map.mp (List.mem_of_mem_filter hmem)
    have hpath : m.path = p := by rw [← Module.path_unleased, ← heq, path_module]
    rw [hpath]
    exact ⟨heq.symm, hp⟩
  have hpaths : c.analyzable.map Module.path = c.received.filter (l.Kept files) := by
    have hpath : Module.path ∘ l.module files = id := funext (l.path_module files)
    calc c.analyzable.map Module.path
        = (c.analyzable.map Module.unleased).map Module.path := by rw [List.map_map]; rfl
      _ = ((c.received.map (l.module files)).filter fun m => m.content.isSome).map
            Module.path := by rw [h.analyzable]
      _ = c.received.filter (l.Kept files) := by
          rw [List.filter_map, List.map_map, hpath, List.map_id]; rfl
  refine ⟨fun p hp => hloaded ▸ List.mem_append_right _ hp, h.stored,
    hhanded.of_dispatched (hdispatched _ _), ?_, hclosed, ?_, fun p hp => ?_, hmodules, ?_,
    h.analyzed, ?_, fun p hp => ?_, h.rest⟩
  · rw [hgraph, hloaded]
    exact h.knows.links hnodup
  · rw [hloaded]
    exact h.tallied.congr rfl rfl
  · rw [hgraph]
    exact h.knows.shows h.current (hloaded ▸ hhanded.nodup) h.closed (hloaded ▸ hclosed) hp
  · simp [Analyzing.ofClosing, Channel.empty]
  · have hall : ((Analyzing.ofClosing batch c).running ++
        (Analyzing.ofClosing batch c).waiting.waiting).map Module.path =
          c.analyzable.map Module.path := rfl
    rw [hall, hpaths, hloaded, List.filter_append]
    exact h.work.append_right _
  · exact (h.entries p hp).imp_left (hhanded.dispatched _).mp

end WhileClosing

/-! ### Analyzing -/

namespace WhileAnalyzing

variable {a : Analyzing MemoryFiles}

/-- A worker begins to analyze. -/
theorem start (h : WhileAnalyzing l files loaded analyses rest received a)
    (hne : a.waiting.waiting ≠ []) :
    WhileAnalyzing l files loaded analyses rest received (a.step l .start) := by
  cases hw : a.waiting.waiting with
  | nil => exact absurd hw hne
  | cons m more =>
    rw [Analyzing.step_start l hw]
    have hmodules : a.running ++ [m] ++ more = a.running ++ a.waiting.waiting := by
      rw [hw]
      simp
    exact { h with
      modules := hmodules ▸ h.modules
      pending := by
        have := h.pending
        simp only [hw, List.length_append, List.length_cons, List.length_nil] at this ⊢
        omega
      work := hmodules ▸ h.work }

/-- A worker ends an analysis. -/
theorem finish (h : WhileAnalyzing l files loaded analyses rest received a) {index : Nat}
    {m : Module} (hm : a.running[index]? = some m) :
    WhileAnalyzing l files loaded (analyses ++ [l.analysis files a.state.graph m.path]) rest received
      (a.step l (.finish index)) := by
  obtain ⟨hindex, hget⟩ := List.getElem?_eq_some_iff.mp hm
  have hperm : (m :: a.running.eraseIdx index).Perm a.running := by
    rw [← hget]
    exact List.getElem_cons_eraseIdx_perm hindex
  have hmem : m ∈ a.running := hget ▸ List.getElem_mem hindex
  obtain ⟨hmodule, hreceived⟩ := h.modules m (List.mem_append_left _ hmem)
  have hlength := hperm.length_eq
  rw [List.length_cons] at hlength
  have hnew : m.path.key ∉ analyses.map fun a => a.path.key := by
    -- what was analyzed and what is still to be are different modules
    have hnodup : ((analyses.map Analysis.path ++
        (a.running ++ a.waiting.waiting).map Module.path).map Path.key).Nodup := by
      refine (h.work.map Path.key).nodup_iff.mpr ?_
      exact h.handed.nodup.sublist ((List.filter_sublist).map Path.key)
    rw [List.map_append, List.map_map, List.map_map] at hnodup
    exact fun hk => List.disjoint_of_nodup_append hnodup hk
      (List.mem_map_of_mem (f := Path.key ∘ Module.path) (List.mem_append_left _ hmem))
  obtain ⟨hcounts, hemitted, hgraph, hsame, _, _⟩ := analyzed_eq hmodule h.stored.plans
  rw [Analyzing.step_finish l hm]
  refine ⟨h.subset, ?_, ?_, ?_, h.closed, ?_, ?_, fun m' hm' => ?_, ?_, fun a' ha' => ?_, ?_,
    h.entries, h.rest⟩
  · exact h.stored.analyze hmodule (List.mem_map_of_mem (h.subset _ hreceived)) hnew
  · exact h.handed.of_dispatched (by rw [hgraph])
  · exact h.knows.of_nodes (by rw [hgraph])
  · simp only [Channel.send, hcounts]
    exact h.tallied.analyze hemitted hsame
  · simp only [hgraph]
    exact h.shows
  · refine h.modules m' ?_
    rcases List.mem_append.mp hm' with hm' | hm'
    · exact List.mem_append_left _ (List.mem_of_mem_eraseIdx hm')
    · exact List.mem_append_right _ hm'
  · have := h.pending
    simp only [Channel.send, List.length_append, List.length_cons, List.length_nil] at this ⊢
    omega
  · rcases List.mem_append.mp ha' with ha' | ha'
    · exact h.analyzed a' ha'
    · rw [List.mem_singleton.mp ha']
      exact ⟨a.state.graph, h.shows _ hreceived, rfl⟩
  · refine List.Perm.trans ?_ h.work
    rw [List.map_append, List.append_assoc]
    refine List.Perm.append_left _ ?_
    exact ((hperm.append_right _).map Module.path)

/-- The coordinator counts an analysis. -/
theorem count (h : WhileAnalyzing l files loaded analyses rest received a)
    (hne : a.results.waiting ≠ []) :
    WhileAnalyzing l files loaded analyses rest received (a.step l .receive) := by
  cases hw : a.results.waiting with
  | nil => exact absurd hw hne
  | cons counts more =>
    have htallied := h.tallied
    rw [hw] at htallied
    rw [Analyzing.step_receive l hw]
    exact { h with
      tallied := htallied.count rfl rfl
      pending := by
        have := h.pending
        simp only [hw, List.length_cons] at this ⊢
        omega }

/-- Dropping edges takes back nothing else. -/
theorem releases (h : ModuleGraph.Knows l files loaded a.state.graph) (paths : List Path) :
    ModuleGraph.Releases a.state.graph (a.state.release paths).graph := by
  have hfold (paths : List Path) (g : ModuleGraph) (hg : ModuleGraph.Releases a.state.graph g) :
      ModuleGraph.Releases a.state.graph (paths.foldl (fun g p =>
        if (g.find? p).any (!·.entry) then g.releaseEdges p else g) g) := by
    induction paths generalizing g with
    | nil => exact hg
    | cons p more ih =>
      refine ih _ ?_
      dsimp only
      split
      · exact hg.releaseEdges h.closed p
      · exact hg
  exact hfold paths _ (.refl h.proper)

/-- The batch is done. -/
theorem release (h : WhileAnalyzing l files loaded analyses rest received a)
    (hdone : a.pending = 0) : Between l files loaded analyses rest (l.released batch received a) := by
  have hpending := h.pending
  rw [hdone] at hpending
  have hresults : a.results.waiting = [] := List.length_eq_zero_iff.mp (by omega)
  have hrunning : a.running = [] := List.length_eq_zero_iff.mp (by omega)
  have hwaiting : a.waiting.waiting = [] := List.length_eq_zero_iff.mp (by omega)
  have htallied := h.tallied
  have hwork := h.work
  rw [hresults] at htallied
  rw [hrunning, hwaiting, List.append_nil, List.map_nil, List.append_nil] at hwork
  have hreleased : l.released batch received a = RunState.reach batch.index .released
    (if l.options.releaseEdges then a.state.release received else a.state) := rfl
  rw [hreleased]
  split
  · have hreleases := releases h.knows received
    exact ⟨h.stored, h.handed.of_dispatched hreleases.dispatched, h.knows.releases hreleases,
      h.closed, htallied.congr rfl rfl, h.analyzed, hwork, h.entries, h.rest⟩
  · exact ⟨h.stored, h.handed.of_dispatched rfl, h.knows.of_nodes rfl, h.closed,
      htallied.congr rfl rfl, h.analyzed, hwork, h.entries, h.rest⟩

end WhileAnalyzing

/-! ### The whole run -/

/-- A batch begins. -/
theorem Between.begin {s : RunState MemoryFiles}
    (h : Between l files loaded analyses (batch :: rest) s) :
    WhileClosing l files loaded loaded analyses rest (Closing.ofBatch batch s) := by
  let c₀ : Closing MemoryFiles :=
    { state := RunState.reach batch.index .awaiting
        { s with counts := { s.counts with batches := s.counts.batches + 1 } } }
  obtain ⟨fresh, hr⟩ := Closing.hands_dispatches batch.paths c₀
  have hnodes := Closing.graph_dispatches batch.paths c₀
  have hemitted := Closing.emitted_dispatches batch.paths c₀
  have hbatch : Closing.ofBatch batch s =
      { batch.paths.foldl Closing.dispatch c₀ with
        state := (batch.paths.foldl Closing.dispatch c₀).state.reach batch.index .draining } := rfl
  rw [hbatch]
  generalize batch.paths.foldl Closing.dispatch c₀ = c at hr hnodes hemitted
  have hreceived : c.received = [] := hr.received
  have hresults : c.results.waiting = [] := congrArg Channel.waiting hr.results
  have hrunning : c.running = [] := hr.running
  have hanalyzable : c.analyzable = [] := hr.analyzable
  have hwaiting : c.waiting.waiting = fresh := hr.waiting
  have hmono {k : Path.Key} (hk : k ∈ s.graph.dispatched) : k ∈ c.state.graph.dispatched :=
    (hr.dispatched k).mpr (.inr hk)
  have hhanded : Handed l files (loaded ++ fresh) c.state.graph := by
    refine h.handed.append hr.dispatched hr.nodup hr.new fun p hp => .entry ?_
    exact h.rest batch List.mem_cons_self p (hr.mem p hp)
  refine ⟨?_, ?_, ?_, ?_, fun p hp t ht => ?_, ?_, ?_, ?_, ?_, ?_, h.closed, h.analyzed, h.work,
    fun p hp => ?_, fun b hb => h.rest b (List.mem_cons_of_mem _ hb)⟩
  · simp [hreceived, hresults]
  · simp only [RunState.reach, hr.resources]
    exact h.stored
  · simp only [hrunning, hwaiting, List.append_nil]
    exact hhanded.of_dispatched rfl
  · simp only [hreceived, List.append_nil]
    exact h.knows.of_nodes hnodes
  · simp only [hreceived, List.append_nil] at hp
    exact hmono ((h.handed.dispatched _).mpr (h.closed p hp t ht))
  · simp only [hreceived, List.append_nil]
    exact h.tallied.congr hemitted hr.counts
  · simp [hreceived]
  · simp [hresults]
  · simp [hanalyzable, hreceived]
  · have hzero : c₀.outstanding = 0 := rfl
    simp only [hresults, hrunning, hwaiting, hr.outstanding, hzero, List.length_nil]
  · rcases h.entries p hp with hp | ⟨b, hb, hp⟩
    · exact .inl (hmono ((h.handed.dispatched _).mpr hp))
    · rcases List.mem_cons.mp hb with rfl | hb
      · exact .inl (hr.all p hp)
      · exact .inr ⟨b, hb, hp⟩

theorem Between.sound {s : RunState MemoryFiles} (h : Between l files loaded analyses rest s) :
    Sound l files loaded (.begin s rest) := by
  cases rest with
  | nil => exact ⟨analyses, h⟩
  | cons batch rest => exact ⟨loaded, analyses, h.begin⟩

/-- **Every step of a run keeps the invariant.** -/
theorem Sound.step {phase phase' : Phase MemoryFiles} {more : List Path}
    (h : Sound l files loaded phase) (hstep : l.Step phase more phase') :
    Sound l files (loaded ++ more) phase' := by
  cases hstep with
  | start hw =>
    obtain ⟨prior, analyses, h⟩ := h
    rw [List.append_nil]
    exact ⟨prior, analyses, h.start hw⟩
  | finish hp =>
    obtain ⟨prior, analyses, h⟩ := h
    exact ⟨prior, analyses, h.finish hp⟩
  | receive hw =>
    obtain ⟨prior, analyses, h⟩ := h
    rw [List.append_nil]
    exact ⟨prior, analyses, h.receive hw⟩
  | close hdone =>
    obtain ⟨prior, analyses, h⟩ := h
    rw [List.append_nil]
    exact ⟨analyses, h.close hdone⟩
  | inspect hw =>
    obtain ⟨analyses, h⟩ := h
    rw [List.append_nil]
    exact ⟨analyses, h.start hw⟩
  | conclude hm =>
    obtain ⟨analyses, h⟩ := h
    rw [List.append_nil]
    exact ⟨_, h.finish hm⟩
  | count hw =>
    obtain ⟨analyses, h⟩ := h
    rw [List.append_nil]
    exact ⟨analyses, h.count hw⟩
  | release hdone =>
    obtain ⟨analyses, h⟩ := h
    rw [List.append_nil]
    exact (h.release hdone).sound

/-- **The invariant holds in every state that a run can be in.** -/
theorem Sound.steps {first phase : Phase MemoryFiles} {n : Nat} {more : List Path}
    (hfirst : Sound l files loaded first) (h : l.Steps first n more phase) :
    Sound l files (loaded ++ more) phase := by
  refine h.induct (motive := fun more phase => Sound l files (loaded ++ more) phase) ?_ ?_
  · rwa [List.append_nil]
  · intro more phase some phase' h hstep
    rw [← List.append_assoc]
    exact h.step hstep

end Linter

/-! ### The batches of a run -/

theorem Schedule.mem_chunks {α : Type} {size : Nat} {items : List α} {a : α} :
    (∃ chunk ∈ Schedule.chunks size items, a ∈ chunk) ↔ a ∈ items := by
  induction items using Schedule.chunks.induct size with
  | case1 => simp [Schedule.chunks]
  | case2 first rest ih =>
    rw [Schedule.chunks]
    simp only [List.mem_cons, exists_eq_or_imp, ih]
    constructor
    · rintro ((rfl | ha) | ha)
      · exact .inl rfl
      · exact .inr (List.mem_of_mem_take ha)
      · exact .inr (List.mem_of_mem_drop ha)
    · rintro (rfl | ha)
      · exact .inl (.inl rfl)
      · rw [← List.take_append_drop (size - 1) rest, List.mem_append] at ha
        exact ha.elim (fun ha => .inl (.inr ha)) .inr

/-- The batches have the paths of the set, and no others. -/
theorem mem_schedule {paths : PathSet} {concurrency multiplier : UInt64} {ordering : BatchOrder}
    {p : Path} : (∃ b ∈ schedule paths concurrency multiplier ordering, p ∈ b.paths) ↔
      p ∈ paths.paths := by
  have horder : p ∈ Schedule.order ordering paths ↔ p ∈ paths.paths := by
    cases ordering with
    | depthFirst => exact (List.mergeSort_perm _ _).mem_iff
    | insertion => rfl
  rw [← horder, ← @Schedule.mem_chunks Path (Schedule.batchSize concurrency multiplier).toNat]
  unfold schedule
  constructor
  · rintro ⟨b, hb, hp⟩
    obtain ⟨x, hx, rfl⟩ := List.mem_map.mp hb
    exact ⟨x.1, List.fst_mem_of_mem_zipIdx hx, hp⟩
  · rintro ⟨chunk, hchunk, hp⟩
    obtain ⟨index, hindex⟩ := List.getElem?_of_mem hchunk
    exact ⟨⟨index, chunk⟩, List.mem_map.mpr ⟨(chunk, index),
      List.mk_mem_zipIdx_iff_getElem?.mpr hindex, rfl⟩, hp⟩

namespace LintSession

variable (s : LintSession)

/-- Before the first batch nothing has happened. -/
theorem between_start (paths : List Path) (r : Resources MemoryFiles) :
    Linter.Between (s.linterOf paths) r.files [] [] (s.batches paths)
      ({ resources := r } : RunState MemoryFiles) where
  stored := .refl r.files
  handed := .empty
  knows := .empty
  closed := by simp [ModuleGraph.ClosedUnder]
  tallied := .start r
  analyzed := by simp
  work := by simp
  entries _ hp := .inr (mem_schedule.mpr hp)
  rest b hb _ hp := mem_schedule.mp ⟨b, hb, hp⟩

/-- The invariant holds at the beginning of a run. -/
theorem sound_start (paths : List Path) (r : Resources MemoryFiles) :
    Linter.Sound (s.linterOf paths) r.files [] (s.start paths r) :=
  (s.between_start paths r).sound

end LintSession

end ScriptLint
