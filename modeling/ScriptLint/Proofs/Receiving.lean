/-
What the coordinator does with a module.

Receiving a module changes its own node of the graph, adds nodes for its targets,
and hands out those targets that were not handed out before in the run:

* **`Closing.Hands`** — paths are handed out, each at most once;
* **`Closing.hands_ofBatch`** — a batch begins by handing out its paths;
* **`Closing.takes_receive`** — what receiving a module does to the graph, to the
  problems and to the paths that wait.
-/
import ScriptLint.Proofs.Links

namespace ScriptLint

namespace Closing

variable {σ : Type}

/-! ### Handing out -/

/-- Of the given paths, the fresh ones were handed out and the others had been. -/
structure Hands (paths fresh : List Path) (c c' : Closing σ) : Prop where
  resources : c'.state.resources = c.state.resources
  stages : c'.state.stages = c.state.stages
  counts : c'.state.counts =
    { c.state.counts with dispatched := c.state.counts.dispatched + fresh.length }
  waiting : c'.waiting.waiting = c.waiting.waiting ++ fresh
  outstanding : c'.outstanding = c.outstanding + fresh.length
  running : c'.running = c.running
  results : c'.results = c.results
  received : c'.received = c.received
  analyzable : c'.analyzable = c.analyzable
  dispatched : ∀ k, k ∈ c'.state.graph.dispatched ↔
    k ∈ fresh.map Path.key ∨ k ∈ c.state.graph.dispatched
  mem : ∀ p ∈ fresh, p ∈ paths
  nodup : (fresh.map Path.key).Nodup
  new : ∀ p ∈ fresh, p.key ∉ c.state.graph.dispatched
  all : ∀ p ∈ paths, p.key ∈ c'.state.graph.dispatched

namespace Hands

variable {c c' c'' : Closing σ}

theorem refl (c : Closing σ) : Hands [] [] c c where
  resources := rfl
  stages := rfl
  counts := rfl
  waiting := by simp
  outstanding := by simp
  running := rfl
  results := rfl
  received := rfl
  analyzable := rfl
  dispatched := by simp
  mem := by simp
  nodup := by simp
  new := by simp
  all := by simp

theorem trans {paths paths' fresh fresh' : List Path} (h : Hands paths fresh c c')
    (h' : Hands paths' fresh' c' c'') : Hands (paths ++ paths') (fresh ++ fresh') c c'' where
  resources := h'.resources.trans h.resources
  stages := h'.stages.trans h.stages
  counts := by rw [h'.counts, h.counts, List.length_append, Nat.add_assoc]
  waiting := by rw [h'.waiting, h.waiting, List.append_assoc]
  outstanding := by rw [h'.outstanding, h.outstanding, List.length_append, Nat.add_assoc]
  running := h'.running.trans h.running
  results := h'.results.trans h.results
  received := h'.received.trans h.received
  analyzable := h'.analyzable.trans h.analyzable
  dispatched k := by
    rw [h'.dispatched, h.dispatched, List.map_append, List.mem_append, or_left_comm, or_assoc]
  mem p hp := by
    rcases List.mem_append.mp hp with hp | hp
    · exact List.mem_append_left _ (h.mem p hp)
    · exact List.mem_append_right _ (h'.mem p hp)
  nodup := by
    rw [List.map_append]
    refine h.nodup.append h'.nodup fun k hk hk' => ?_
    obtain ⟨p, hp, rfl⟩ := List.mem_map.mp hk'
    exact h'.new p hp ((h.dispatched _).mpr (.inl hk))
  new p hp := by
    rcases List.mem_append.mp hp with hp | hp
    · exact h.new p hp
    · exact fun hk => h'.new p hp ((h.dispatched _).mpr (.inr hk))
  all p hp := by
    rcases List.mem_append.mp hp with hp | hp
    · exact (h'.dispatched _).mpr (.inr (h.all p hp))
    · exact h'.all p hp

end Hands

/-- Handing out one path. -/
theorem hands_dispatch (c : Closing σ) (p : Path) :
    ∃ fresh, Hands [p] fresh c (c.dispatch p) := by
  unfold dispatch
  split
  · rename_i hp
    have hmem : p.key ∈ c.state.graph.dispatched := Std.TreeSet.contains_iff_mem.mp hp
    exact ⟨[], { Hands.refl c with mem := by simp, all := by simpa using hmem }⟩
  · rename_i hp
    have hmem : p.key ∉ c.state.graph.dispatched := fun h =>
      hp (Std.TreeSet.contains_iff_mem.mpr h)
    refine ⟨[p], rfl, rfl, rfl, rfl, rfl, rfl, rfl, rfl, rfl, fun k => ?_, by simp, by simp,
      by simpa using hmem, ?_⟩
    · simp only [ModuleGraph.dispatch, Std.TreeSet.mem_insert, Std.LawfulEqOrd.compare_eq_iff_eq,
        List.map_cons, List.map_nil, List.mem_singleton, eq_comm (a := k)]
    · simp [ModuleGraph.dispatch]

theorem graph_dispatch (c : Closing σ) (p : Path) :
    (c.dispatch p).state.graph.nodes = c.state.graph.nodes := by
  unfold dispatch
  split <;> rfl

theorem emitted_dispatch (c : Closing σ) (p : Path) :
    (c.dispatch p).state.emitted = c.state.emitted := by
  unfold dispatch
  split <;> rfl

theorem hands_dispatches (paths : List Path) (c : Closing σ) :
    ∃ fresh, Hands paths fresh c (paths.foldl dispatch c) := by
  induction paths generalizing c with
  | nil => exact ⟨[], .refl c⟩
  | cons p rest ih =>
    obtain ⟨fresh, h⟩ := hands_dispatch c p
    obtain ⟨fresh', h'⟩ := ih (c.dispatch p)
    exact ⟨fresh ++ fresh', h.trans h'⟩

theorem graph_dispatches (paths : List Path) (c : Closing σ) :
    (paths.foldl dispatch c).state.graph.nodes = c.state.graph.nodes := by
  induction paths generalizing c with
  | nil => rfl
  | cons p rest ih => rw [List.foldl_cons, ih, graph_dispatch]

theorem emitted_dispatches (paths : List Path) (c : Closing σ) :
    (paths.foldl dispatch c).state.emitted = c.state.emitted := by
  induction paths generalizing c with
  | nil => rfl
  | cons p rest ih => rw [List.foldl_cons, ih, emitted_dispatch]

/-! ### Receiving -/

/-- The coordinator takes something of the module of `p`: its node is changed by `f`,
the problems are reported, and of the targets the fresh ones are handed out. -/
structure Takes (p : Path) (f : Node → Node) (targets fresh : List Path)
    (problems : List Diagnostic) (c c' : Closing σ) : Prop where
  edits : ModuleGraph.Edits p f targets c.state.graph c'.state.graph
  emitted : c'.state.emitted = c.state.emitted ++ problems
  hands : Hands targets fresh c c'

namespace Takes

variable {p : Path} {c c' c'' : Closing σ}

theorem refl (p : Path) (c : Closing σ) : Takes p id [] [] [] c c where
  edits := .refl p _
  emitted := by simp
  hands := .refl c

theorem trans {f f' : Node → Node} {targets targets' fresh fresh' : List Path}
    {problems problems' : List Diagnostic} (h : Takes p f targets fresh problems c c')
    (h' : Takes p f' targets' fresh' problems' c' c'') :
    Takes p (f' ∘ f) (targets ++ targets') (fresh ++ fresh') (problems ++ problems') c c'' where
  edits := h.edits.trans h'.edits
  emitted := by rw [h'.emitted, h.emitted, List.append_assoc]
  hands := h.hands.trans h'.hands

theorem congr {f f' : Node → Node} {targets targets' fresh : List Path}
    {problems problems' : List Diagnostic} (h : Takes p f targets fresh problems c c')
    (hf : ∀ n, f n = f' n) (ht : targets = targets') (hproblems : problems = problems') :
    Takes p f' targets' fresh problems' c c' := by
  obtain rfl : f = f' := funext hf
  exact ht ▸ hproblems ▸ h

/-- The node of the module stays in the graph. -/
theorem known {f : Node → Node} {targets fresh : List Path} {problems : List Diagnostic}
    (h : Takes p f targets fresh problems c c') (hp : p.key ∈ c.state.graph.nodes) :
    p.key ∈ c'.state.graph.nodes :=
  (h.edits.mem _).mpr (.inr hp)

end Takes

theorem hands_of_graph {c : Closing σ} {g : ModuleGraph}
    (hg : g.dispatched = c.state.graph.dispatched) :
    Hands [] [] c { c with state := { c.state with graph := g } } :=
  { Hands.refl c with dispatched := by simp [hg], all := by simp }

/-- A change of the graph alone. -/
theorem takes_of_edits {p : Path} {f : Node → Node} {c : Closing σ} {g : ModuleGraph}
    (h : ModuleGraph.Edits p f [] c.state.graph g) (hg : g.dispatched = c.state.graph.dispatched) :
    Takes p f [] [] [] c { c with state := { c.state with graph := g } } where
  edits := h
  emitted := by simp
  hands := hands_of_graph hg

theorem takes_receiveResolution {p : Path} {c : Closing σ} (hp : p.key ∈ c.state.graph.nodes)
    (r : Resolution) :
    ∃ fresh, Takes p (Node.withEdges r.edge?.toList) (r.edge?.toList.map Edge.target) fresh []
      c (receiveResolution p c r) := by
  unfold receiveResolution Resolution.edge?
  cases r.outcome with
  | error e =>
    have hnote := (ModuleGraph.edits_addUnresolved c.state.graph p r.specifier e).drop
      (by simpa using hp)
    exact ⟨[], (takes_of_edits hnote rfl).congr (fun n => n.withEdges_nil.symm) rfl rfl⟩
  | ok t =>
    have hdispatched : (c.state.graph.addEdge p r.specifier t).dispatched =
        c.state.graph.dispatched := by
      unfold ModuleGraph.addEdge
      simp only
      split <;> rfl
    have hedge : ModuleGraph.Edits p (Node.withEdges [⟨r.specifier, t⟩]) [t] c.state.graph
        (c.state.graph.addEdge p r.specifier t) :=
      (ModuleGraph.edits_addEdge c.state.graph p r.specifier t).congr (fun _ => rfl)
        (by simpa using .inr hp) (by simp)
    obtain ⟨fresh, hhands⟩ := hands_dispatch
      { c with state := { c.state with graph := c.state.graph.addEdge p r.specifier t } } t
    exact ⟨fresh, hedge.of_nodes (graph_dispatch _ t), by rw [emitted_dispatch]; simp,
      (hands_of_graph hdispatched).trans hhands⟩

theorem takes_receiveResolutions {p : Path} {c : Closing σ} (hp : p.key ∈ c.state.graph.nodes)
    (rs : List Resolution) :
    ∃ fresh, Takes p (Node.withEdges (rs.filterMap Resolution.edge?)) ((rs.filterMap Resolution.edge?).map Edge.target)
      fresh [] c (rs.foldl (receiveResolution p) c) := by
  induction rs generalizing c with
  | nil => exact ⟨[], (Takes.refl p c).congr (fun n => n.withEdges_nil.symm) rfl rfl⟩
  | cons r rest ih =>
    obtain ⟨fresh, h⟩ := takes_receiveResolution hp r
    obtain ⟨fresh', h'⟩ := ih (h.known hp)
    have hcons : (r :: rest).filterMap Resolution.edge? = r.edge?.toList ++ rest.filterMap Resolution.edge? := by
      rw [List.filterMap_cons]
      cases r.edge? <;> rfl
    refine ⟨fresh ++ fresh', (h.trans h').congr (fun n => ?_) ?_ rfl⟩
    · rw [hcons, Node.withEdges_append]
      rfl
    · rw [hcons, List.map_append]

end Closing

/-- A node with one more segment of its module. -/
def Node.withRecord (n : Node) : Except Diagnostic Extract → Node
  | .error _ => n
  | .ok e =>
    Node.withEdges (recordEdges (.ok e)) { n with records := n.records ++ [⟨e.interface, []⟩] }

/-- The targets of a segment. -/
def recordTargets (o : Except Diagnostic Extract) : List Path := (recordEdges o).map Edge.target

/-- The problem of a segment. -/
def recordProblems : Except Diagnostic Extract → List Diagnostic
  | .error d => [d]
  | .ok _ => []

namespace Closing

theorem takes_receiveRecord {p : Path} {c : Closing σ} (hp : p.key ∈ c.state.graph.nodes)
    (o : Except Diagnostic Extract) :
    ∃ fresh, Takes p (fun n => n.withRecord o) (recordTargets o) fresh (recordProblems o) c
      (receiveRecord p c o) := by
  cases o with
  | error d => exact ⟨[], .refl p _, rfl, { Hands.refl c with
      all := by simp [recordTargets, recordEdges] }⟩
  | ok e =>
    have hrecord := (ModuleGraph.edits_addRecord c.state.graph p e.interface).drop
      (by simpa using hp)
    have htakes := takes_of_edits (c := c) hrecord rfl
    obtain ⟨fresh, h⟩ := takes_receiveResolutions (htakes.known hp) e.resolutions
    refine ⟨_, (htakes.trans h).congr (fun n => ?_) rfl rfl⟩
    rfl

theorem takes_receiveRecords {p : Path} {c : Closing σ} (hp : p.key ∈ c.state.graph.nodes)
    (os : List (Except Diagnostic Extract)) :
    ∃ fresh, Takes p (fun n => os.foldl Node.withRecord n) (os.flatMap recordTargets) fresh
      (os.flatMap recordProblems) c (os.foldl (receiveRecord p) c) := by
  induction os generalizing c with
  | nil => exact ⟨[], .refl p c⟩
  | cons o rest ih =>
    obtain ⟨fresh, h⟩ := takes_receiveRecord hp o
    obtain ⟨fresh', h'⟩ := ih (h.known hp)
    exact ⟨fresh ++ fresh', (h.trans h').congr (fun _ => rfl) rfl rfl⟩

end Closing

namespace Module

variable (m : Module)

theorem targets_eq : m.targets = m.records.flatMap recordTargets := by
  rw [targets, edges, List.map_flatMap]
  rfl

theorem diagnostics_eq : m.diagnostics = m.records.flatMap recordProblems := by
  rw [diagnostics]
  generalize m.records = os
  induction os with
  | nil => rfl
  | cons o rest ih =>
    rw [List.filterMap_cons, List.flatMap_cons, ← ih]
    cases o <;> rfl

/-- Taking the segments one by one gives the node of the module. -/
theorem foldl_withRecord (os : List (Except Diagnostic Extract)) (n : Node) :
    os.foldl Node.withRecord n = Node.withEdges (os.flatMap recordEdges)
      { n with records := n.records ++ (os.filterMap recordInterface?).map fun i => ⟨i, []⟩ } := by
  induction os generalizing n with
  | nil => simp [Node.withEdges_nil]
  | cons o rest ih =>
    rw [List.foldl_cons, ih, List.filterMap_cons, List.flatMap_cons, Node.withEdges_append]
    cases o with
    | error d => simp [Node.withRecord, recordInterface?, recordEdges, Node.withEdges_nil]
    | ok e => simp [Node.withRecord, recordInterface?, Node.withEdges]

end Module

namespace Closing

variable {σ : Type}

/-- The node of a module after it was received. -/
def absorb (m : Module) (n : Node) : Node :=
  Node.withEdges m.edges { n with
    entry := n.entry || m.entry
    records := n.records ++ m.interfaces.map fun i => ⟨i, []⟩
    failed := n.failed || m.failed }

/-- The coordinator received a module. -/
structure Receives (m : Module) (fresh : List Path) (c c' : Closing σ) : Prop where
  edits : ModuleGraph.Edits m.path (absorb m) (m.path :: m.targets) c.state.graph c'.state.graph
  emitted : c'.state.emitted = c.state.emitted ++ m.diagnostics
  resources : c'.state.resources = c.state.resources
  stages : c'.state.stages = c.state.stages
  counts : c'.state.counts = count m
    { c.state.counts with dispatched := c.state.counts.dispatched + fresh.length }
  waiting : c'.waiting.waiting = c.waiting.waiting ++ fresh
  outstanding : c'.outstanding = c.outstanding + fresh.length
  running : c'.running = c.running
  results : c'.results = c.results
  received : c'.received = c.received ++ [m.path]
  analyzable : c'.analyzable = if m.content.isSome then c.analyzable ++ [m] else c.analyzable
  dispatched : ∀ k, k ∈ c'.state.graph.dispatched ↔
    k ∈ fresh.map Path.key ∨ k ∈ c.state.graph.dispatched
  mem : ∀ p ∈ fresh, p ∈ m.targets
  nodup : (fresh.map Path.key).Nodup
  new : ∀ p ∈ fresh, p.key ∉ c.state.graph.dispatched
  all : ∀ p ∈ m.targets, p.key ∈ c'.state.graph.dispatched

theorem edits_enter (m : Module) (g : ModuleGraph) :
    ModuleGraph.Edits m.path (fun n => { n with entry := n.entry || m.entry }) [m.path] g
      (enter m g) := by
  unfold enter
  split
  · rename_i h
    refine ((g.edits_addModule m.path m.path).trans (ModuleGraph.edits_markEntry _ m.path)).congr
      (fun n => by simp [h]) (fun q hq => .inl (by simpa using hq)) (by simp)
  · rename_i h
    exact (g.edits_addModule m.path m.path).congr (fun n => by simp [h]) (fun q hq => .inl hq)
      fun q hq => hq

theorem edits_conclude {m : Module} {g : ModuleGraph} (hm : m.path.key ∈ g.nodes) :
    ModuleGraph.Edits m.path (fun n => { n with failed := n.failed || m.failed }) [] g
      (conclude m g) := by
  unfold conclude
  split
  · rename_i h
    exact ((g.edits_markFailed m.path).drop (by simpa using hm)).congr (fun n => by simp [h])
      (fun q hq => .inl hq) fun q hq => hq
  · rename_i h
    exact (ModuleGraph.Edits.refl m.path g).congr (fun n => by simp [h]) (fun q hq => .inl hq)
      fun q hq => hq

theorem dispatched_enter (m : Module) (g : ModuleGraph) :
    (enter m g).dispatched = g.dispatched := by
  unfold enter
  split <;> rfl

theorem dispatched_conclude (m : Module) (g : ModuleGraph) :
    (conclude m g).dispatched = g.dispatched := by
  unfold conclude
  split <;> rfl

/-- **What receiving a module does.** -/
theorem exists_receives (m : Module) (c : Closing σ) :
    ∃ fresh, Receives m fresh c (receive m c) := by
  have henter := edits_enter m c.state.graph
  have hmem : m.path.key ∈ (enter m c.state.graph).nodes :=
    (henter.mem _).mpr (.inl ⟨m.path, List.mem_singleton_self _, rfl⟩)
  obtain ⟨fresh, h⟩ := takes_receiveRecords
    (c := { c with state := { c.state with graph := enter m c.state.graph } }) hmem m.records
  have hconclude := edits_conclude (m := m) (h.known hmem)
  refine ⟨fresh, ?_, ?_, h.hands.resources, h.hands.stages, ?_, h.hands.waiting,
    h.hands.outstanding, h.hands.running, h.hands.results, ?_, ?_, fun k => ?_, ?_, h.hands.nodup,
    fun p hp => ?_, fun p hp => ?_⟩
  · refine ((henter.trans h.edits).trans hconclude).congr (fun n => ?_) (fun q hq => .inl ?_)
      fun q hq => ?_
    · simp only [Function.comp_apply, Module.foldl_withRecord]
      rfl
    · rw [Module.targets_eq]
      simpa using hq
    · rw [Module.targets_eq] at hq
      simpa using hq
  · rw [Module.diagnostics_eq]
    exact h.emitted
  · exact congrArg (count m) h.hands.counts
  · exact congrArg (· ++ [m.path]) h.hands.received
  · show (if m.content.isSome then _ ++ [m] else _) = _
    rw [h.hands.analyzable]
  · show k ∈ (conclude m _).dispatched ↔ _
    rw [dispatched_conclude, h.hands.dispatched, ← dispatched_enter m c.state.graph]
  · rw [Module.targets_eq]
    exact h.hands.mem
  · have := h.hands.new p hp
    rw [dispatched_enter] at this
    exact this
  · show p.key ∈ (conclude m _).dispatched
    rw [dispatched_conclude]
    rw [Module.targets_eq] at hp
    exact h.hands.all p hp

/-- The first module received under a key makes its node. -/
theorem absorb_blank (m : Module) : absorb m Node.blank = m.node := by
  simp [absorb, Node.blank, Node.withEdges, Module.node, Module.targets]

end Closing

end ScriptLint
