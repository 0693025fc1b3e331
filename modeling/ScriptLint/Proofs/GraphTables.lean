/-
A graph as separate tables.

The nodes of a graph hold their successors and predecessors.  The same graph can be kept in
three tables and a counter, each of which a change has to write for itself: the edges that each
module lists, its successors, and its predecessors, where an entry that is asked for and missing
is made.  Such tables never get out of step: all three have entries for the same modules, those
of the graph, and the entries are what the nodes of the graph hold.

* **`GraphTables.change`** — what a change writes into each table;
* **`GraphTables.Even`** — the tables have the same keys;
* **`GraphTables.Shows`** — the tables hold what a graph holds;
* **`GraphTables.follows_built`** — they do, whatever was done to both of them;
* **`ModuleGraph.Sound`**, **`ModuleGraph.built_sound`** — what holds of a graph and its tables
  after any changes.
-/
import Mathlib.Algebra.GroupWithZero.Nat
import Mathlib.Algebra.Order.BigOperators.Group.Finset
import ScriptLint.Proofs.GraphChanges

namespace ScriptLint

open ScriptLint.Path

/-! ### Tables -/

/-- A graph in three tables: the edges that each module lists, its successors, and its
predecessors; and the number of distinct edges. -/
structure GraphTables where
  nodes : Std.TreeMap Key (List Edge) := ∅
  successors : Std.TreeMap Key Path.Set := ∅
  predecessors : Std.TreeMap Key Path.Set := ∅
  edgeCount : Nat := 0

/-- A table with one entry changed.  If the entry is missing, it is made first. -/
def touch {α : Type} (table : Std.TreeMap Key α) (k : Key) (missing : α) (f : α → α) :
    Std.TreeMap Key α :=
  table.insert k (f (table.getD k missing))

section

variable {α : Type} (table : Std.TreeMap Key α) (k k' : Key) (missing : α) (f : α → α)

@[simp] theorem mem_touch : k' ∈ touch table k missing f ↔ k = k' ∨ k' ∈ table := by
  simp [touch, Std.TreeMap.mem_insert]

theorem mem_touch_of_mem (h : k ∈ table) : k' ∈ touch table k missing f ↔ k' ∈ table := by
  rw [mem_touch]
  exact ⟨fun hk => hk.elim (fun hk => hk ▸ h) id, .inr⟩

@[simp] theorem getD_touch : (touch table k missing f).getD k' missing =
    if k = k' then f (table.getD k missing) else table.getD k' missing := by
  rw [touch, Std.TreeMap.getD_insert]
  simp only [Std.LawfulEqOrd.compare_eq_iff_eq]

end

namespace GraphTables

variable (t : GraphTables)

/-- What the tables hold about a module. -/
def joint (k : Key) : Joint := ⟨t.nodes.getD k [], t.successors.getD k ∅, t.predecessors.getD k ∅⟩

/-- The tables with entries for a module. -/
def addModule (p : Path) : GraphTables :=
  if t.nodes.contains p.key then t
  else
    { t with
      nodes := t.nodes.insert p.key []
      successors := touch t.successors p.key ∅ id
      predecessors := touch t.predecessors p.key ∅ id }

/-- An edge is written at the module that it leaves. -/
def leave (a : Path) (specifier : Bytes) (b : Path) : GraphTables :=
  { t with
    nodes := touch t.nodes a.key [] (· ++ [⟨specifier, b⟩])
    successors := touch t.successors a.key ∅ (Path.Set.add b) }

/-- A new edge is written at the module that it enters, and counted. -/
def arrive (a b : Path) : GraphTables :=
  { t with
    predecessors := touch t.predecessors b.key ∅ (Path.Set.add a)
    edgeCount := t.edgeCount + 1 }

/-- An edge between two modules. -/
def addEdge (a : Path) (specifier : Bytes) (b : Path) : GraphTables :=
  let t := (t.addModule b).addModule a
  if (t.successors.getD a.key ∅).contains b.key then t.leave a specifier b
  else (t.leave a specifier b).arrive a b

/-- An edge is taken back at the module that it enters, and not counted any longer. -/
def dropPredecessor (a b : Path) : GraphTables :=
  { t with
    predecessors := touch t.predecessors b.key ∅ fun s => s.erase a.key
    edgeCount := t.edgeCount - 1 }

/-- A module lists no edges, and has no successors. -/
def clear (p : Path) : GraphTables :=
  { t with
    nodes := touch t.nodes p.key [] fun _ => []
    successors := touch t.successors p.key ∅ fun _ => ∅ }

/-- The edges of a module are taken back. -/
def releaseEdges (p : Path) : GraphTables :=
  if t.nodes.contains p.key then
    ((t.successors.getD p.key ∅).paths.foldl (fun t b => t.dropPredecessor p b) t).clear p
  else t

/-- The tables after a change of the graph. -/
def change : ModuleGraph.Change → GraphTables
  | .dispatch _ | .link _ => t
  | .addModule p | .addRecord p _ | .addUnresolved p _ _ | .markFailed p | .markEntry p =>
    t.addModule p
  | .addEdge a specifier b => t.addEdge a specifier b
  | .releaseEdges p => t.releaseEdges p

/-- The tables that some changes make, one after the other. -/
def built (changes : List ModuleGraph.Change) : GraphTables := changes.foldl change {}

/-! ### What changes write -/

variable {t}

theorem mem_nodes_addModule (p : Path) (k : Key) :
    k ∈ (t.addModule p).nodes ↔ p.key = k ∨ k ∈ t.nodes := by
  rw [addModule]
  split
  · rename_i hp
    refine ⟨.inr, fun hk => hk.elim (fun hk => ?_) id⟩
    exact hk ▸ Std.TreeMap.contains_iff_mem.mp hp
  · simp [Std.TreeMap.mem_insert]

theorem joint_addModule (p : Path) (k : Key) : (t.addModule p).joint k = t.joint k := by
  rw [addModule]
  split
  · rfl
  · rename_i hp
    have hnew : t.nodes.getD p.key [] = [] :=
      Std.TreeMap.getD_eq_fallback fun hk => hp (Std.TreeMap.contains_iff_mem.mpr hk)
    simp only [joint, getD_touch, Std.TreeMap.getD_insert, Std.LawfulEqOrd.compare_eq_iff_eq]
    by_cases hk : p.key = k
    · subst hk
      simp [hnew]
    · simp [hk]

theorem edgeCount_addModule (p : Path) : (t.addModule p).edgeCount = t.edgeCount := by
  rw [addModule]
  split <;> rfl

theorem joint_leave (a : Path) (specifier : Bytes) (b : Path) (k : Key) :
    (t.leave a specifier b).joint k =
      (if a.key = k then Joint.leave specifier b else id) (t.joint k) := by
  simp only [joint, leave, getD_touch]
  by_cases hk : a.key = k
  · subst hk
    simp [Joint.leave]
  · simp [hk]

theorem joint_arrive (a b : Path) (k : Key) :
    (t.arrive a b).joint k = (if b.key = k then Joint.arrive a else id) (t.joint k) := by
  simp only [joint, arrive, getD_touch]
  by_cases hk : b.key = k
  · subst hk
    simp [Joint.arrive]
  · simp [hk]

/-- An edge is new if its target is no successor yet. -/
theorem contains_successors (a b : Path) :
    (((t.addModule b).addModule a).successors.getD a.key ∅).contains b.key = true ↔
      b.key ∈ (t.joint a.key).successors := by
  rw [Std.TreeMap.contains_iff_mem, ← joint_addModule b, ← joint_addModule a]
  rfl

theorem joint_addEdge (a : Path) (specifier : Bytes) (b : Path) :
    (t.addEdge a specifier b).joint = Joint.withEdge a specifier b t.joint := by
  funext k
  have hjoint (k : Key) : ((t.addModule b).addModule a).joint k = t.joint k := by
    rw [joint_addModule, joint_addModule]
  rw [addEdge, Joint.withEdge]
  by_cases hb : b.key ∈ (t.joint a.key).successors
  · rw [if_pos ((contains_successors a b).mpr hb), joint_leave, hjoint]
    simp [hb]
  · rw [if_neg (hb ∘ (contains_successors a b).mp), joint_arrive, joint_leave, hjoint]
    simp only [hb, not_false_eq_true, and_true]

theorem edgeCount_addEdge (a : Path) (specifier : Bytes) (b : Path) :
    (t.addEdge a specifier b).edgeCount =
      t.edgeCount + if b.key ∈ (t.joint a.key).successors then 0 else 1 := by
  rw [addEdge]
  by_cases hb : b.key ∈ (t.joint a.key).successors
  · rw [if_pos ((contains_successors a b).mpr hb), if_pos hb]
    simp only [leave, edgeCount_addModule, Nat.add_zero]
  · rw [if_neg (hb ∘ (contains_successors a b).mp), if_neg hb]
    simp only [arrive, leave, edgeCount_addModule]

theorem joint_clear (p : Path) (k : Key) :
    (t.clear p).joint k = (if p.key = k then Joint.release else id) (t.joint k) := by
  simp only [joint, clear, getD_touch]
  by_cases hk : p.key = k
  · simp [hk, Joint.release]
  · simp [hk]

theorem joint_dropPredecessor (a b : Path) (k : Key) :
    (t.dropPredecessor a b).joint k = if b.key = k then (t.joint k).forget a else t.joint k := by
  simp only [joint, dropPredecessor, getD_touch]
  by_cases hk : b.key = k
  · subst hk
    simp [Joint.forget]
  · simp [hk]

/-- What edges are taken back at is touched, and nothing else. -/
theorem dropPredecessors_eq (a : Path) (paths : List Path) :
    ∃ predecessors, (∀ k, k ∈ predecessors ↔ k ∈ paths.map key ∨ k ∈ t.predecessors) ∧
      paths.foldl (fun t b => t.dropPredecessor a b) t =
        { t with predecessors, edgeCount := t.edgeCount - paths.length } := by
  induction paths generalizing t with
  | nil => exact ⟨t.predecessors, by simp, rfl⟩
  | cons b rest ih =>
    obtain ⟨predecessors, hmem, heq⟩ := ih (t := t.dropPredecessor a b)
    refine ⟨predecessors, fun k => ?_, ?_⟩
    · rw [hmem, List.map_cons, List.mem_cons, dropPredecessor, mem_touch, or_left_comm, or_assoc,
        eq_comm]
    · rw [List.foldl_cons, heq, dropPredecessor, List.length_cons, Nat.add_comm, ← Nat.sub_sub]

/-- Of a module that is there the edges are taken back at its successors. -/
theorem releaseEdges_eq {p : Path} (hp : p.key ∈ t.nodes) :
    t.releaseEdges p =
      ((t.joint p.key).successors.paths.foldl (fun t b => t.dropPredecessor p b) t).clear p :=
  if_pos (Std.TreeMap.contains_iff_mem.mpr hp)

theorem releaseEdges_of_not_mem {p : Path} (hp : p.key ∉ t.nodes) : t.releaseEdges p = t :=
  if_neg (hp ∘ Std.TreeMap.contains_iff_mem.mp)

/-! ### Tables in step -/

/-- The tables have the same keys. -/
structure Even (t : GraphTables) : Prop where
  successors : ∀ k, k ∈ t.successors ↔ k ∈ t.nodes
  predecessors : ∀ k, k ∈ t.predecessors ↔ k ∈ t.nodes

/-- The tables hold what a graph holds about edges. -/
structure Shows (t : GraphTables) (g : ModuleGraph) : Prop where
  nodes : ∀ k, k ∈ t.nodes ↔ k ∈ g.nodes
  joint : t.joint = g.joint
  edgeCount : t.edgeCount = g.edgeCount

namespace Even

theorem addModule (h : t.Even) (p : Path) : (t.addModule p).Even := by
  rw [GraphTables.addModule]
  split
  · exact h
  · refine ⟨fun k => ?_, fun k => ?_⟩
    · rw [mem_touch, h.successors, Std.TreeMap.mem_insert, Std.LawfulEqOrd.compare_eq_iff_eq]
    · rw [mem_touch, h.predecessors, Std.TreeMap.mem_insert, Std.LawfulEqOrd.compare_eq_iff_eq]

theorem addEdge (h : t.Even) (a : Path) (specifier : Bytes) (b : Path) :
    (t.addEdge a specifier b).Even := by
  obtain ⟨t', ht'⟩ : ∃ t', t' = (t.addModule b).addModule a := ⟨_, rfl⟩
  have heven : t'.Even := ht' ▸ (h.addModule b).addModule a
  have ha : a.key ∈ t'.nodes := by simp [ht', mem_nodes_addModule]
  have hb : b.key ∈ t'.nodes := by simp [ht', mem_nodes_addModule]
  have hleave : (t'.leave a specifier b).Even := by
    refine ⟨fun k => ?_, fun k => ?_⟩
    · rw [leave, mem_touch_of_mem _ _ _ _ _ ((heven.successors _).mpr ha),
        mem_touch_of_mem _ _ _ _ _ ha, heven.successors]
    · rw [leave, mem_touch_of_mem _ _ _ _ _ ha, heven.predecessors]
  rw [GraphTables.addEdge, ← ht']
  split
  · exact hleave
  · have hb : b.key ∈ (t'.leave a specifier b).predecessors := (heven.predecessors _).mpr hb
    refine ⟨hleave.successors, fun k => ?_⟩
    rw [arrive, mem_touch_of_mem _ _ _ _ _ hb]
    exact hleave.predecessors k

theorem releaseEdges (h : t.Even) (p : Path)
    (hknown : ∀ b ∈ (t.joint p.key).successors.paths, b.key ∈ t.nodes) :
    (t.releaseEdges p).Even := by
  by_cases hp : p.key ∈ t.nodes
  · obtain ⟨predecessors, hmem, heq⟩ :=
      dropPredecessors_eq (t := t) p (t.joint p.key).successors.paths
    rw [releaseEdges_eq hp, heq]
    refine ⟨fun k => ?_, fun k => ?_⟩
    · rw [clear, mem_touch_of_mem _ _ _ _ _ ((h.successors _).mpr hp),
        mem_touch_of_mem _ _ _ _ _ hp, h.successors]
    · rw [clear, hmem, mem_touch_of_mem _ _ _ _ _ hp, h.predecessors]
      refine or_iff_right_of_imp fun hk => ?_
      obtain ⟨b, hb, rfl⟩ := List.mem_map.mp hk
      exact hknown b hb
  · rw [releaseEdges_of_not_mem hp]
    exact h

end Even

/-- A module without a node has no entry in any table. -/
theorem Even.joint_of_not_mem (h : t.Even) {k : Key} (hk : k ∉ t.nodes) : t.joint k = {} := by
  rw [joint, Std.TreeMap.getD_eq_fallback hk,
    Std.TreeMap.getD_eq_fallback (mt (h.successors k).mp hk),
    Std.TreeMap.getD_eq_fallback (mt (h.predecessors k).mp hk)]

theorem mem_nodes_releaseEdges (p : Path) (k : Key) :
    k ∈ (t.releaseEdges p).nodes ↔ k ∈ t.nodes := by
  by_cases hp : p.key ∈ t.nodes
  · obtain ⟨predecessors, -, heq⟩ := dropPredecessors_eq (t := t) p (t.joint p.key).successors.paths
    rw [releaseEdges_eq hp, heq]
    exact mem_touch_of_mem _ _ _ _ _ hp
  · rw [releaseEdges_of_not_mem hp]

theorem joint_releaseEdges (h : t.Even) (p : Path)
    (hproper : (t.joint p.key).successors.Proper) :
    (t.releaseEdges p).joint = Joint.withoutEdges p t.joint := by
  by_cases hp : p.key ∈ t.nodes
  · have hkeys : (t.joint p.key).successors.paths.map key = (t.joint p.key).successors.keys :=
      Path.Set.keys_paths hproper
    funext k
    have hdrop := Joint.foldl_forget (fun (t : GraphTables) b k => t.joint_dropPredecessor p b k)
      (hkeys ▸ Std.TreeMap.nodup_keys) t k
    rw [releaseEdges_eq hp, joint_clear, hdrop, Joint.withoutEdges, hkeys]
    simp only [Std.TreeMap.mem_keys]
  · rw [releaseEdges_of_not_mem hp, Joint.withoutEdges_of_empty (h.joint_of_not_mem hp)]

theorem edgeCount_releaseEdges (h : t.Even) (p : Path)
    (hproper : (t.joint p.key).successors.Proper) :
    (t.releaseEdges p).edgeCount = t.edgeCount - (t.joint p.key).successors.size := by
  by_cases hp : p.key ∈ t.nodes
  · obtain ⟨predecessors, -, heq⟩ := dropPredecessors_eq (t := t) p (t.joint p.key).successors.paths
    rw [releaseEdges_eq hp, heq, ← Path.Set.length_paths hproper]
    rfl
  · rw [releaseEdges_of_not_mem hp, h.joint_of_not_mem hp]
    rfl

namespace Shows

variable {g g' : ModuleGraph}

/-- A change that has nothing to do with edges, except that it may make a node. -/
theorem addModule (h : t.Shows g) {p : Path} {f : Node → Node}
    (hedits : ModuleGraph.Edits p f [p] g g') (hjoint : ∀ k, g'.joint k = g.joint k)
    (hcount : g'.edgeCount = g.edgeCount) : (t.addModule p).Shows g' := by
  refine ⟨fun k => ?_, funext fun k => ?_, ?_⟩
  · rw [mem_nodes_addModule, h.nodes, hedits.mem]
    simp
  · rw [joint_addModule, hjoint, h.joint]
  · rw [edgeCount_addModule, h.edgeCount, hcount]

theorem addEdge (h : t.Shows g) (a : Path) (specifier : Bytes) (b : Path) :
    (t.addEdge a specifier b).Shows (g.addEdge a specifier b) := by
  refine ⟨fun k => ?_, ?_, ?_⟩
  · have hnodes : k ∈ (t.addEdge a specifier b).nodes ↔ a.key = k ∨ b.key = k ∨ k ∈ t.nodes := by
      rw [GraphTables.addEdge]
      split <;> simp [leave, arrive, mem_nodes_addModule]
    rw [hnodes, h.nodes, (ModuleGraph.edits_addEdge g a specifier b).mem]
    simp [or_left_comm, or_assoc]
  · rw [GraphTables.joint_addEdge, ModuleGraph.joint_addEdge, h.joint]
  · rw [GraphTables.edgeCount_addEdge, ModuleGraph.edgeCount_addEdge, h.joint, h.edgeCount]

theorem releaseEdges (h : t.Shows g) (heven : t.Even) (hg : g.Consistent) (p : Path) :
    (t.releaseEdges p).Shows (g.releaseEdges p) := by
  have hproper : (t.joint p.key).successors.Proper := by
    rw [h.joint, ← ModuleGraph.successors_core]
    exact hg.proper.successors p.key
  refine ⟨fun k => ?_, ?_, ?_⟩
  · rw [mem_nodes_releaseEdges, h.nodes, (hg.edits_releaseEdges p).mem]
    simp
  · rw [joint_releaseEdges heven p hproper, ModuleGraph.joint_releaseEdges hg.proper, h.joint]
  · rw [edgeCount_releaseEdges heven p hproper, ModuleGraph.edgeCount_releaseEdges hg.proper,
      h.joint, h.edgeCount]

theorem change (h : t.Shows g) (heven : t.Even) (hg : g.Consistent) (c : ModuleGraph.Change) :
    (t.change c).Even ∧ (t.change c).Shows (g.change c) := by
  cases c with
  | dispatch p => exact ⟨heven, h.nodes, h.joint, h.edgeCount⟩
  | addModule p =>
    exact ⟨heven.addModule p, h.addModule (ModuleGraph.edits_addModule g p p)
      (ModuleGraph.joint_update_of_joint fun _ => rfl) rfl⟩
  | addRecord p i =>
    exact ⟨heven.addModule p, h.addModule (ModuleGraph.edits_addRecord g p i)
      (ModuleGraph.joint_update_of_joint fun _ => rfl) rfl⟩
  | addEdge a specifier b => exact ⟨heven.addEdge a specifier b, h.addEdge a specifier b⟩
  | addUnresolved p specifier e =>
    exact ⟨heven.addModule p, h.addModule (ModuleGraph.edits_addUnresolved g p specifier e)
      (ModuleGraph.joint_update_of_joint fun _ => rfl) rfl⟩
  | markFailed p =>
    exact ⟨heven.addModule p, h.addModule (ModuleGraph.edits_markFailed g p)
      (ModuleGraph.joint_update_of_joint fun _ => rfl) rfl⟩
  | markEntry p =>
    exact ⟨heven.addModule p, h.addModule (ModuleGraph.edits_markEntry g p)
      (ModuleGraph.joint_update_of_joint fun _ => rfl) rfl⟩
  | link p =>
    refine ⟨heven, fun k => ?_, h.joint.trans (funext fun k => ?_), ?_⟩
    · rw [GraphTables.change, h.nodes, ModuleGraph.change, (ModuleGraph.edits_link g p).mem]
      simp
    · exact (ModuleGraph.joint_link p k).symm
    · exact h.edgeCount.trans (ModuleGraph.edgeCount_link g p).symm
  | releaseEdges p =>
    refine ⟨heven.releaseEdges p fun b hb => ?_, h.releaseEdges heven hg p⟩
    rw [h.joint, ← ModuleGraph.successors_eq_paths] at hb
    exact (h.nodes _).mpr (hg.mem_of_mem_successors hb)

end Shows

/-- **The tables hold what the graph holds**, whatever was done to both of them. -/
theorem follows_built (changes : List ModuleGraph.Change) :
    (built changes).Even ∧ (built changes).Shows (ModuleGraph.built changes) := by
  suffices hfold : ∀ (t : GraphTables) (g : ModuleGraph), t.Even → t.Shows g → g.Consistent →
      (changes.foldl GraphTables.change t).Even ∧
        (changes.foldl GraphTables.change t).Shows (changes.foldl ModuleGraph.change g) by
    have hjoint (k : Key) : ModuleGraph.empty.joint k = {} :=
      ModuleGraph.joint_of_not_mem _ Std.TreeMap.not_mem_emptyc
    have heven : Even {} := ⟨fun k => by simp, fun k => by simp⟩
    refine hfold {} .empty heven ⟨fun k => by simp [ModuleGraph.empty], ?_, rfl⟩ .empty
    funext k
    rw [hjoint, heven.joint_of_not_mem Std.TreeMap.not_mem_emptyc]
  intro t g heven hshows hg
  induction changes generalizing t g with
  | nil => exact ⟨heven, hshows⟩
  | cons c rest ih =>
    obtain ⟨heven', hshows'⟩ := hshows.change heven hg c
    exact ih _ _ heven' hshows' (hg.change c)

end GraphTables

/-! ### What holds of a graph -/

namespace ModuleGraph

/-- A graph says about an edge the same in all places. -/
structure Sound (g : ModuleGraph) : Prop where
  /-- The one module is a successor of the other one if this is a predecessor of the first. -/
  converse : ∀ a b : Path,
    b.key ∈ (g.successors a).map key ↔ a.key ∈ (g.predecessors b).map key
  /-- The successors of a module are the targets of the edges that it lists. -/
  targets : ∀ a b : Path, b.key ∈ (g.successors a).map key ↔
    ∃ n, g.find? a = some n ∧ ∃ e ∈ n.edges, e.target.key = b.key
  /-- All targets have nodes. -/
  known : ∀ a n, g.find? a = some n → ∀ e ∈ n.edges, g.hasModule e.target = true
  /-- Every module counts with its successors. -/
  counted : g.edgeCount = (g.modules.map fun p => (g.successors p).length).sum
  /-- While edges are taken back, there is one left to be taken off the count. -/
  releasable : ∀ p taken b rest, g.successors p = taken ++ b :: rest →
    0 < (taken.foldl (fun g b => g.dropPredecessor p b) g).edgeCount

theorem Consistent.sound {g : ModuleGraph} (h : g.Consistent) : g.Sound := by
  have hsuccessors (a : Path) (k : Key) :
      k ∈ (g.successors a).map key ↔ k ∈ (g.joint a.key).successors := by
    rw [← successors_core, ← mem_successors h.proper, List.mem_map]
  have hlength (p : Path) : (g.successors p).length = (g.joint p.key).successors.size := by
    rw [successors_eq_paths, Path.Set.length_paths (successors_core g p.key ▸ h.proper.successors _)]
  refine ⟨fun a b => ?_, fun a b => ?_, fun a n hn e he => ?_, ?_, fun p taken b rest hp => ?_⟩
  · rw [hsuccessors, h.converse, predecessors_eq_paths, Path.Set.keys_paths (h.predecessors _),
      Std.TreeMap.mem_keys]
  · rw [hsuccessors, h.targets, joint_eq]
    cases hn : g.find? a with
    | none => simp [Node.joint]
    | some n => simp [Node.joint]
  · rw [hasModule_iff]
    exact h.known a.key e (by rwa [joint_eq, hn])
  · have hkeys : (g.modules.map fun p => (g.successors p).length) =
        g.nodes.keys.map fun k => (g.joint k).successors.size := by
      rw [← h.proper.keys_modules, List.map_map]
      exact List.map_congr_left fun p _ => hlength p
    rw [hkeys, ← List.sum_toFinset _ Std.TreeMap.nodup_keys]
    exact (h.counted _ fun k hk => List.mem_toFinset.mpr (Std.TreeMap.mem_keys.mpr hk)).symm
  · -- the successors of one module count no more than all of them
    have hmem : p.key ∈ g.nodes := by
      by_contra hnone
      have hempty : (g.successors p).length = 0 := by
        rw [hlength, joint_of_not_mem g hnone]
        rfl
      simp [hp] at hempty
    have hle : (g.successors p).length ≤ g.edgeCount := by
      rw [hlength, ← h.counted g.nodes.keys.toFinset fun k hk =>
        List.mem_toFinset.mpr (Std.TreeMap.mem_keys.mpr hk)]
      exact Finset.single_le_sum (f := fun k => (g.joint k).successors.size)
        (fun _ _ => Nat.zero_le _) (List.mem_toFinset.mpr (Std.TreeMap.mem_keys.mpr hmem))
    rw [edgeCount_dropPredecessors]
    rw [hp, List.length_append, List.length_cons] at hle
    omega

/-- **After any changes** a graph is sound, and the tables that are written for them have the same
keys and hold what the graph holds; and no other change loses a node, an interface or a path that
was handed out. -/
theorem built_sound (changes : List Change) :
    (GraphTables.built changes).Even ∧ (GraphTables.built changes).Shows (built changes) ∧
      (built changes).Sound ∧ ∀ c : Change, Keeps (built changes) ((built changes).change c) := by
  obtain ⟨heven, hshows⟩ := GraphTables.follows_built changes
  have hconsistent := consistent_built changes
  exact ⟨heven, hshows, hconsistent.sound, hconsistent.keeps⟩

end ModuleGraph

end ScriptLint
