/-
What holds of a graph, however it was changed.

A graph says several times what it knows about an edge: the module that it leaves lists it, and
has its target among its successors, the module that it enters has the other one among its
predecessors, and the graph counts it.  Every change keeps them in step, whatever its paths are:
edges that are added again, edges of a module to itself, edges that come back after they were
released.

What a change does to edges is read off `ModuleGraph.joint`, which gives every key the edges of
its module.  Most changes leave all joints as they are; one edge changes two of them, and
releasing the edges of a module changes its own and those of its successors.

* **`ModuleGraph.Change`**, **`ModuleGraph.built`** — what can be done to a graph, and what comes
  of doing it;
* **`ModuleGraph.Consistent`** — edges, successors, predecessors and their number agree;
* **`ModuleGraph.Consistent.change`** — every change keeps this, so it holds of all graphs
  (`ModuleGraph.consistent_built`);
* **`ModuleGraph.Keeps`** — nothing that a graph knows of its modules is lost
  (`ModuleGraph.Consistent.keeps`).
-/
import Mathlib.Algebra.BigOperators.Group.Finset.Piecewise
import ScriptLint.Proofs.GraphNodes

namespace ScriptLint

open ScriptLint.Path

theorem Path.Set.Proper.erase {s : Path.Set} (h : s.Proper) (k : Key) :
    Path.Set.Proper (s.erase k) := by
  intro k' p hp
  rw [Std.TreeMap.getElem?_erase] at hp
  split at hp
  · cases hp
  · exact h k' p hp

/-- A set has as many paths as keys. -/
theorem Path.Set.length_paths {s : Path.Set} (h : s.Proper) : s.paths.length = s.size := by
  rw [← List.length_map (f := key), Path.Set.keys_paths h, Std.TreeMap.length_keys]

/-- How a module hangs together with others. -/
structure Joint where
  edges : List Edge := []
  successors : Path.Set := ∅
  predecessors : Path.Set := ∅

/-- What a node says about edges. -/
def Node.joint (n : Node) : Joint := ⟨n.edges, n.successors, n.predecessors⟩

/-- A node at which one more edge arrives. -/
def Node.arrive (a : Path) (n : Node) : Node := { n with predecessors := n.predecessors.add a }

/-- A node at which no edge from a module arrives. -/
def Node.forget (a : Path) (n : Node) : Node :=
  { n with predecessors := n.predecessors.erase a.key }

namespace Joint

/-- One more edge that leaves. -/
def leave (specifier : Bytes) (b : Path) (j : Joint) : Joint :=
  { j with edges := j.edges ++ [⟨specifier, b⟩], successors := j.successors.add b }

/-- One more edge that arrives. -/
def arrive (a : Path) (j : Joint) : Joint := { j with predecessors := j.predecessors.add a }

/-- No edge from a module arrives. -/
def forget (a : Path) (j : Joint) : Joint := { j with predecessors := j.predecessors.erase a.key }

/-- No edge leaves. -/
def release (j : Joint) : Joint := { j with edges := [], successors := ∅ }

/-- All joints after one more edge.  What leaves its one end changes, and what arrives at the other
one unless another edge does so already. -/
def withEdge (a : Path) (specifier : Bytes) (b : Path) (joint : Key → Joint) (k : Key) : Joint :=
  (if b.key = k ∧ b.key ∉ (joint a.key).successors then arrive a else id)
    ((if a.key = k then leave specifier b else id) (joint k))

/-- All joints when the edges that leave a module are gone, at both of their ends. -/
def withoutEdges (p : Path) (joint : Key → Joint) (k : Key) : Joint :=
  (if p.key = k then release else id)
    (if k ∈ (joint p.key).successors then (joint k).forget p else joint k)

section

variable (a b p : Path) (specifier : Bytes) (joint : Key → Joint) (k : Key)

theorem edges_withEdge : (withEdge a specifier b joint k).edges =
    (joint k).edges ++ if a.key = k then [⟨specifier, b⟩] else [] := by
  rw [withEdge]
  split <;> split <;> simp [leave, arrive]

theorem successors_withEdge : (withEdge a specifier b joint k).successors =
    if a.key = k then (joint k).successors.add b else (joint k).successors := by
  rw [withEdge]
  split <;> split <;> simp [leave, arrive]

theorem predecessors_withEdge : (withEdge a specifier b joint k).predecessors =
    if b.key = k ∧ b.key ∉ (joint a.key).successors then (joint k).predecessors.add a
    else (joint k).predecessors := by
  rw [withEdge]
  split <;> split <;> simp [leave, arrive]

theorem edges_withoutEdges : (withoutEdges p joint k).edges =
    if p.key = k then [] else (joint k).edges := by
  rw [withoutEdges]
  split <;> split <;> rfl

theorem successors_withoutEdges : (withoutEdges p joint k).successors =
    if p.key = k then ∅ else (joint k).successors := by
  rw [withoutEdges]
  split <;> split <;> rfl

theorem predecessors_withoutEdges : (withoutEdges p joint k).predecessors =
    if k ∈ (joint p.key).successors then (joint k).predecessors.erase p.key
    else (joint k).predecessors := by
  rw [withoutEdges]
  split <;> split <;> rfl

end

/-- A module without edges has none that could go. -/
theorem withoutEdges_of_empty {p : Path} {joint : Key → Joint} (h : joint p.key = {}) :
    withoutEdges p joint = joint := by
  funext k
  have hempty : k ∉ (joint p.key).successors := by
    rw [h]
    exact Std.TreeMap.not_mem_emptyc
  rw [withoutEdges, if_neg hempty]
  by_cases hk : p.key = k
  · rw [if_pos hk, ← hk, h]
    rfl
  · rw [if_neg hk]
    rfl

/-- The edges from a module are forgotten at some others, one after the other. -/
theorem foldl_forget {σ : Type} {joint : σ → Key → Joint} {drop : σ → Path → σ} {a : Path}
    (hdrop : ∀ s b k, joint (drop s b) k = if b.key = k then (joint s k).forget a else joint s k)
    {paths : List Path} (h : (paths.map key).Nodup) (s : σ) (k : Key) :
    joint (paths.foldl drop s) k =
      if k ∈ paths.map key then (joint s k).forget a else joint s k := by
  induction paths generalizing s with
  | nil => rfl
  | cons b rest ih =>
    rw [List.map_cons, List.nodup_cons] at h
    rw [List.foldl_cons, ih h.2, hdrop, List.map_cons]
    by_cases hk : b.key = k
    · subst hk
      rw [if_neg h.1, if_pos rfl, if_pos List.mem_cons_self]
    · simp only [List.mem_cons, if_neg hk, Ne.symm hk, false_or]

end Joint

namespace ModuleGraph

/-! ### Changes -/

/-- What can be done to a graph. -/
inductive Change where
  | dispatch (p : Path)
  | addModule (p : Path)
  | addRecord (p : Path) (i : Interface)
  | addEdge (a : Path) (specifier : Bytes) (b : Path)
  | addUnresolved (p : Path) (specifier : Bytes) (e : Error)
  | markFailed (p : Path)
  | markEntry (p : Path)
  | link (p : Path)
  | releaseEdges (p : Path)
  deriving DecidableEq, Inhabited, Repr

/-- The graph after a change. -/
def change (g : ModuleGraph) : Change → ModuleGraph
  | .dispatch p => g.dispatch p
  | .addModule p => g.addModule p
  | .addRecord p i => g.addRecord p i
  | .addEdge a specifier b => g.addEdge a specifier b
  | .addUnresolved p specifier e => g.addUnresolved p specifier e
  | .markFailed p => g.markFailed p
  | .markEntry p => g.markEntry p
  | .link p => g.link p
  | .releaseEdges p => g.releaseEdges p

/-- The graph that some changes make, one after the other. -/
def built (changes : List Change) : ModuleGraph := changes.foldl change empty

/-! ### Joints -/

variable (g : ModuleGraph)

/-- How the module of a key hangs together with others; not at all, if there is none. -/
def joint (k : Key) : Joint := ((g.nodes[k]?).map Node.joint).getD {}

theorem joint_eq (p : Path) : g.joint p.key = ((g.find? p).getD { path := p }).joint := by
  rw [joint, find?]
  cases g.nodes[p.key]? <;> rfl

theorem successors_core (k : Key) : (g.core k).successors = (g.joint k).successors := by
  rw [core, joint]
  cases g.nodes[k]? <;> rfl

theorem successors_eq_paths (p : Path) :
    g.successors p = (g.joint p.key).successors.paths := by
  rw [successors_eq, successors_core]

theorem predecessors_eq_paths (p : Path) :
    g.predecessors p = (g.joint p.key).predecessors.paths := by
  rw [predecessors, joint, find?]
  cases g.nodes[p.key]? <;> rfl

theorem hasEdge_iff (a b : Path) : g.hasEdge a b = true ↔ b.key ∈ (g.joint a.key).successors := by
  rw [hasEdge_eq, successors_core, Std.TreeMap.contains_iff_mem]

/-- A module that is not there hangs together with none. -/
theorem joint_of_not_mem {k : Key} (h : k ∉ g.nodes) : g.joint k = {} := by
  rw [joint, Std.TreeMap.getElem?_eq_none h]
  rfl

variable {g} {g' : ModuleGraph} {p : Path} {f : Node → Node} {φ : Joint → Joint}

/-- A change of the node that the graph has for a path. -/
theorem joint_of_update_at (hnodes : g'.nodes = (g.update p f).nodes)
    (hf : (f ((g.find? p).getD { path := p })).joint = φ (g.joint p.key)) (k : Key) :
    g'.joint k = if p.key = k then φ (g.joint k) else g.joint k := by
  rw [joint, hnodes, update]
  simp only [Std.TreeMap.getElem?_insert, Std.LawfulEqOrd.compare_eq_iff_eq]
  split
  · rename_i hk
    rw [← hk, Option.map_some, Option.getD_some, hf]
  · rfl

theorem joint_of_update (hnodes : g'.nodes = (g.update p f).nodes)
    (hf : ∀ n, (f n).joint = φ n.joint) (k : Key) :
    g'.joint k = if p.key = k then φ (g.joint k) else g.joint k :=
  joint_of_update_at hnodes (by rw [hf, joint_eq]) k

/-- A change of a node that has nothing to do with edges. -/
theorem joint_update_of_joint (hf : ∀ n, (f n).joint = n.joint) (k : Key) :
    (g.update p f).joint k = g.joint k := by
  rw [joint_of_update (φ := id) rfl hf, id, ite_self]

theorem joint_link (p : Path) (k : Key) : (g.link p).joint k = g.joint k := by
  cases hp : g.find? p with
  | none => rw [link, hp]
  | some n =>
    have hlink : g.link p = g.update p fun _ => g.linkedNode n := by rw [link, hp]; rfl
    rw [joint_of_update_at (φ := id) (congrArg nodes hlink) (by rw [joint_eq, hp]; rfl), id,
      ite_self]

variable (g)

theorem joint_addEdge (a : Path) (specifier : Bytes) (b : Path) :
    (g.addEdge a specifier b).joint = Joint.withEdge a specifier b g.joint := by
  funext k
  let left : ModuleGraph := (g.addModule b).update a (Node.withEdges [⟨specifier, b⟩])
  have hleft : left.joint k = (if a.key = k then Joint.leave specifier b else id) (g.joint k) := by
    rw [joint_of_update (φ := Joint.leave specifier b) rfl fun _ => rfl, addModule,
      joint_update_of_joint (f := id) fun _ => rfl]
    split <;> rfl
  have hadd : g.addEdge a specifier b = if g.hasEdge a b then left else
      { left.update b (Node.arrive a) with edgeCount := left.edgeCount + 1 } := rfl
  rw [Joint.withEdge]
  by_cases hknown : b.key ∈ (g.joint a.key).successors
  · rw [hadd, if_pos ((g.hasEdge_iff a b).mpr hknown), hleft]
    simp [hknown]
  · have hnodes : (g.addEdge a specifier b).nodes = (left.update b (Node.arrive a)).nodes := by
      rw [hadd, if_neg (hknown ∘ (g.hasEdge_iff a b).mp)]
    rw [joint_of_update (φ := Joint.arrive a) hnodes fun _ => rfl, hleft]
    simp only [hknown, not_false_eq_true, and_true]
    split <;> rfl

theorem edits_dispatch (p : Path) : Edits p id [] g (g.dispatch p) := (Edits.refl p g).of_nodes rfl

theorem edgeCount_link (p : Path) : (g.link p).edgeCount = g.edgeCount := by
  rw [link]
  split <;> rfl

theorem edgeCount_addEdge (a : Path) (specifier : Bytes) (b : Path) :
    (g.addEdge a specifier b).edgeCount =
      g.edgeCount + if b.key ∈ (g.joint a.key).successors then 0 else 1 := by
  simp only [← hasEdge_iff]
  rw [addEdge]
  split <;> rfl

theorem joint_dropPredecessor (a b : Path) (k : Key) :
    (g.dropPredecessor a b).joint k = if b.key = k then (g.joint k).forget a else g.joint k :=
  joint_of_update (f := Node.forget a) (φ := Joint.forget a) rfl (fun _ => rfl) k

theorem edgeCount_dropPredecessors (a : Path) (paths : List Path) :
    (paths.foldl (fun g b => g.dropPredecessor a b) g).edgeCount = g.edgeCount - paths.length := by
  induction paths generalizing g with
  | nil => rfl
  | cons b rest ih =>
    rw [List.foldl_cons, ih, List.length_cons]
    show g.edgeCount - 1 - rest.length = _
    omega

variable {g}

theorem joint_releaseEdges (h : g.Proper) (p : Path) :
    (g.releaseEdges p).joint = Joint.withoutEdges p g.joint := by
  cases hp : g.find? p with
  | none =>
    have hnone : g.joint p.key = {} := by rw [joint_eq, hp]; rfl
    rw [Joint.withoutEdges_of_empty hnone, releaseEdges, hp]
  | some n =>
    have hsome : g.joint p.key = n.joint := by rw [joint_eq, hp]; rfl
    have hproper : n.successors.Proper := (h p.key n hp).successors
    have hkeys : n.successors.paths.map key = n.successors.keys := Path.Set.keys_paths hproper
    have hrelease : g.releaseEdges p =
        (n.successors.paths.foldl (fun g b => g.dropPredecessor p b) g).update p fun n =>
          { n with successors := ∅, edges := [], edgesReleased := true } := by
      rw [releaseEdges, hp]
    funext k
    have hdrop := Joint.foldl_forget (fun (g : ModuleGraph) b k => g.joint_dropPredecessor p b k)
      (hkeys ▸ Std.TreeMap.nodup_keys) g k
    rw [joint_of_update (φ := Joint.release) (congrArg nodes hrelease) fun _ => rfl, hdrop,
      Joint.withoutEdges, hkeys, hsome]
    have hmem : k ∈ n.successors.keys ↔ k ∈ n.joint.successors := Std.TreeMap.mem_keys
    by_cases hk : p.key = k <;> by_cases hin : k ∈ n.joint.successors <;> simp [hk, hmem, hin]

theorem edgeCount_releaseEdges (h : g.Proper) (p : Path) :
    (g.releaseEdges p).edgeCount = g.edgeCount - (g.joint p.key).successors.size := by
  cases hp : g.find? p with
  | none =>
    have hnone : g.joint p.key = {} := by rw [joint_eq, hp]; rfl
    rw [releaseEdges, hp, hnone]
    rfl
  | some n =>
    have hsome : g.joint p.key = n.joint := by rw [joint_eq, hp]; rfl
    have hproper : n.successors.Proper := (h p.key n hp).successors
    rw [releaseEdges, hp, hsome]
    show (n.successors.paths.foldl (fun g b => g.dropPredecessor p b) g).edgeCount = _
    rw [edgeCount_dropPredecessors, Path.Set.length_paths hproper]
    rfl

/-! ### Edges, successors and predecessors agree -/

/-- What a graph says about edges in one place, it says in all others. -/
structure Consistent (g : ModuleGraph) : Prop where
  proper : g.Proper
  predecessors : ∀ k, (g.joint k).predecessors.Proper
  converse : ∀ a b, b ∈ (g.joint a).successors ↔ a ∈ (g.joint b).predecessors
  targets : ∀ a b, b ∈ (g.joint a).successors ↔ ∃ e ∈ (g.joint a).edges, e.target.key = b
  known : ∀ a, ∀ e ∈ (g.joint a).edges, e.target.key ∈ g.nodes
  counted : ∀ keys : Finset Key, (∀ k ∈ g.nodes, k ∈ keys) →
    ∑ k ∈ keys, (g.joint k).successors.size = g.edgeCount

namespace Consistent

variable {more : List Path}

theorem empty : ModuleGraph.empty.Consistent := by
  have hjoint (k : Key) : ModuleGraph.empty.joint k = {} :=
    joint_of_not_mem _ Std.TreeMap.not_mem_emptyc
  refine ⟨fun k n hn => ?_, fun k => ?_, fun a b => ?_, fun a b => ?_, fun a e he => ?_,
    fun keys _ => ?_⟩
  · rw [show ModuleGraph.empty.nodes = ∅ from rfl] at hn
    simp at hn
  · rw [hjoint]
    exact Path.Set.proper_empty
  · rw [hjoint, hjoint]
    exact Iff.rfl
  · rw [hjoint]
    simp
  · rw [hjoint] at he
    cases he
  · refine Finset.sum_eq_zero fun k _ => ?_
    rw [hjoint]
    rfl

/-- A change that has nothing to do with edges. -/
theorem of_joint (h : g.Consistent) (hedits : Edits p f more g g')
    (hjoint : ∀ k, g'.joint k = g.joint k) (hcount : g'.edgeCount = g.edgeCount) :
    g'.Consistent := by
  have hmem (k : Key) (hk : k ∈ g.nodes) : k ∈ g'.nodes := (hedits.mem k).mpr (.inr hk)
  refine ⟨hedits.proper h.proper, fun k => ?_, fun a b => ?_, fun a b => ?_, fun a e he => ?_,
    fun keys hkeys => ?_⟩
  · rw [hjoint]
    exact h.predecessors k
  · rw [hjoint, hjoint]
    exact h.converse a b
  · rw [hjoint]
    exact h.targets a b
  · rw [hjoint] at he
    exact hmem _ (h.known a e he)
  · simp only [hjoint, hcount]
    exact h.counted keys fun k hk => hkeys k (hmem k hk)

theorem addEdge (h : g.Consistent) (a : Path) (specifier : Bytes) (b : Path) :
    (g.addEdge a specifier b).Consistent := by
  have hedits := edits_addEdge g a specifier b
  have hmem (k : Key) (hk : k ∈ g.nodes) : k ∈ (g.addEdge a specifier b).nodes :=
    (hedits.mem k).mpr (.inr hk)
  have hends : a.key ∈ (g.addEdge a specifier b).nodes ∧ b.key ∈ (g.addEdge a specifier b).nodes :=
    ⟨(hedits.mem _).mpr (.inl ⟨a, by simp, rfl⟩), (hedits.mem _).mpr (.inl ⟨b, by simp, rfl⟩)⟩
  have hsuccessors (k k' : Key) : k' ∈ ((g.addEdge a specifier b).joint k).successors ↔
      a.key = k ∧ b.key = k' ∨ k' ∈ (g.joint k).successors := by
    rw [joint_addEdge, Joint.successors_withEdge]
    split
    · simp [Path.Set.mem_add, *]
    · simp [*]
  -- where the edge is known, the one end is a predecessor of the other one already
  have hpredecessors (k k' : Key) : k' ∈ ((g.addEdge a specifier b).joint k).predecessors ↔
      a.key = k' ∧ b.key = k ∨ k' ∈ (g.joint k).predecessors := by
    have hknown := h.converse a.key b.key
    rw [joint_addEdge, Joint.predecessors_withEdge]
    by_cases hb : b.key = k
    · subst hb
      by_cases hedge : b.key ∈ (g.joint a.key).successors
      · rw [if_neg fun hnew => hnew.2 hedge]
        exact ⟨.inr, fun hk => hk.elim (fun hk => hk.1 ▸ hknown.mp hedge) id⟩
      · rw [if_pos ⟨rfl, hedge⟩, Path.Set.mem_add]
        simp
    · rw [if_neg fun hnew => hb hnew.1]
      simp [hb]
  refine ⟨hedits.proper h.proper, fun k => ?_, fun k k' => ?_, fun k k' => ?_, fun k e he => ?_,
    fun keys hkeys => ?_⟩
  · rw [joint_addEdge, Joint.predecessors_withEdge]
    split
    · exact (h.predecessors k).add a
    · exact h.predecessors k
  · rw [hsuccessors, hpredecessors, h.converse]
  · rw [hsuccessors, joint_addEdge, Joint.edges_withEdge, h.targets]
    by_cases ha : a.key = k
    · simp [ha, or_and_right, exists_or, or_comm]
    · simp [ha]
  · rw [joint_addEdge, Joint.edges_withEdge, List.mem_append] at he
    rcases he with he | he
    · exact hmem _ (h.known k e he)
    · by_cases ha : a.key = k
      · obtain rfl : e = ⟨specifier, b⟩ := by simpa [ha] using he
        exact hends.2
      · simp [ha] at he
  · -- at one end there is one successor more, if it is new
    have hsize (k : Key) : ((g.addEdge a specifier b).joint k).successors.size =
        (g.joint k).successors.size + if k = a.key then
          (if b.key ∈ (g.joint a.key).successors then 0 else 1) else 0 := by
      rw [joint_addEdge, Joint.successors_withEdge]
      by_cases hk : k = a.key
      · subst hk
        rw [if_pos rfl, if_pos rfl, Path.Set.add, Std.TreeMap.size_insertIfNew]
        split <;> rfl
      · rw [if_neg (Ne.symm hk), if_neg hk, Nat.add_zero]
    simp only [hsize, Finset.sum_add_distrib, Finset.sum_ite_eq', edgeCount_addEdge]
    rw [h.counted keys fun k hk => hkeys k (hmem k hk), if_pos (hkeys _ hends.1)]

/-- All targets of edges have nodes. -/
theorem closed (h : g.Consistent) : g.Closed := by
  intro a b hb
  rw [successors_core, h.targets] at hb
  obtain ⟨e, he, rfl⟩ := hb
  exact h.known a e he

theorem mem_of_mem_successors (h : g.Consistent) {p b : Path} (hb : b ∈ g.successors p) :
    b.key ∈ g.nodes :=
  h.closed p.key b.key ((mem_successors h.proper p b.key).mp ⟨b, hb, rfl⟩)

theorem edits_releaseEdges (h : g.Consistent) (p : Path) :
    Edits p Node.released [] g (g.releaseEdges p) :=
  g.edits_releaseEdges p fun _ hb => h.mem_of_mem_successors hb

theorem releaseEdges (h : g.Consistent) (p : Path) : (g.releaseEdges p).Consistent := by
  have hedits := h.edits_releaseEdges p
  have hmem (k : Key) : k ∈ (g.releaseEdges p).nodes ↔ k ∈ g.nodes := by simp [hedits.mem]
  have hjoint := joint_releaseEdges h.proper p
  have hsuccessors (k : Key) : ((g.releaseEdges p).joint k).successors =
      if p.key = k then ∅ else (g.joint k).successors := by
    rw [hjoint, Joint.successors_withoutEdges]
  have hpredecessors (k : Key) : ((g.releaseEdges p).joint k).predecessors =
      if k ∈ (g.joint p.key).successors then (g.joint k).predecessors.erase p.key
      else (g.joint k).predecessors := by
    rw [hjoint, Joint.predecessors_withoutEdges]
  refine ⟨hedits.proper h.proper, fun k => ?_, fun a b => ?_, fun a b => ?_, fun a e he => ?_,
    fun keys hkeys => ?_⟩
  · rw [hpredecessors]
    split
    · exact (h.predecessors k).erase p.key
    · exact h.predecessors k
  · rw [hsuccessors, hpredecessors]
    have herase : a ∈ (g.joint b).predecessors.erase p.key ↔
        p.key ≠ a ∧ a ∈ (g.joint b).predecessors := by
      simp [Std.TreeMap.mem_erase]
    by_cases hp : p.key = a
    · subst hp
      by_cases hb : b ∈ (g.joint p.key).successors
      · simp [hb, herase]
      · simp [hb, ← h.converse]
    · rw [if_neg hp, h.converse]
      split
      · simp [herase, hp]
      · rfl
  · rw [hsuccessors, hjoint, Joint.edges_withoutEdges]
    split
    · simp
    · exact h.targets a b
  · rw [hjoint, Joint.edges_withoutEdges] at he
    split at he
    · cases he
    · exact (hmem _).mpr (h.known a e he)
  · obtain ⟨freed, hfreed⟩ : ∃ freed, freed = (g.joint p.key).successors.size := ⟨_, rfl⟩
    have hsize (k : Key) : (g.joint k).successors.size =
        ((g.releaseEdges p).joint k).successors.size + if k = p.key then freed else 0 := by
      rw [hsuccessors, hfreed]
      by_cases hk : k = p.key
      · subst hk
        simp
      · simp [hk, Ne.symm hk]
    have hnone (hp : p.key ∉ keys) : freed = 0 := by
      have hnew : p.key ∉ g.nodes := fun hk => hp (hkeys _ ((hmem _).mpr hk))
      rw [hfreed, joint_of_not_mem g hnew]
      rfl
    have hcounted := h.counted keys fun k hk => hkeys k ((hmem k).mpr hk)
    simp only [hsize, Finset.sum_add_distrib, Finset.sum_ite_eq'] at hcounted
    rw [edgeCount_releaseEdges h.proper, ← hfreed]
    by_cases hp : p.key ∈ keys
    · rw [if_pos hp] at hcounted
      omega
    · rw [hnone hp]
      rw [if_neg hp] at hcounted
      omega

/-- **Every change keeps what a graph says about edges in step.** -/
theorem change (h : g.Consistent) (c : Change) : (g.change c).Consistent := by
  cases c with
  | dispatch p => exact h.of_joint (edits_dispatch g p) (fun _ => rfl) rfl
  | addModule p =>
    exact h.of_joint (edits_addModule g p p) (joint_update_of_joint fun _ => rfl) rfl
  | addRecord p i =>
    exact h.of_joint (edits_addRecord g p i) (joint_update_of_joint fun _ => rfl) rfl
  | addEdge a specifier b => exact h.addEdge a specifier b
  | addUnresolved p specifier e =>
    exact h.of_joint (edits_addUnresolved g p specifier e) (joint_update_of_joint fun _ => rfl) rfl
  | markFailed p =>
    exact h.of_joint (edits_markFailed g p) (joint_update_of_joint fun _ => rfl) rfl
  | markEntry p =>
    exact h.of_joint (edits_markEntry g p) (joint_update_of_joint fun _ => rfl) rfl
  | link p => exact h.of_joint (edits_link g p) (joint_link p) (edgeCount_link g p)
  | releaseEdges p => exact h.releaseEdges p

end Consistent

/-- **However a graph was made**, what it says about edges is in step. -/
theorem consistent_built (changes : List Change) : (built changes).Consistent := by
  suffices hfold : ∀ g : ModuleGraph, g.Consistent → (changes.foldl change g).Consistent from
    hfold empty .empty
  intro g hg
  induction changes generalizing g with
  | nil => exact hg
  | cons c rest ih => exact ih _ (hg.change c)

/-! ### Nothing is lost -/

/-- The second graph knows the modules of the first one, their interfaces, and which paths were
handed out. -/
structure Keeps (g g' : ModuleGraph) : Prop where
  dispatched : ∀ p, g.isDispatched p = true → g'.isDispatched p = true
  nodes : ∀ p, g.hasModule p = true → g'.hasModule p = true
  records : ∀ p n, g.find? p = some n → ∃ n', g'.find? p = some n' ∧
    n.records.map Record.interface <+: n'.records.map Record.interface

theorem Edits.keeps {more : List Path} (h : Edits p f more g g')
    (hdispatched : ∀ k ∈ g.dispatched, k ∈ g'.dispatched)
    (hrecords : ∀ n, n.records.map Record.interface <+: (f n).records.map Record.interface) :
    Keeps g g' := by
  have hmem (k : Key) (hk : k ∈ g.nodes) : k ∈ g'.nodes := (h.mem k).mpr (.inr hk)
  have hnode {g : ModuleGraph} {p : Path} {n : Node} (hn : g.find? p = some n) :
      n.records = (g.core p.key).records := by
    rw [← records_eq, hn]
    rfl
  refine ⟨fun q hq => ?_, fun q hq => ?_, fun q n hn => ?_⟩
  · exact Std.TreeSet.contains_iff_mem.mpr (hdispatched _ (Std.TreeSet.contains_iff_mem.mp hq))
  · exact (hasModule_iff g' q).mpr (hmem _ ((hasModule_iff g q).mp hq))
  · have hq : q.key ∈ g.nodes :=
      Std.TreeMap.isSome_getElem?_iff_mem.mp (Option.isSome_iff_exists.mpr ⟨n, hn⟩)
    obtain ⟨n', hn'⟩ := Option.isSome_iff_exists.mp
      (Std.TreeMap.isSome_getElem?_iff_mem.mpr (hmem _ hq))
    refine ⟨n', hn', ?_⟩
    rw [hnode hn, hnode (g := g') (p := q) hn', h.core]
    split
    · exact hrecords _
    · exact List.prefix_refl _

theorem dispatched_addEdge (a : Path) (specifier : Bytes) (b : Path) :
    (g.addEdge a specifier b).dispatched = g.dispatched := by
  rw [addEdge]
  split <;> rfl

/-- **No change loses anything**: no node, no interface, and no path that was handed out. -/
theorem Consistent.keeps (h : g.Consistent) (c : Change) : Keeps g (g.change c) := by
  have hsame {g' : ModuleGraph} (hdispatched : g'.dispatched = g.dispatched) (k : Key)
      (hk : k ∈ g.dispatched) : k ∈ g'.dispatched := hdispatched ▸ hk
  have hprefix (n : Node) : n.records.map Record.interface <+: n.records.map Record.interface :=
    List.prefix_refl _
  cases c with
  | dispatch p =>
    refine (edits_dispatch g p).keeps (fun k hk => ?_) hprefix
    exact Std.TreeSet.mem_insert.mpr (.inr hk)
  | addModule p => exact (edits_addModule g p p).keeps (hsame rfl) hprefix
  | addRecord p i =>
    refine (edits_addRecord g p i).keeps (hsame rfl) fun n => ?_
    rw [List.map_append]
    exact List.prefix_append _ _
  | addEdge a specifier b =>
    exact (edits_addEdge g a specifier b).keeps (hsame (dispatched_addEdge a specifier b)) hprefix
  | addUnresolved p specifier e =>
    exact (edits_addUnresolved g p specifier e).keeps (hsame rfl) hprefix
  | markFailed p => exact (edits_markFailed g p).keeps (hsame rfl) hprefix
  | markEntry p => exact (edits_markEntry g p).keeps (hsame rfl) hprefix
  | link p =>
    refine (edits_link g p).keeps (hsame (dispatched_link g p)) fun n => ?_
    rw [linkedNode, List.map_map]
    exact hprefix n
  | releaseEdges p =>
    exact (h.edits_releaseEdges p).keeps (hsame (dispatched_releaseEdges g p)) hprefix

end ModuleGraph

end ScriptLint
