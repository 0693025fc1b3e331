/-
What each change of a graph does to its nodes.

Most of a graph is read off `ModuleGraph.core`, which gives every key a node: the
node of the graph, without what no rule looks at, and `Node.blank` for a key that
has none.  A change of the graph is then a function of one of these nodes, and all
others stay:

* **`ModuleGraph.Edits`** — one graph is another one with a node changed, and with
  nodes for some more paths; edits of the same node compose
  (`ModuleGraph.Edits.trans`);
* **`ModuleGraph.core_links`** — linking modules changes their records alone, and no
  record sees whether another module was linked before;
* **`ModuleGraph.Releases`** — one graph is another one with the edges dropped that
  leave some of its modules.
-/
import Mathlib.Data.List.Basic
import Mathlib.Tactic.Common
import ScriptLint.ModuleGraph

namespace ScriptLint

/-- In a table that holds everything under its own key, the values have the keys. -/
theorem keys_values {β : Type} {t : Std.TreeMap Path.Key β} {key : β → Path.Key}
    (h : ∀ k b, t[k]? = some b → key b = k) : t.values.map key = t.keys := by
  have hvalues : t.values = t.toList.map Prod.snd := by
    show t.inner.inner.values = _
    have hlist : t.toList = Std.DTreeMap.Internal.Impl.Const.toList t.inner.inner := rfl
    rw [Std.DTreeMap.Internal.Impl.values_eq_map_snd, hlist,
      Std.DTreeMap.Internal.Impl.Const.toList_eq_toListModel_map]
    simp [Function.comp_def]
  rw [hvalues, ← Std.TreeMap.map_fst_toList_eq_keys, List.map_map]
  refine List.map_congr_left fun e he => ?_
  exact h e.1 e.2 (Std.TreeMap.mem_toList_iff_getElem?_eq_some.mp he)

namespace Path.Set

/-- Every path of the set stands under its own key. -/
def Proper (s : Set) : Prop := ∀ (k : Key) (p : Path), s[k]? = some p → p.key = k

theorem proper_empty : Proper ∅ := by
  intro k p h
  simp at h

theorem mem_add (p : Path) (s : Set) (k : Key) : k ∈ s.add p ↔ p.key = k ∨ k ∈ s := by
  simp [add, Std.TreeMap.mem_insertIfNew]

theorem Proper.add {s : Set} (h : s.Proper) (p : Path) : (s.add p).Proper := by
  intro k q hq
  rw [Set.add, Std.TreeMap.getElem?_insertIfNew] at hq
  split at hq
  · rename_i hk
    obtain rfl : p = q := by simpa using hq
    simpa using hk.1
  · exact h k q hq

/-- Adding paths one after the other adds their keys. -/
theorem mem_foldl_add (paths : List Path) (s : Set) (k : Key) :
    k ∈ paths.foldl (fun s p => s.add p) s ↔ (∃ p ∈ paths, p.key = k) ∨ k ∈ s := by
  induction paths generalizing s with
  | nil => simp
  | cons p rest ih =>
    rw [List.foldl_cons, ih, mem_add]
    simp only [List.mem_cons, exists_eq_or_imp]
    rw [or_left_comm, or_assoc]

/-- The paths of a set have its keys, in order. -/
theorem keys_paths {s : Set} (h : s.Proper) : s.paths.map key = s.keys :=
  keys_values h

end Path.Set

/-! ### Nodes by key -/

namespace Node

/-- No node yet. -/
def blank : Node := { path := ⟨[]⟩ }

/-- A node without what no rule looks at. -/
def core (n : Node) : Node :=
  { n with path := ⟨[]⟩, unresolved := [], edgesReleased := false, predecessors := ∅ }

/-- A node with more edges. -/
def withEdges (es : List Edge) (n : Node) : Node :=
  { n with
    edges := n.edges ++ es
    successors := (es.map Edge.target).foldl (fun s t => s.add t) n.successors }

theorem withEdges_nil (n : Node) : n.withEdges [] = n := by
  simp [withEdges]

theorem withEdges_append (es es' : List Edge) (n : Node) :
    n.withEdges (es ++ es') = (n.withEdges es).withEdges es' := by
  simp [withEdges]

/-- A node without the edges that leave it. -/
def released (n : Node) : Node := { n with edges := [], successors := ∅ }

/-- The node stands under its own key, and so do its successors. -/
structure Proper (n : Node) (k : Path.Key) : Prop where
  key : n.path.key = k
  successors : n.successors.Proper

end Node

namespace ModuleGraph

variable (g : ModuleGraph)

/-- What the graph knows about the module of a key. -/
def core (k : Path.Key) : Node := ((g.nodes[k]?).getD Node.blank).core

/-- Every node of the graph stands under its own key. -/
def Proper : Prop := ∀ (k : Path.Key) (n : Node), g.nodes[k]? = some n → n.Proper k

theorem core_eq (p : Path) : g.core p.key = ((g.find? p).getD { path := p }).core := by
  rw [core, find?]
  cases g.nodes[p.key]? <;> rfl

theorem hasModule_iff (p : Path) : g.hasModule p = true ↔ p.key ∈ g.nodes :=
  Std.TreeMap.contains_iff_mem

theorem core_of_not_mem {k : Path.Key} (h : k ∉ g.nodes) : g.core k = Node.blank := by
  rw [core, Std.TreeMap.getElem?_eq_none h]
  rfl

theorem successors_eq (p : Path) : g.successors p = (g.core p.key).successors.paths := by
  rw [successors, core, find?]
  cases g.nodes[p.key]? <;> rfl

theorem hasEdge_eq (a b : Path) : g.hasEdge a b = (g.core a.key).successors.contains b.key := by
  rw [hasEdge, core, find?]
  cases g.nodes[a.key]? with
  | none => exact Std.TreeMap.contains_emptyc.symm
  | some n => rfl

theorem any_failed (p : Path) : (g.find? p).any Node.failed = (g.core p.key).failed := by
  rw [core, find?]
  cases g.nodes[p.key]? <;> rfl

theorem records_eq (p : Path) :
    ((g.find? p).map Node.records).getD [] = (g.core p.key).records := by
  rw [core, find?]
  cases g.nodes[p.key]? <;> rfl

theorem target?_core (p : Path) : (g.find? p).bind Node.target? = (g.core p.key).target? := by
  rw [core, find?]
  cases g.nodes[p.key]? <;> rfl

variable {g}

/-- The successors of a module, by their keys. -/
theorem Proper.successors (h : g.Proper) (k : Path.Key) : (g.core k).successors.Proper := by
  rw [core]
  cases hn : g.nodes[k]? with
  | none => exact Path.Set.proper_empty
  | some n => exact (h k n hn).successors

theorem Proper.keys_modules (h : g.Proper) : g.modules.map Path.key = g.nodes.keys := by
  rw [modules, List.map_map]
  exact keys_values fun k n hn => (h k n hn).key

/-! ### Changes -/

/-- The second graph is the first one with the node of `p` changed, and with nodes
for `more`. -/
structure Edits (p : Path) (f : Node → Node) (more : List Path) (g g' : ModuleGraph) : Prop where
  core : ∀ k, g'.core k = if p.key = k then f (g.core k) else g.core k
  mem : ∀ k, k ∈ g'.nodes ↔ (∃ q ∈ more, q.key = k) ∨ k ∈ g.nodes
  proper : g.Proper → g'.Proper

namespace Edits

variable {p : Path} {g g' g'' : ModuleGraph}

theorem refl (p : Path) (g : ModuleGraph) : Edits p id [] g g where
  core k := by simp
  mem k := by simp
  proper := id

theorem trans {f f' : Node → Node} {more more' : List Path} (h : Edits p f more g g')
    (h' : Edits p f' more' g' g'') : Edits p (f' ∘ f) (more ++ more') g g'' where
  core k := by
    rw [h'.core, h.core]
    split <;> rfl
  mem k := by
    rw [h'.mem, h.mem]
    simp only [List.mem_append, or_and_right, exists_or]
    rw [or_left_comm, or_assoc]
  proper := h'.proper ∘ h.proper

/-- Paths that have nodes already need not be named. -/
theorem congr {f f' : Node → Node} {more more' : List Path} (h : Edits p f more g g')
    (hf : ∀ n, f n = f' n) (hmore : ∀ q ∈ more, q ∈ more' ∨ q.key ∈ g.nodes)
    (hmore' : ∀ q ∈ more', q ∈ more) : Edits p f' more' g g' where
  core k := by rw [h.core, hf]
  mem k := by
    rw [h.mem]
    constructor
    · rintro (⟨q, hq, rfl⟩ | hk)
      · exact (hmore q hq).imp (fun hq => ⟨q, hq, rfl⟩) id
      · exact .inr hk
    · rintro (⟨q, hq, rfl⟩ | hk)
      · exact .inl ⟨q, hmore' q hq, rfl⟩
      · exact .inr hk
  proper := h.proper

/-- The graph may also differ in what is not a node. -/
theorem of_nodes {f : Node → Node} {more : List Path} (h : Edits p f more g g')
    (hn : g''.nodes = g'.nodes) : Edits p f more g g'' where
  core k := by rw [← h.core, ModuleGraph.core, hn, ModuleGraph.core]
  mem k := by rw [hn, h.mem]
  proper hg k n hk := h.proper hg k n (by rw [← hn]; exact hk)

/-- Where all of them have nodes already, none of the paths is new. -/
theorem drop {f : Node → Node} {more : List Path} (h : Edits p f more g g')
    (hmore : ∀ q ∈ more, q.key ∈ g.nodes) : Edits p f [] g g' :=
  h.congr (fun _ => rfl) (fun q hq => .inr (hmore q hq)) (by simp)

/-- A change of the node that the graph has for a path. -/
theorem update_at (p : Path) {f f' : Node → Node} (g : ModuleGraph) {n : Node}
    (hn : (g.find? p).getD { path := p } = n) (hf : (f n).core = f' n.core)
    (hp : n.Proper p.key → (f n).Proper p.key) : Edits p f' [p] g (g.update p f) where
  core k := by
    simp only [ModuleGraph.update, ModuleGraph.core, Std.TreeMap.getElem?_insert,
      Std.LawfulEqOrd.compare_eq_iff_eq]
    split
    · rename_i hk
      subst hk
      rw [Option.getD_some, hn, hf, ← hn, find?]
      cases g.nodes[p.key]? <;> rfl
    · rfl
  mem k := by simp [ModuleGraph.update]
  proper hg k m hk := by
    simp only [ModuleGraph.update, Std.TreeMap.getElem?_insert,
      Std.LawfulEqOrd.compare_eq_iff_eq, hn] at hk
    split at hk
    · rename_i hkey
      subst hkey
      obtain rfl : f n = m := by simpa using hk
      refine hp ?_
      rw [← hn, find?]
      cases hm : g.nodes[p.key]? with
      | none => exact ⟨rfl, Path.Set.proper_empty⟩
      | some m => exact hg _ _ hm
    · exact hg k m hk

/-- A change of one node, seen from its core. -/
theorem update (p : Path) {f f' : Node → Node} (g : ModuleGraph)
    (hf : ∀ n, (f n).core = f' n.core) (hp : ∀ n, n.Proper p.key → (f n).Proper p.key) :
    Edits p f' [p] g (g.update p f) :=
  .update_at p g rfl (hf _) (hp _)

/-- A change that the core does not show is an edit of any node. -/
theorem hidden (p q : Path) {f : Node → Node} (g : ModuleGraph)
    (hf : ∀ n, (f n).core = n.core) (hp : ∀ n, n.Proper q.key → (f n).Proper q.key) :
    Edits p id [q] g (g.update q f) := by
  have hupdate : Edits q id [q] g (g.update q f) := .update q g hf hp
  refine ⟨fun k => ?_, hupdate.mem, hupdate.proper⟩
  rw [hupdate.core]
  simp only [id, ite_self]

end Edits

variable (g)

theorem edits_addModule (p q : Path) : Edits p id [q] g (g.addModule q) :=
  .hidden p q g (fun _ => rfl) fun _ h => h

theorem edits_addRecord (p : Path) (i : Interface) :
    Edits p (fun n => { n with records := n.records ++ [⟨i, []⟩] }) [p] g (g.addRecord p i) :=
  .update p g (fun _ => rfl) fun _ h => ⟨h.key, h.successors⟩

theorem edits_addUnresolved (p : Path) (specifier : Bytes) (e : Error) :
    Edits p id [p] g (g.addUnresolved p specifier e) :=
  .hidden p p g (fun _ => rfl) fun _ h => ⟨h.key, h.successors⟩

theorem edits_markFailed (p : Path) :
    Edits p (fun n => { n with failed := true }) [p] g (g.markFailed p) :=
  .update p g (fun _ => rfl) fun _ h => ⟨h.key, h.successors⟩

theorem edits_markEntry (p : Path) :
    Edits p (fun n => { n with entry := true }) [p] g (g.markEntry p) :=
  .update p g (fun _ => rfl) fun _ h => ⟨h.key, h.successors⟩

theorem edits_addEdge (a : Path) (specifier : Bytes) (b : Path) :
    Edits a (Node.withEdges [⟨specifier, b⟩]) [b, a] g (g.addEdge a specifier b) := by
  have hleave : Edits a (Node.withEdges [⟨specifier, b⟩]) ([b] ++ [a]) g
      ((g.addModule b).update a (Node.withEdges [⟨specifier, b⟩])) := by
    have hedge : Edits a (Node.withEdges [⟨specifier, b⟩]) [a] (g.addModule b)
        ((g.addModule b).update a (Node.withEdges [⟨specifier, b⟩])) :=
      .update a _ (fun _ => rfl) fun _ h => ⟨h.key, h.successors.add b⟩
    exact (edits_addModule g a b).trans hedge
  have heq : g.addEdge a specifier b =
      if g.hasEdge a b then (g.addModule b).update a (Node.withEdges [⟨specifier, b⟩])
      else { ((g.addModule b).update a (Node.withEdges [⟨specifier, b⟩])).update b
        (fun n => { n with predecessors := n.predecessors.add a }) with
          edgeCount := ((g.addModule b).update a (Node.withEdges [⟨specifier, b⟩])).edgeCount + 1 } :=
    rfl
  rw [heq]
  split
  · exact hleave
  · -- the other end of the edge is changed too, where the core does not show it
    have harrive := hleave.trans (.hidden a b _
      (f := fun n => { n with predecessors := n.predecessors.add a })
      (fun _ => rfl) fun _ h => ⟨h.key, h.successors⟩)
    refine Edits.congr (harrive.of_nodes rfl) (fun _ => rfl) (fun q hq => .inl ?_) fun q hq => ?_
    · rcases List.mem_append.mp hq with hq | hq
      · exact hq
      · exact List.mem_cons.mpr (.inl (List.mem_singleton.mp hq))
    · exact List.mem_append_left _ hq

/-! ### Linking -/

/-- A node whose requests see what `g` has for their targets. -/
def linkedNode (n : Node) : Node := { n with records := n.records.map (g.linkRecord n) }

/-- The interface that a request of a node leads to, if all targets of its edges
have nodes. -/
theorem targetOf_bind {n : Node} (hn : ∀ e ∈ n.edges, e.target.key ∈ g.nodes) (specifier : Bytes) :
    (g.targetOf n specifier).bind Node.target? =
      (n.edges.find? fun e => e.specifier = specifier).bind fun e =>
        (g.core e.target.key).target? := by
  have hfind (es : List Edge) (hes : ∀ e ∈ es, e.target.key ∈ g.nodes) :
      (es.findSome? fun e => g.find? e.target) = es.head?.bind fun e => g.find? e.target := by
    cases es with
    | nil => rfl
    | cons e rest =>
      obtain ⟨m, hm⟩ := Option.isSome_iff_exists.mp
        (Std.TreeMap.isSome_getElem?_iff_mem.mpr (hes e List.mem_cons_self))
      have hm : g.find? e.target = some m := hm
      simp [hm]
  rw [targetOf, hfind _ fun e he => hn e (List.mem_of_mem_filter he), List.head?_filter,
    Option.bind_assoc]
  simp only [target?_core]

variable {g}

/-- What requests lead to depends on which nodes there are, and on their last
records. -/
theorem targetOf_congr {g' : ModuleGraph} (hmem : ∀ k, k ∈ g.nodes ↔ k ∈ g'.nodes)
    (htarget : ∀ k, (g.core k).target? = (g'.core k).target?) (n : Node) (specifier : Bytes) :
    (g.targetOf n specifier).bind Node.target? = (g'.targetOf n specifier).bind Node.target? := by
  unfold targetOf
  generalize n.edges.filter (fun e => e.specifier = specifier) = es
  induction es with
  | nil => rfl
  | cons e rest ih =>
    have hsame : (g.find? e.target).bind Node.target? = (g'.find? e.target).bind Node.target? := by
      rw [target?_core, target?_core, htarget]
    have hsome : (g.find? e.target).isSome = (g'.find? e.target).isSome := by
      rw [Bool.eq_iff_iff]
      exact Std.TreeMap.isSome_getElem?_iff_mem.trans
        ((hmem _).trans Std.TreeMap.isSome_getElem?_iff_mem.symm)
    rw [List.findSome?_cons, List.findSome?_cons]
    cases hg : g.find? e.target with
    | none =>
      obtain hg' : g'.find? e.target = none := by simpa [hg] using hsome
      rw [hg']
      exact ih
    | some m =>
      rw [hg] at hsome
      obtain ⟨m', hm'⟩ := Option.isSome_iff_exists.mp hsome.symm
      rw [hm']
      rw [hg, hm'] at hsame
      exact hsame

theorem linkedNode_congr {g' : ModuleGraph} (hmem : ∀ k, k ∈ g.nodes ↔ k ∈ g'.nodes)
    (htarget : ∀ k, (g.core k).target? = (g'.core k).target?) (n : Node) :
    g.linkedNode n = g'.linkedNode n := by
  have hrecord : g.linkRecord n = g'.linkRecord n :=
    funext fun r => by simp only [linkRecord, targetOf_congr hmem htarget]
  rw [linkedNode, hrecord, linkedNode]

variable (g)

theorem target?_linkedNode (n : Node) : (g.linkedNode n).target? = n.target? := by
  simp only [Node.target?, linkedNode, List.getLast?_map, Option.map_map]
  rfl

theorem edits_link (p : Path) : Edits p g.linkedNode [] g (g.link p) := by
  cases hp : g.find? p with
  | none =>
    have hblank : g.core p.key = Node.blank := by rw [core_eq, hp]; rfl
    have hlink : g.link p = g := by rw [link, hp]
    rw [hlink]
    refine ⟨fun k => ?_, fun k => by simp, id⟩
    split
    · rename_i hk
      rw [← hk, hblank]
      rfl
    · rfl
  | some n =>
    have hlink : g.link p = g.update p fun _ => g.linkedNode n := by rw [link, hp]; rfl
    rw [hlink]
    have hat : Edits p g.linkedNode [p] g (g.update p fun _ => g.linkedNode n) :=
      .update_at p g (by rw [hp]; rfl) rfl fun h => ⟨h.key, h.successors⟩
    refine hat.drop fun q hq => ?_
    rw [List.mem_singleton.mp hq]
    exact Std.TreeMap.isSome_getElem?_iff_mem.mp (Option.isSome_iff_exists.mpr ⟨n, hp⟩)

/-- Modules that are linked one after the other see what they would see alone. -/
theorem core_links {paths : List Path} (h : (paths.map Path.key).Nodup) (k : Path.Key) :
    (paths.foldl link g).core k =
      if k ∈ paths.map Path.key then g.linkedNode (g.core k) else g.core k := by
  induction paths generalizing g with
  | nil => simp
  | cons p rest ih =>
    rw [List.map_cons, List.nodup_cons] at h
    have hp := edits_link g p
    have htarget (k : Path.Key) : ((g.link p).core k).target? = (g.core k).target? := by
      rw [hp.core]
      split
      · exact target?_linkedNode g _
      · rfl
    have hmem (k : Path.Key) : k ∈ (g.link p).nodes ↔ k ∈ g.nodes := by simp [hp.mem]
    rw [List.foldl_cons, ih _ h.2, linkedNode_congr hmem htarget, hp.core, List.map_cons]
    by_cases hk : p.key = k
    · have hrest : k ∉ rest.map Path.key := hk ▸ h.1
      rw [if_neg hrest, if_pos hk, if_pos (by rw [← hk]; exact List.mem_cons_self)]
    · have hcons : k ∈ p.key :: rest.map Path.key ↔ k ∈ rest.map Path.key := by
        rw [List.mem_cons]
        exact ⟨fun h => h.resolve_left (Ne.symm hk), .inr⟩
      simp only [hcons, if_neg hk]

theorem mem_links (paths : List Path) (k : Path.Key) :
    k ∈ (paths.foldl link g).nodes ↔ k ∈ g.nodes := by
  induction paths generalizing g with
  | nil => rfl
  | cons p rest ih =>
    rw [List.foldl_cons, ih, (edits_link g p).mem]
    simp

variable {g} in
theorem Proper.links (h : g.Proper) (paths : List Path) : (paths.foldl link g).Proper := by
  induction paths generalizing g with
  | nil => exact h
  | cons p rest ih => exact ih ((edits_link g p).proper h)

/-! ### Dropping edges -/

theorem edits_dropPredecessor (p a b : Path) : Edits p id [b] g (g.dropPredecessor a b) :=
  (Edits.hidden p b g (f := fun n => { n with predecessors := n.predecessors.erase a.key })
    (fun _ => rfl) fun _ h => ⟨h.key, h.successors⟩).of_nodes rfl

theorem edits_dropPredecessors (p a : Path) (paths : List Path) :
    Edits p id paths g (paths.foldl (fun g b => g.dropPredecessor a b) g) := by
  induction paths generalizing g with
  | nil => exact .refl p g
  | cons b rest ih => exact (edits_dropPredecessor g p a b).trans (ih _)

/-- Where all successors have nodes, dropping the edges makes no new ones. -/
theorem edits_releaseEdges (p : Path) (h : ∀ b ∈ g.successors p, b.key ∈ g.nodes) :
    Edits p Node.released [] g (g.releaseEdges p) := by
  cases hp : g.find? p with
  | none =>
    have hblank : g.core p.key = Node.blank := by rw [core_eq, hp]; rfl
    have hrelease : g.releaseEdges p = g := by rw [releaseEdges, hp]
    rw [hrelease]
    refine ⟨fun k => ?_, fun k => by simp, id⟩
    split
    · rename_i hk
      rw [← hk, hblank]
      rfl
    · rfl
  | some n =>
    have hmem : p.key ∈ g.nodes :=
      Std.TreeMap.isSome_getElem?_iff_mem.mp (Option.isSome_iff_exists.mpr ⟨n, hp⟩)
    have hpaths : g.successors p = n.successors.paths := by rw [successors, hp]
    have hleave (g' : ModuleGraph) : Edits p Node.released [p] g' (g'.update p fun n =>
        { n with successors := ∅, edges := [], edgesReleased := true }) :=
      .update p g' (fun _ => rfl) fun _ h => ⟨h.key, Path.Set.proper_empty⟩
    have hrelease : g.releaseEdges p =
        ((Path.Set.paths n.successors).foldl (fun g b => g.dropPredecessor p b) g).update p
          fun n => { n with successors := ∅, edges := [], edgesReleased := true } := by
      rw [releaseEdges, hp]
    rw [hrelease, ← hpaths]
    refine ((edits_dropPredecessors g p p _).trans (hleave _)).drop fun q hq => ?_
    rcases List.mem_append.mp hq with hq | hq
    · exact h q hq
    · rw [List.mem_singleton.mp hq]
      exact hmem

/-- The second graph is the first one with edges dropped. -/
structure Releases (g g' : ModuleGraph) : Prop where
  core : ∀ k, g'.core k = g.core k ∨ g'.core k = (g.core k).released
  mem : ∀ k, k ∈ g'.nodes ↔ k ∈ g.nodes
  proper : g'.Proper
  dispatched : g'.dispatched = g.dispatched

/-- Successors have nodes. -/
def Closed : Prop := ∀ (a b : Path.Key), b ∈ (g.core a).successors → b ∈ g.nodes

variable {g}

theorem mem_successors (h : g.Proper) (p : Path) (k : Path.Key) :
    (∃ b ∈ g.successors p, b.key = k) ↔ k ∈ (g.core p.key).successors := by
  rw [successors_eq, ← List.mem_map, Path.Set.keys_paths (h.successors p.key),
    Std.TreeMap.mem_keys]

theorem dispatched_link (g : ModuleGraph) (p : Path) : (g.link p).dispatched = g.dispatched := by
  unfold link
  split <;> rfl

theorem dispatched_releaseEdges (g : ModuleGraph) (p : Path) :
    (g.releaseEdges p).dispatched = g.dispatched := by
  have hfold (paths : List Path) (g : ModuleGraph) :
      (paths.foldl (fun g b => g.dropPredecessor p b) g).dispatched = g.dispatched := by
    induction paths generalizing g with
    | nil => rfl
    | cons b rest ih => exact ih _
  unfold releaseEdges
  split
  · rfl
  · exact hfold _ g

theorem Releases.refl (h : g.Proper) : Releases g g := ⟨fun _ => .inl rfl, fun _ => Iff.rfl, h, rfl⟩

theorem Releases.closed {g' : ModuleGraph} (h : Releases g g') (hg : g.Closed) : g'.Closed := by
  intro a b hb
  rw [h.mem]
  rcases h.core a with ha | ha
  · exact hg a b (ha ▸ hb)
  · rw [ha] at hb
    exact absurd hb Std.TreeMap.not_mem_emptyc

theorem Releases.releaseEdges {g g' : ModuleGraph} (h : Releases g g') (hg : g.Closed) (p : Path) :
    Releases g (g'.releaseEdges p) := by
  have hp := edits_releaseEdges g' p fun b hb =>
    h.closed hg p.key b.key ((mem_successors h.proper p b.key).mp ⟨b, hb, rfl⟩)
  refine ⟨fun k => ?_, fun k => ?_, hp.proper h.proper, ?_⟩
  · rw [hp.core]
    split
    · right
      rcases h.core k with hk | hk
      · rw [hk]
      · rw [hk]; rfl
    · exact h.core k
  · rw [hp.mem, h.mem]
    simp
  · rw [dispatched_releaseEdges, h.dispatched]

end ModuleGraph

end ScriptLint
