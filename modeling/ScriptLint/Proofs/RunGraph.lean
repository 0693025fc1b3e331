/-
The graph in the course of a run.

`ModuleGraph.Knows` says what the graph knows when some modules have been received:
their interfaces, whether they failed and whether they are entries, and of their
edges no other ones than the files have.  The modules of the batch that is being
closed have all their edges.  When the batch is closed and linked, the graph shows
each of its modules what the files say:

* **`ModuleGraph.Knows.receive`**, **`ModuleGraph.Knows.links`**,
  **`ModuleGraph.Knows.releases`** — what a run does to the graph keeps this;
* **`ModuleGraph.Knows.shows`** — a module that leads back to a module of the batch
  is itself in the batch, so that its edges have not been dropped yet.
-/
import ScriptLint.Proofs.Receiving

namespace ScriptLint

open Relation (ReflTransGen)

/-- A node that knows a module, perhaps without all of its edges. -/
structure Node.Knows (n : Node) (m : Module) : Prop where
  interfaces : n.records.map Record.interface = m.interfaces
  failed : n.failed = m.failed
  entry : n.entry = m.entry
  sound : ∀ k, k ∈ n.successors → k ∈ m.targets.map Path.key

theorem Module.mem_successors_node (m : Module) (k : Path.Key) :
    k ∈ m.node.successors ↔ k ∈ m.targets.map Path.key := by
  rw [node, Path.Set.mem_foldl_add, List.mem_map]
  exact or_iff_left Std.TreeMap.not_mem_emptyc

theorem Module.knows_node (m : Module) : m.node.Knows m where
  interfaces := by simp [node, Function.comp_def]
  failed := rfl
  entry := rfl
  sound k hk := (m.mem_successors_node k).mp hk

namespace ModuleGraph

variable (l : Linter) (files : MemoryFiles)

/-- The graph when the given modules have been received. -/
structure Knows (received : List Path) (g : ModuleGraph) : Prop where
  proper : g.Proper
  node : ∀ p ∈ received, (g.core p.key).Knows (l.module files p)
  blank : ∀ k, k ∉ received.map Path.key → g.core k = Node.blank
  mem : ∀ k, k ∈ g.nodes ↔ k ∈ received.map Path.key ∨
    ∃ p ∈ received, k ∈ (l.module files p).targets.map Path.key

/-- Everything that the given modules import is among them. -/
def ClosedUnder (paths : List Path) : Prop :=
  ∀ p ∈ paths, ∀ t ∈ (l.module files p).targets, t.key ∈ paths.map Path.key

namespace Knows

variable {l files} {received : List Path} {g : ModuleGraph}

theorem empty : Knows l files [] ModuleGraph.empty where
  proper k n hn := by simp [ModuleGraph.empty] at hn
  node := by simp
  blank k _ := core_of_not_mem _ Std.TreeMap.not_mem_emptyc
  mem k := by simp [ModuleGraph.empty]

/-- The graph may also differ in what is not a node. -/
theorem of_nodes (h : Knows l files received g) {g' : ModuleGraph} (hn : g'.nodes = g.nodes) :
    Knows l files received g' := by
  have hcore (k : Path.Key) : g'.core k = g.core k := by rw [core, hn, core]
  exact ⟨fun k n hk => h.proper k n (by rw [← hn]; exact hk), fun p hp => by
    rw [hcore]; exact h.node p hp, fun k hk => by rw [hcore]; exact h.blank k hk, fun k => by
    rw [hn]; exact h.mem k⟩

/-- The edges of the graph are imports. -/
theorem imports (h : Knows l files received g) {a b : Path.Key} (hab : b ∈ (g.core a).successors) :
    l.Imports files a b := by
  by_cases ha : a ∈ received.map Path.key
  · obtain ⟨p, hp, rfl⟩ := List.mem_map.mp ha
    exact Linter.imports_iff.mpr ((h.node p hp).sound b hab)
  · rw [h.blank a ha] at hab
    exact absurd hab Std.TreeMap.not_mem_emptyc

theorem closed (h : Knows l files received g) : g.Closed := by
  intro a b hab
  by_cases ha : a ∈ received.map Path.key
  · obtain ⟨p, hp, rfl⟩ := List.mem_map.mp ha
    exact (h.mem b).mpr (.inr ⟨p, hp, (h.node p hp).sound b hab⟩)
  · rw [h.blank a ha] at hab
    exact absurd hab Std.TreeMap.not_mem_emptyc

/-- A module is received under a key that was not received before. -/
theorem receive (h : Knows l files received g) {m : Module} {g' : ModuleGraph}
    (hm : m.unleased = l.module files m.path) (hnew : m.path.key ∉ received.map Path.key)
    (hedits : Edits m.path (Closing.absorb m) (m.path :: m.targets) g g') :
    Knows l files (received ++ [m.path]) g' ∧ g'.core m.path.key = (l.module files m.path).node := by
  have hnode : m.node = (l.module files m.path).node := by rw [← hm]; rfl
  have htargets : m.targets = (l.module files m.path).targets := by rw [← hm]; rfl
  have hcore : g'.core m.path.key = (l.module files m.path).node := by
    rw [hedits.core, if_pos rfl, h.blank _ hnew, Closing.absorb_blank, hnode]
  refine ⟨⟨hedits.proper h.proper, fun p hp => ?_, fun k hk => ?_, fun k => ?_⟩, hcore⟩
  · rcases List.mem_append.mp hp with hp | hp
    · have hne : m.path.key ≠ p.key := fun heq => hnew (heq ▸ List.mem_map_of_mem hp)
      rw [hedits.core, if_neg hne]
      exact h.node p hp
    · rw [List.mem_singleton.mp hp, hcore]
      exact Module.knows_node _
  · rw [List.map_append, List.mem_append, not_or] at hk
    have hne : m.path.key ≠ k := fun heq => hk.2 (by simp [heq])
    rw [hedits.core, if_neg hne, h.blank k hk.1]
  · have hmore : (∃ q ∈ m.path :: m.targets, q.key = k) ↔
        k = m.path.key ∨ k ∈ (l.module files m.path).targets.map Path.key := by
      rw [← List.mem_map, List.map_cons, List.mem_cons, htargets]
    have hreceived : k ∈ (received ++ [m.path]).map Path.key ↔
        k ∈ received.map Path.key ∨ k = m.path.key := by
      rw [List.map_append, List.mem_append, List.map_singleton, List.mem_singleton]
    have htarget : (∃ p ∈ received ++ [m.path], k ∈ (l.module files p).targets.map Path.key) ↔
        (∃ p ∈ received, k ∈ (l.module files p).targets.map Path.key) ∨
          k ∈ (l.module files m.path).targets.map Path.key := by
      constructor
      · rintro ⟨p, hp, hk⟩
        rcases List.mem_append.mp hp with hp | hp
        · exact .inl ⟨p, hp, hk⟩
        · exact .inr (List.mem_singleton.mp hp ▸ hk)
      · rintro (⟨p, hp, hk⟩ | hk)
        · exact ⟨p, List.mem_append_left _ hp, hk⟩
        · exact ⟨m.path, List.mem_append_right _ (List.mem_singleton_self _), hk⟩
    rw [hedits.mem, h.mem, hmore, hreceived, htarget]
    constructor
    · rintro ((hk | hk) | hk | hk)
      · exact .inl (.inr hk)
      · exact .inr (.inr hk)
      · exact .inl (.inl hk)
      · exact .inr (.inl hk)
    · rintro ((hk | hk) | hk | hk)
      · exact .inr (.inl hk)
      · exact .inl (.inl hk)
      · exact .inr (.inr hk)
      · exact .inl (.inr hk)

theorem links (h : Knows l files received g) {paths : List Path}
    (hpaths : (paths.map Path.key).Nodup) : Knows l files received (paths.foldl link g) := by
  have hlinked (n : Node) (m : Module) (hn : n.Knows m) : (g.linkedNode n).Knows m :=
    ⟨by rw [← hn.interfaces]; simp [linkedNode, linkRecord], hn.failed, hn.entry, hn.sound⟩
  refine ⟨h.proper.links paths, fun p hp => ?_, fun k hk => ?_, fun k => ?_⟩
  · rw [core_links g hpaths]
    split
    · exact hlinked _ _ (h.node p hp)
    · exact h.node p hp
  · rw [core_links g hpaths, h.blank k hk]
    split <;> rfl
  · rw [mem_links, h.mem]

theorem releases (h : Knows l files received g) {g' : ModuleGraph} (hg : Releases g g') :
    Knows l files received g' := by
  refine ⟨hg.proper, fun p hp => ?_, fun k hk => ?_, fun k => ?_⟩
  · have hn := h.node p hp
    rcases hg.core p.key with hk | hk
    · rw [hk]
      exact hn
    · rw [hk]
      exact ⟨hn.interfaces, hn.failed, hn.entry, fun k hk => absurd hk Std.TreeMap.not_mem_emptyc⟩
  · rcases hg.core k with hcore | hcore
    · rw [hcore, h.blank k hk]
    · rw [hcore, h.blank k hk]
      rfl
  · rw [hg.mem, h.mem]

/-! ### The graph when a batch is closed -/

/-- The interface that importers of a module see is that of its file. -/
theorem target?_eq (h : Knows l files received g) {t : Path} (ht : t.key ∈ received.map Path.key) :
    (g.core t.key).target?.map Interface.keyed = l.shown files t := by
  obtain ⟨q, hq, hkey⟩ := List.mem_map.mp ht
  have hlast : (g.core t.key).target? = (l.module files q).interfaces.getLast? := by
    rw [← hkey, Node.target?, ← (h.node q hq).interfaces, List.getLast?_map]
  rw [hlast, ← List.getLast?_map, ← Linter.shown]
  exact Linter.shown_congr (fun p q hpq => congrArg Module.Keyed.body (l.keyed_module files hpq))
    hkey

/-- A record of a module that is linked sees what its requests lead to. -/
theorem keyed_linkRecord (h : Knows l files received g) (hclosed : ClosedUnder l files received)
    {p : Path} (hp : p ∈ received) (i : Interface) :
    Table.map Interface.keyed (g.linkRecord (l.module files p).node ⟨i, []⟩).loaded =
      l.linkTable files (l.module files p) i.requests := by
  have hnodes : ∀ e ∈ (l.module files p).node.edges, e.target.key ∈ g.nodes := fun e he =>
    (h.mem _).mpr (.inl (hclosed p hp e.target (List.mem_map_of_mem he)))
  have hlead (specifier : Bytes) :
      ((g.targetOf (l.module files p).node specifier).bind Node.target?).map Interface.keyed =
        ((l.module files p).target? specifier).bind (l.shown files) := by
    rw [targetOf_bind g hnodes, Module.target?, Option.bind_map, Option.map_bind]
    have hedges : (l.module files p).node.edges = (l.module files p).edges := rfl
    rw [hedges]
    cases he : (l.module files p).edges.find? (fun e => e.specifier = specifier) with
    | none => rfl
    | some e =>
      have hmem : e.target ∈ (l.module files p).targets :=
        List.mem_map_of_mem (List.mem_of_find?_eq_some he)
      exact h.target?_eq (hclosed p hp _ hmem)
  unfold linkRecord Linter.linkTable
  -- both tables are built request by request
  refine (List.foldl_hom (Table.map Interface.keyed) fun table r => ?_).symm
  rw [← hlead]
  cases (g.targetOf (l.module files p).node r.specifier).bind Node.target? with
  | none => rfl
  | some i => exact (Table.map_insert ..).symm

/-- Where a closed set of modules is entered, it is not left. -/
theorem reach_of_closedUnder {paths : List Path}
    (h : ClosedUnder l files paths) {a b : Path.Key} (ha : a ∈ paths.map Path.key)
    (hab : ReflTransGen (l.Imports files) a b) : b ∈ paths.map Path.key := by
  induction hab with
  | refl => exact ha
  | tail _ hstep ih =>
    obtain ⟨p, hp, rfl⟩ := List.mem_map.mp ih
    obtain ⟨t, ht, rfl⟩ := List.mem_map.mp (Linter.imports_iff.mp hstep)
    exact h p hp t ht

/-- The tables of a module whose records are linked. -/
theorem links_eq {p : Path} {records : List Record} (segment : Nat)
    (hrecords : (g.core p.key).records = records) :
    Analyzing.links g p segment = ((records.find? fun r => r.interface.segment = segment).map
      Record.loaded).getD [] := by
  unfold Analyzing.links
  rw [records_eq, hrecords]
  refine congrArg (Option.getD · []) ?_
  clear hrecords
  induction records with
  | nil => rfl
  | cons r rest ih =>
    rw [List.findSome?_cons, List.find?_cons]
    by_cases hr : r.interface.segment = segment
    · simp [hr]
    · simpa [hr] using ih

/-- **When a batch is closed and linked, the graph shows each of its modules what the
files say.**  What was received before the batch is closed under imports; a module
that leads back to one of the batch is therefore received in the batch, and has all
its edges. -/
theorem shows {prior current : List Path} (h : Knows l files (prior ++ current) g)
    (hcurrent : ∀ p ∈ current, g.core p.key = (l.module files p).node)
    (hnodup : ((prior ++ current).map Path.key).Nodup) (hprior : ClosedUnder l files prior)
    (hclosed : ClosedUnder l files (prior ++ current)) {p : Path} (hp : p ∈ current) :
    (current.foldl link g).Shows l files p := by
  have hcurrentNodup : (current.map Path.key).Nodup := by
    rw [List.map_append] at hnodup
    exact hnodup.of_append_right
  have hlinks := h.links hcurrentNodup
  have hmem : p ∈ prior ++ current := List.mem_append_right _ hp
  have htarget (t : Path) (ht : t ∈ (l.module files p).targets) :
      t.key ∈ (prior ++ current).map Path.key := hclosed p hmem t ht
  have hcore : (current.foldl link g).core p.key = g.linkedNode (l.module files p).node := by
    rw [core_links g hcurrentNodup, if_pos (List.mem_map_of_mem hp), hcurrent p hp]
  refine ⟨hlinks.proper, hlinks.closed, ?_, fun segment => ?_, fun t ht => ?_, fun t ht => ?_,
    fun a b hab => hlinks.imports hab, fun a b hpa hab hbp => ?_⟩
  · exact (hlinks.mem _).mpr (.inl (List.mem_map_of_mem hmem))
  · rw [links_eq segment (congrArg Node.records hcore), Linter.links]
    have hrecords : (g.linkedNode (l.module files p).node).records =
        (l.module files p).interfaces.map fun i =>
          g.linkRecord (l.module files p).node ⟨i, []⟩ := by
      simp [linkedNode, Module.node, Function.comp_def]
    rw [hrecords, List.find?_map]
    have hsegment : ((fun r : Record => decide (r.interface.segment = segment)) ∘ fun i =>
        g.linkRecord (l.module files p).node ⟨i, []⟩) = fun i => decide (i.segment = segment) := rfl
    rw [hsegment]
    cases (l.module files p).interfaces.find? (fun i => decide (i.segment = segment)) with
    | none => rfl
    | some i => exact h.keyed_linkRecord hclosed hmem i
  · exact (hlinks.mem _).mpr (.inl (htarget t ht))
  · obtain ⟨q, hq, hkey⟩ := List.mem_map.mp (htarget t ht)
    rw [← hkey, (hlinks.node q hq).failed]
    exact Module.failed_congr (congrArg Module.Keyed.body (l.keyed_module files hkey))
  · obtain ⟨q, hq, rfl⟩ := List.mem_map.mp
      (reach_of_closedUnder hclosed (List.mem_map_of_mem hmem) hpa)
    have hq : q ∈ current := by
      rcases List.mem_append.mp hq with hq | hq
      · -- from an earlier batch there is no way to a module of this one
        have hpp := reach_of_closedUnder hprior (List.mem_map_of_mem hq) (.head hab hbp)
        rw [List.map_append] at hnodup
        exact (List.disjoint_of_nodup_append hnodup hpp (List.mem_map_of_mem hp)).elim
      · exact hq
    rw [core_links g hcurrentNodup, if_pos (List.mem_map_of_mem hq), hcurrent q hq]
    exact ((l.module files q).mem_successors_node b).mpr (Linter.imports_iff.mp hab)

end Knows

end ModuleGraph

end ScriptLint
