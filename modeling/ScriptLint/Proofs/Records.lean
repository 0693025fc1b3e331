/-
What a message says of a module, and what linking makes of it.

The records of a message agree on what a specifier resolves to.  Once the modules that a
batch leads to have been received, linking a module of the batch gives each of its records
exactly what the requests of that record lead to:

* **`Linter.Answers.resolving`** — the segments of a module agree on what a specifier
  resolves to;
* **`ModuleGraph.find?_linkRecord`** — linking finds for a request the last record of
  the first target that has a node;
* **`ModuleGraph.Links`** — the records of a module see what its requests lead to;
* **`ModuleGraph.Leads.links`** — linking a batch links its modules.
-/
import ScriptLint.Proofs.Closure
import ScriptLint.Proofs.Counters

namespace ScriptLint

variable {σ : Type}

/-! ### What messages say -/

namespace LoadSettings

variable (s : LoadSettings)

theorem records_settle (m : Module) (text : Bytes) (lease : Arena.Lease) (r : Resources σ) :
    (s.settle m text lease r).1.records = m.records := by
  unfold settle
  split <;> rfl

variable [FileStore σ]

/-- A text has its segments, or cannot be cut. -/
theorem records_ofText (files : σ) (path : Path) (entry : Bool) (form : FileForm) (text : Bytes) :
    (∃ d, (s.ofText files path entry form text).records = [.error d]) ∨
      ∃ (composite : Bool) (segments : List Segment), (s.ofText files path entry form text).records =
        segments.zipIdx.map fun x => (s.part files path entry composite x.2 x.1).outcome := by
  unfold ofText
  split
  · exact .inl ⟨_, rfl⟩
  · rename_i segments _
    right
    refine ⟨!isWhole text segments, segments, ?_⟩
    simp only [Module.records, List.map_map]
    rfl

/-- The interface of a segment has its place. -/
theorem interface_part {files : σ} {path : Path} {entry composite : Bool} {index : Nat}
    {segment : Segment} {i : Interface}
    (h : recordInterface? (s.part files path entry composite index segment).outcome = some i) :
    i.path = path ∧ i.segment = index := by
  simp only [part] at h
  cases hparse : segment.parse with
  | error f => simp [hparse, recordInterface?] at h
  | ok script =>
    simp only [hparse, recordInterface?, Option.some.injEq] at h
    subst h
    split <;> exact ⟨rfl, rfl⟩

/-- The resolutions of a segment that can be read are the ones of its requests. -/
theorem resolutions_part {files : σ} {path : Path} {entry composite : Bool} {index : Nat}
    {segment : Segment} {extract : Extract}
    (h : (s.part files path entry composite index segment).outcome = .ok extract) :
    extract.resolutions = s.resolutions files extract.interface := by
  simp only [part] at h
  cases hparse : segment.parse with
  | error f => simp [hparse] at h
  | ok script =>
    simp only [hparse, Except.ok.injEq] at h
    rw [← h]

/-- A resolution that succeeded is what the resolver says. -/
theorem resolve_of_mem_resolutions {files : σ} {i : Interface} {r : Resolution} {e : Edge}
    (hr : r ∈ s.resolutions files i) (hedge : r.edge? = some e) :
    ∃ resolver, s.resolver = some resolver ∧
      resolver.resolve (FileStore.isFile files) i.path.parent e.specifier = .ok e.target := by
  unfold resolutions at hr
  cases hresolver : s.resolver with
  | none => simp [hresolver] at hr
  | some resolver =>
    simp only [hresolver] at hr
    obtain ⟨request, hrequest, rfl⟩ := List.mem_map.mp hr
    refine ⟨resolver, rfl, ?_⟩
    simp only [Resolution.edge?] at hedge
    cases hresolve : resolver.resolve (FileStore.isFile files) i.path.parent request.specifier with
    | error f => simp [hresolve, Except.mapError, Except.toOption] at hedge
    | ok target =>
      simp only [hresolve, Except.mapError, Except.toOption, Option.map_some,
        Option.some.injEq] at hedge
      rw [← hedge]
      exact hresolve

/-- The edges of a segment are what the resolver says. -/
theorem edges_part {files : σ} {path : Path} {entry composite : Bool} {index : Nat}
    {segment : Segment} {e : Edge}
    (h : e ∈ recordEdges (s.part files path entry composite index segment).outcome) :
    ∃ resolver, s.resolver = some resolver ∧
      resolver.resolve (FileStore.isFile files) path.parent e.specifier = .ok e.target := by
  cases houtcome : (s.part files path entry composite index segment).outcome with
  | error d => simp [houtcome, recordEdges] at h
  | ok extract =>
    have hinterface : extract.interface.path = path :=
      (s.interface_part (i := extract.interface) (by rw [houtcome]; rfl)).1
    rw [houtcome, recordEdges, s.resolutions_part houtcome] at h
    obtain ⟨r, hr, hedge⟩ := List.mem_filterMap.mp h
    rw [← hinterface]
    exact s.resolve_of_mem_resolutions hr hedge

end LoadSettings

namespace Linter.Answers

variable [FileStore σ] {l : Linter} {m : Module}

/-- A message has the segments of a file, or at most one problem. -/
theorem records (h : l.Answers σ m) : m.records = [] ∨ (∃ d, m.records = [.error d]) ∨
    ∃ (files : σ) (composite : Bool) (segments : List Segment), m.records =
      segments.zipIdx.map fun x => (l.loading.part files m.path (l.entries.contains m.path)
        composite x.2 x.1).outcome := by
  obtain ⟨r, hload | ⟨mishap, -, hbroken⟩⟩ := h
  · unfold LoadSettings.load at hload
    cases hform : l.loading.loaders.find? m.path.extension with
    | none =>
      left
      cases hkeep : l.loading.keeps (l.entries.contains m.path) <;>
        simp only [hform, hkeep, Bool.false_eq_true, if_true, if_false, Except.ok.injEq] at hload <;>
        rw [← hload] <;> rfl
    | some form =>
      right
      simp only [hform] at hload
      generalize FileStore.read m.path r.files = answer at hload
      obtain ⟨outcome, files⟩ := answer
      rcases outcome with (e | reason) | text
      · left
        simp only [Except.ok.injEq] at hload
        rw [← hload, LoadSettings.records_settle]
        exact ⟨_, rfl⟩
      · simp at hload
      · simp only [Except.ok.injEq] at hload
        have hrecords := l.loading.records_ofText files m.path (l.entries.contains m.path) form text
        rw [← LoadSettings.records_settle l.loading _ text _ _, hload] at hrecords
        exact hrecords.imp id fun ⟨composite, segments, heq⟩ => ⟨files, composite, segments, heq⟩
  · right; left
    rw [hbroken]
    exact ⟨_, rfl⟩

/-- **The segments of a module agree on what a specifier resolves to.** -/
theorem resolving (h : l.Answers σ m) :
    ∃ resolve : Bytes → Option Path, ∀ e ∈ m.edges, resolve e.specifier = some e.target := by
  rcases h.records with hnone | ⟨d, hd⟩ | ⟨files, composite, segments, hsegments⟩
  · exact ⟨fun _ => none, by simp [Module.edges, hnone]⟩
  · exact ⟨fun _ => none, by simp [Module.edges, hd, recordEdges]⟩
  · refine ⟨fun specifier => l.loading.resolver.bind fun resolver =>
      (resolver.resolve (FileStore.isFile files) m.path.parent specifier).toOption, ?_⟩
    intro e he
    rw [Module.edges, hsegments] at he
    obtain ⟨o, ho, he⟩ := List.mem_flatMap.mp he
    obtain ⟨x, hx, rfl⟩ := List.mem_map.mp ho
    obtain ⟨resolver, hresolver, hresolve⟩ := l.loading.edges_part he
    show l.loading.resolver.bind _ = _
    rw [hresolver, Option.bind_some, hresolve]
    rfl

/-- The segments of a module have different numbers. -/
theorem nodup_segments (h : l.Answers σ m) : (m.interfaces.map Interface.segment).Nodup := by
  rcases h.records with hnone | ⟨d, hd⟩ | ⟨files, composite, segments, hsegments⟩
  · rw [Module.interfaces, hnone]
    exact List.nodup_nil
  · rw [Module.interfaces, hd]
    exact List.nodup_nil
  · rw [Module.interfaces, hsegments, List.filterMap_map]
    have hindices : segments.zipIdx.Pairwise fun x y => x.2 ≠ y.2 := by
      refine List.pairwise_map.mp ?_
      rw [List.zipIdx_map_snd]
      exact List.nodup_range'
    refine List.pairwise_map.mpr (hindices.filterMap _ fun x y hxy i hi j hj => ?_)
    rw [(l.loading.interface_part hi).2, (l.loading.interface_part hj).2]
    exact hxy

end Linter.Answers

/-! ### What linking finds -/

/-- What requests lead to, one after the other, each in place of an earlier one for the
same specifier. -/
def Table.collect {α : Type} (target : Bytes → Option α) (requests : List Request)
    (table : Table α) : Table α :=
  requests.foldl (fun table request =>
    (target request.specifier).elim table (table.insert request.specifier)) table

theorem Table.find?_collect {α : Type} (target : Bytes → Option α) (specifier : Bytes)
    (requests : List Request) (table : Table α) :
    find? specifier (collect target requests table) =
      if specifier ∈ requests.map Request.specifier then
        (target specifier).or (find? specifier table)
      else find? specifier table := by
  induction requests generalizing table with
  | nil => rfl
  | cons request rest ih =>
    rw [collect, List.foldl_cons, ← collect, ih, List.map_cons]
    by_cases hhead : specifier = request.specifier
    · have hmem : specifier ∈ request.specifier :: rest.map Request.specifier :=
        List.mem_cons.mpr (.inl hhead)
      rw [if_pos hmem, hhead]
      cases target request.specifier with
      | none => simp
      | some i => simp [Table.find?_insert]
    · have hmem : specifier ∈ request.specifier :: rest.map Request.specifier ↔
          specifier ∈ rest.map Request.specifier := by simp [hhead]
      have htable : find? specifier ((target request.specifier).elim table
          (table.insert request.specifier)) = table.find? specifier := by
        cases target request.specifier with
        | none => rfl
        | some value => exact (Table.find?_insert _ _ _ _).trans (if_neg hhead)
      rw [htable]
      exact if_congr hmem.symm rfl rfl

namespace ModuleGraph

/-- Of the requests of a segment those are linked that lead to a record. -/
theorem find?_linkRecord (g : ModuleGraph) (n : Node) (i : Interface) (specifier : Bytes) :
    (g.linkRecord n ⟨i, []⟩).loaded.find? specifier =
      if specifier ∈ i.requests.map Request.specifier then
        (g.targetOf n specifier).bind Node.target?
      else none := by
  have hcollect : (g.linkRecord n ⟨i, []⟩).loaded =
      Table.collect (fun specifier => (g.targetOf n specifier).bind Node.target?) i.requests [] := by
    refine congrArg (fun f => i.requests.foldl f []) ?_
    funext table request
    dsimp only
    cases (g.targetOf n request.specifier).bind Node.target? <;> rfl
  rw [hcollect, Table.find?_collect]
  show (if _ then Option.or _ none else none) = _
  rw [Option.or_none]

/-- Where keys are distinct, an item is found by its key. -/
theorem find?_of_nodup {α κ : Type} [DecidableEq κ] (key : α → κ) {items : List α}
    (h : (items.map key).Nodup) {a : α} (ha : a ∈ items) : items.find? (fun b => key b = key a) = some a := by
  induction items with
  | nil => exact absurd ha List.not_mem_nil
  | cons b rest ih =>
    rw [List.map_cons, List.nodup_cons] at h
    rcases List.mem_cons.mp ha with rfl | ha
    · simp
    · have hne : key b ≠ key a := fun heq => h.1 (heq ▸ List.mem_map_of_mem ha)
      rw [List.find?_cons_of_neg (by simpa using hne), ih h.2 ha]

/-- The records that the graph has for a path. -/
def recordsOf (g : ModuleGraph) (p : Path) : List Record := ((g.find? p).map Node.records).getD []

end ModuleGraph

/-- A specifier resolves to a target, in some segment of the module that could be read. -/
def Module.Resolves (m : Module) (specifier : Bytes) (target : Path) : Prop :=
  ∃ e, .ok e ∈ m.records ∧ ∃ r ∈ e.resolutions, r.specifier = specifier ∧ r.outcome = .ok target

theorem Module.resolves_iff {m : Module} {specifier : Bytes} {target : Path} :
    m.Resolves specifier target ↔ (⟨specifier, target⟩ : Edge) ∈ m.edges := by
  rw [edges, List.mem_flatMap]
  constructor
  · rintro ⟨e, he, r, hr, rfl, houtcome⟩
    refine ⟨.ok e, he, List.mem_filterMap.mpr ⟨r, hr, ?_⟩⟩
    rw [Resolution.edge?, houtcome]
    rfl
  · rintro ⟨o, ho, hedge⟩
    cases o with
    | error d => simp [recordEdges] at hedge
    | ok e =>
      obtain ⟨r, hr, hr'⟩ := List.mem_filterMap.mp hedge
      refine ⟨e, ho, r, hr, ?_⟩
      unfold Resolution.edge? at hr'
      cases houtcome : r.outcome with
      | error e => simp [houtcome, Except.toOption] at hr'
      | ok t =>
        simp only [houtcome, Except.toOption, Option.map_some, Option.some.injEq,
          Edge.mk.injEq] at hr'
        exact ⟨hr'.1, by rw [hr'.2]⟩

/-- **The records of a module see what its requests lead to**: of the received modules the
one that the request resolves to, and of that the last segment that could be read. -/
structure ModuleGraph.Links (received : List Module) (m : Module) (g : ModuleGraph) : Prop where
  /-- There is a record for each segment that could be read. -/
  interfaces : (g.recordsOf m.path).map Record.interface = m.interfaces
  /-- A record sees an interface exactly where a request of its own leads to it. -/
  loaded : ∀ r ∈ g.recordsOf m.path, ∀ specifier i, r.loaded.find? specifier = some i ↔
    specifier ∈ r.interface.requests.map Request.specifier ∧
      ∃ target, m.Resolves specifier target ∧
        ∃ t ∈ received, t.path.key = target.key ∧ t.interfaces.getLast? = some i
  /-- The analysis of a segment is given the record of that segment. -/
  shown : ∀ r ∈ g.recordsOf m.path, Analyzing.links g m.path r.interface.segment = r.loaded

/-! ### What the graph has -/

namespace ModuleGraph

/-- The graph has the records of the received modules, and nothing of others. -/
structure Remembers (received : List Module) (g : ModuleGraph) : Prop where
  records : ∀ m ∈ received, (g.core m.path.key).records.map Record.interface = m.interfaces
  blank : ∀ k, k ∉ received.map (fun m => m.path.key) → g.core k = Node.blank

/-- The graph has the modules of a batch with their edges, and nodes for the targets, which
were handed out. -/
structure Leads (batch : List Module) (g : ModuleGraph) : Prop where
  node : ∀ m ∈ batch, g.core m.path.key = m.node
  targets : ∀ m ∈ batch, ∀ t ∈ m.targets, t.key ∈ g.nodes ∧ t.key ∈ g.dispatched

namespace Remembers

variable {received : List Module} {g g' : ModuleGraph}

/-- A module is received under a new key. -/
theorem receive (h : Remembers received g) {m : Module}
    (hnew : m.path.key ∉ received.map fun m => m.path.key)
    (hedits : Edits m.path (Closing.absorb m) (m.path :: m.targets) g g') :
    Remembers (received ++ [m]) g' ∧ g'.core m.path.key = m.node := by
  have hcore : g'.core m.path.key = m.node := by
    rw [hedits.core, if_pos rfl, h.blank _ hnew, Closing.absorb_blank]
  refine ⟨⟨fun n hn => ?_, fun k hk => ?_⟩, hcore⟩
  · rcases List.mem_append.mp hn with hn | hn
    · have hne : m.path.key ≠ n.path.key := by
        intro hkey
        exact hnew (hkey ▸ List.mem_map_of_mem hn)
      rw [hedits.core, if_neg hne]
      exact h.records n hn
    · rw [List.mem_singleton.mp hn, hcore]
      simp [Module.node, Function.comp_def]
  · rw [List.map_append, List.mem_append, not_or] at hk
    have hne : m.path.key ≠ k := fun hkey => hk.2 (by simp [hkey])
    rw [hedits.core, if_neg hne, h.blank k hk.1]

/-- What does not change the interfaces of nodes, and makes none, does not matter. -/
theorem congr (h : Remembers received g)
    (hrecords : ∀ k, (g'.core k).records.map Record.interface =
      (g.core k).records.map Record.interface)
    (hblank : ∀ k, g.core k = Node.blank → g'.core k = Node.blank) : Remembers received g' where
  records m hm := (hrecords _).trans (h.records m hm)
  blank k hk := hblank k (h.blank k hk)

theorem of_nodes (h : Remembers received g) (hnodes : g'.nodes = g.nodes) :
    Remembers received g' := by
  have hcore (k : Path.Key) : g'.core k = g.core k := by rw [core, hnodes, core]
  exact h.congr (fun k => by rw [hcore]) fun k hk => by rw [hcore, hk]

/-- Linking does not change what interfaces there are. -/
theorem links (h : Remembers received g) {paths : List Path} (hpaths : (paths.map Path.key).Nodup) :
    Remembers received (paths.foldl link g) := by
  refine h.congr (fun k => ?_) fun k hk => ?_
  · rw [core_links g hpaths]
    split
    · simp [linkedNode, linkRecord, Function.comp_def]
    · rfl
  · rw [core_links g hpaths, hk]
    split <;> rfl

/-- Nor does taking edges back. -/
theorem releaseDependency (h : Remembers received g) (p : Path) :
    Remembers received (g.releaseDependency p) := by
  -- the nodes at the other ends change where the core does not show it
  have hdrop (paths : List Path) (g : ModuleGraph) (k : Path.Key) :
      (paths.foldl (fun g b => g.dropPredecessor p b) g).core k = g.core k := by
    rw [(edits_dropPredecessors g p p paths).core]
    simp only [id, ite_self]
  have hleave (g : ModuleGraph) : Edits p Node.released [p] g (g.update p fun n =>
      { n with successors := ∅, edges := [], edgesReleased := true }) :=
    .update p g (fun _ => rfl) fun _ h => ⟨h.key, Path.Set.proper_empty⟩
  unfold ModuleGraph.releaseDependency
  split
  · unfold releaseEdges
    split
    · exact h
    · refine h.congr (fun k => ?_) fun k hk => ?_
      · rw [(hleave _).core, hdrop]
        split <;> rfl
      · rw [(hleave _).core, hdrop, hk]
        split <;> rfl
  · exact h

end Remembers

namespace Leads

variable {batch : List Module} {g g' : ModuleGraph}

theorem of_nodes (h : Leads batch g) (hnodes : g'.nodes = g.nodes)
    (hdispatched : ∀ k ∈ g.dispatched, k ∈ g'.dispatched) : Leads batch g' where
  node m hm := by rw [core, hnodes, ← core]; exact h.node m hm
  targets m hm t ht := by
    obtain ⟨hnode, hhanded⟩ := h.targets m hm t ht
    exact ⟨hnodes ▸ hnode, hdispatched _ hhanded⟩

/-- A module is received under a new key. -/
theorem receive (h : Leads batch g) {m : Module}
    (hnew : m.path.key ∉ batch.map fun m => m.path.key) (hcore : g'.core m.path.key = m.node)
    (hedits : Edits m.path (Closing.absorb m) (m.path :: m.targets) g g')
    (hdispatched : ∀ k ∈ g.dispatched, k ∈ g'.dispatched)
    (htargets : ∀ t ∈ m.targets, t.key ∈ g'.dispatched) : Leads (batch ++ [m]) g' where
  node n hn := by
    rcases List.mem_append.mp hn with hn | hn
    · have hne : m.path.key ≠ n.path.key := by
        intro hkey
        exact hnew (hkey ▸ List.mem_map_of_mem hn)
      rw [hedits.core, if_neg hne]
      exact h.node n hn
    · rw [List.mem_singleton.mp hn, hcore]
  targets n hn t ht := by
    rcases List.mem_append.mp hn with hn | hn
    · obtain ⟨hnode, hhanded⟩ := h.targets n hn t ht
      exact ⟨(hedits.mem _).mpr (.inr hnode), hdispatched _ hhanded⟩
    · rw [List.mem_singleton.mp hn] at ht
      exact ⟨(hedits.mem _).mpr (.inl ⟨t, List.mem_cons_of_mem _ ht, rfl⟩), htargets t ht⟩

/-- **When everything that was handed out has been received, linking a batch links it.**
The targets of a module of the batch have been received, in this batch or before, and
their records are there. -/
theorem links [FileStore σ] {l : Linter} {received : List Module} (h : Leads batch g)
    (hremembers : Remembers received g)
    (hreceived : ∀ k ∈ g.dispatched, k ∈ received.map fun m => m.path.key)
    (hpaths : ((batch.map Module.path).map Path.key).Nodup) {m : Module} (hm : m ∈ batch)
    (hanswers : l.Answers σ m) :
    ((batch.map Module.path).foldl link g).Links received m := by
  have hnode := h.node m hm
  have hedges : m.node.edges = m.edges := rfl
  have htargets : ∀ e ∈ m.node.edges, e.target.key ∈ g.nodes := fun e he =>
    (h.targets m hm _ (List.mem_map_of_mem he)).1
  have hrecords : ((batch.map Module.path).foldl link g).recordsOf m.path =
      m.interfaces.map fun i => g.linkRecord m.node ⟨i, []⟩ := by
    rw [recordsOf, records_eq, core_links g hpaths,
      if_pos (List.mem_map_of_mem (List.mem_map_of_mem hm)), hnode, linkedNode]
    simp [Module.node, Function.comp_def]
  -- what a specifier leads to, which all edges for it agree on
  have hlead (specifier : Bytes) (i : Interface) :
      (g.targetOf m.node specifier).bind Node.target? = some i ↔
        ∃ target, m.Resolves specifier target ∧
          ∃ t ∈ received, t.path.key = target.key ∧ t.interfaces.getLast? = some i := by
    obtain ⟨resolve, hresolve⟩ := hanswers.resolving
    have hlast (t : Module) (ht : t ∈ received) :
        (g.core t.path.key).target? = t.interfaces.getLast? := by
      rw [Node.target?, ← hremembers.records t ht, List.getLast?_map]
    rw [targetOf_bind g htargets, hedges]
    constructor
    · intro hfound
      obtain ⟨e, he, htarget⟩ := Option.bind_eq_some_iff.mp hfound
      have hmem : e ∈ m.edges := List.mem_of_find?_eq_some he
      obtain rfl : e.specifier = specifier := by simpa using List.find?_some he
      -- the target was handed out, so it was received
      have hhanded := (h.targets m hm e.target (List.mem_map_of_mem hmem)).2
      obtain ⟨t, ht, hkey⟩ := List.mem_map.mp (hreceived _ hhanded)
      refine ⟨e.target, Module.resolves_iff.mpr hmem, t, ht, hkey, ?_⟩
      rw [← hlast t ht, hkey, htarget]
    · rintro ⟨target, hresolves, t, ht, hkey, hi⟩
      have hedge := Module.resolves_iff.mp hresolves
      cases hfind : m.edges.find? (fun e => e.specifier = specifier) with
      | none => exact absurd (by simp) (List.find?_eq_none.mp hfind _ hedge)
      | some e =>
        have hspecifier : e.specifier = specifier := by simpa using List.find?_some hfind
        have hsame := (hresolve e (List.mem_of_find?_eq_some hfind)).symm.trans
          (hspecifier ▸ hresolve _ hedge)
        rw [Option.bind_some, Option.some.inj hsame, ← hkey, hlast t ht, hi]
  refine ⟨?_, fun r hr specifier i => ?_, fun r hr => ?_⟩
  · rw [hrecords, List.map_map]
    exact List.map_id _
  · rw [hrecords] at hr
    obtain ⟨j, hj, rfl⟩ := List.mem_map.mp hr
    rw [find?_linkRecord, ← hlead]
    show _ ↔ specifier ∈ j.requests.map Request.specifier ∧ _
    split
    · rename_i hrequested
      exact (and_iff_right hrequested).symm
    · rename_i hrequested
      exact iff_of_false (by simp) fun h => hrequested h.1
  · rw [hrecords] at hr
    have hcore : (((batch.map Module.path).foldl link g).core m.path.key).records =
        m.interfaces.map fun i => g.linkRecord m.node ⟨i, []⟩ := by
      rw [← records_eq]
      exact hrecords
    rw [Knows.links_eq _ hcore, find?_of_nodup (fun r : Record => r.interface.segment) _ hr]
    · rfl
    · rw [List.map_map]
      exact hanswers.nodup_segments

end Leads

end ModuleGraph

end ScriptLint
