/-
The way from one module to another, however the graph was made.

A search need not carry its ways along.  It can keep modules in its queue and, in a table, which
module every one of them was queued by; the table also says what was queued at all.  At the goal
the way is traced back from module to module until the source is met.  Neither the search nor the
tracing is bounded, and tracing fails at a module that the table does not have.  Still both of
them end, and with the way that `ModuleGraph.findPath` gives:

* **`ModuleGraph.Retraces`**, **`ModuleGraph.Searches`** — such a search, as far as it goes;
* **`ModuleGraph.Trails`** — the ways in the queue of the one search are what the modules in the
  queue of the other one are traced back by;
* **`ModuleGraph.FindsShortest`**, **`ModuleGraph.findPath_built`** — there is a way if the one
  module leads to the other, and then it is a shortest one.
-/
import ScriptLint.Proofs.GraphChanges
import ScriptLint.Proofs.ShortestWays

namespace ScriptLint

open ScriptLint.Path Relation

namespace ModuleGraph

variable {g : ModuleGraph}

/-! ### Parents -/

/-- By which module every module was queued.  What is there for the source does not matter. -/
abbrev Parents := Std.TreeMap Key Path

/-- Going from a module to the one that it was queued by, and so on, comes by these modules and
ends at the source.  A module that was not queued leads nowhere. -/
inductive Retraces (parents : Parents) (source : Path) : Path → List Path → Prop where
  | source {p} (h : p.key = source.key) : Retraces parents source p [p]
  | back {p before way} (hne : p.key ≠ source.key) (hparent : parents[p.key]? = some before)
      (h : Retraces parents source before way) : Retraces parents source p (p :: way)

/-- A module is queued, unless it was before. -/
def enqueue (here : Path) (state : Parents × List Path) (p : Path) : Parents × List Path :=
  if state.1.contains p.key then state else (state.1.insert p.key here, state.2 ++ [p])

/-- Breadth-first search with a table of parents ends with this way, or with none. -/
inductive Searches (g : ModuleGraph) (source goal : Path) :
    Parents × List Path → Option (List Path) → Prop where
  | none (parents) : Searches g source goal (parents, []) .none
  | found {parents here queue way} (hgoal : here.key = goal.key)
      (h : Retraces parents source goal way) :
      Searches g source goal (parents, here :: queue) (some way.reverse)
  | next {parents here queue found} (hne : here.key ≠ goal.key)
      (h : Searches g source goal ((g.successors here).foldl (enqueue here) (parents, queue))
        found) :
      Searches g source goal (parents, here :: queue) found

/-- What the search for a way between two modules ends with. -/
def PathSearch (g : ModuleGraph) (a b : Path) (found : Option (List Path)) : Prop :=
  if g.hasModule a && g.hasModule b then
    g.Searches a b ((∅ : Parents).insert a.key "", [a]) found
  else found = none

namespace Retraces

variable {parents parents' : Parents} {source p q : Path} {way way' : List Path}

theorem unique (h : Retraces parents source p way) (h' : Retraces parents source p way') :
    way = way' := by
  induction h generalizing way' with
  | source hp =>
    cases h' with
    | source => rfl
    | back hne => exact absurd hp hne
  | back hne hparent _ ih =>
    cases h' with
    | source hp => exact absurd hp hne
    | back _ hparent' h' =>
      obtain rfl := Option.some.inj (hparent.symm.trans hparent')
      rw [ih h']

/-- More modules that were queued change nothing. -/
theorem mono (h : Retraces parents source p way)
    (hmore : ∀ (k : Key) (q : Path), parents[k]? = some q → parents'[k]? = some q) :
    Retraces parents' source p way := by
  induction h with
  | source hp => exact .source hp
  | back hne hparent _ ih => exact .back hne (hmore _ _ hparent) ih

/-- Another path of the same module is traced back the same way. -/
theorem of_key (h : Retraces parents source p way) (hkey : p.key = q.key) :
    Retraces parents source q (q :: way.tail) := by
  cases h with
  | source hp => exact .source (hkey ▸ hp)
  | back hne hparent h => exact .back (hkey ▸ hne) (hkey ▸ hparent) h

theorem head?_eq (h : Retraces parents source p way) : way.head? = some p := by
  cases h <;> rfl

end Retraces

theorem Searches.unique {source goal : Path} {state : Parents × List Path}
    {found found' : Option (List Path)} (h : g.Searches source goal state found)
    (h' : g.Searches source goal state found') : found = found' := by
  induction h with
  | none parents => cases h'; rfl
  | found hgoal h =>
    cases h' with
    | found _ h' => rw [h.unique h']
    | next hne => exact absurd hgoal hne
  | next hne _ ih =>
    cases h' with
    | found hgoal => exact absurd hgoal hne
    | next _ h' => exact ih h'

/-- These modules were queued by this one. -/
def adopt (here : Path) (parents : Parents) (paths : List Path) : Parents :=
  paths.foldl (fun parents p => parents.insert p.key here) parents

theorem getElem?_adopt (here : Path) (parents : Parents) (paths : List Path) (k : Key) :
    (adopt here parents paths)[k]? = if k ∈ paths.map key then some here else parents[k]? := by
  rw [adopt]
  induction paths generalizing parents with
  | nil => rfl
  | cons p rest ih =>
    rw [List.foldl_cons, ih, List.map_cons]
    simp only [Std.TreeMap.getElem?_insert, Std.LawfulEqOrd.compare_eq_iff_eq]
    by_cases hk : k ∈ rest.map key
    · simp [hk]
    · by_cases hp : p.key = k
      · simp [hp]
      · simp [hk, hp, Ne.symm hp]

theorem mem_adopt (here : Path) (parents : Parents) (paths : List Path) (k : Key) :
    k ∈ adopt here parents paths ↔ k ∈ paths.map key ∨ k ∈ parents := by
  rw [← Std.TreeMap.isSome_getElem?_iff_mem, getElem?_adopt, ← Std.TreeMap.isSome_getElem?_iff_mem]
  split <;> simp [*]

/-- Queueing modules one by one queues those that were not queued before. -/
theorem foldl_enqueue (here : Path) (parents : Parents) (queue : List Path) {paths : List Path}
    (h : (paths.map key).Nodup) : paths.foldl (enqueue here) (parents, queue) =
      (adopt here parents (paths.filter fun p => !parents.contains p.key),
        queue ++ paths.filter fun p => !parents.contains p.key) := by
  induction paths generalizing parents queue with
  | nil => simp [adopt]
  | cons p rest ih =>
    rw [List.map_cons, List.nodup_cons] at h
    rw [List.foldl_cons, enqueue]
    by_cases hp : parents.contains p.key = true
    · rw [if_pos hp, ih parents queue h.2, List.filter_cons_of_neg (by simpa using hp)]
    · have hrest : (rest.filter fun q => !(parents.insert p.key here).contains q.key) =
          rest.filter fun q => !parents.contains q.key := by
        refine List.filter_congr fun q hq => ?_
        have hne : p.key ≠ q.key := fun hkey => h.1 (hkey ▸ List.mem_map_of_mem hq)
        simp [Std.TreeMap.contains_insert, hne]
      rw [if_neg hp, ih _ _ h.2, hrest, List.append_assoc,
        List.filter_cons_of_pos (by simp [Bool.eq_false_of_not_eq_true hp])]
      rfl

/-! ### The same search -/

/-- Modules in the queue are traced back by the ways that are there for them. -/
structure Trails (source : Path) (parents : Parents) (queue : List Path)
    (seen : Std.TreeSet Key) (ways : List (List Path)) : Prop where
  start : source.key ∈ parents
  seen : ∀ k, k ∈ seen ↔ k ∈ parents
  ways : List.Forall₂ (Retraces parents source) queue ways

namespace Trails

variable {source here : Path} {parents : Parents} {queue before : List Path}
  {seen : Std.TreeSet Key} {ways : List (List Path)}

theorem first (source : Path) :
    Trails source ((∅ : Parents).insert source.key "") [source] {source.key} [[source]] where
  start := by simp
  seen k := by simp
  ways := .cons (.source rfl) .nil

/-- The next modules are queued, in both of the searches the same. -/
theorem next (h : Trails source parents (here :: queue) seen ((here :: before) :: ways)) :
    Trails source (adopt here parents (g.fresh seen here)) (queue ++ g.fresh seen here)
      ((g.fresh seen here).foldl (fun seen p => seen.insert p.key) seen)
      (ways ++ (g.fresh seen here).map (· :: here :: before)) := by
  have hnew {k : Key} (hk : k ∈ (g.fresh seen here).map key) : k ∉ parents := by
    obtain ⟨p, hp, rfl⟩ := List.mem_map.mp hk
    have hunseen : seen.contains p.key = false := by simpa using (List.mem_filter.mp hp).2
    rw [← h.seen, ← Std.TreeSet.contains_iff_mem, hunseen]
    exact Bool.false_ne_true
  have hmore (k : Key) (q : Path) (hk : parents[k]? = some q) :
      (adopt here parents (g.fresh seen here))[k]? = some q := by
    rw [getElem?_adopt, if_neg fun hin => ?_, hk]
    exact hnew hin (Std.TreeMap.isSome_getElem?_iff_mem.mp (hk ▸ rfl))
  obtain ⟨hhere, hqueue⟩ := List.forall₂_cons.mp h.ways
  refine ⟨(mem_adopt ..).mpr (.inr h.start), fun k => ?_, ?_⟩
  · rw [mem_foldl_insert, mem_adopt, h.seen]
  · refine List.rel_append (hqueue.imp fun _ _ hway => hway.mono hmore) ?_
    rw [List.forall₂_map_right_iff, List.forall₂_same]
    intro p hp
    have hkey : p.key ∈ (g.fresh seen here).map key := List.mem_map_of_mem hp
    refine .back (fun hsource => hnew hkey (hsource ▸ h.start)) ?_ (hhere.mono hmore)
    rw [getElem?_adopt, if_pos hkey]

end Trails

/-- **A search that keeps parents finds what one that keeps ways does.** -/
theorem Seeks.searches (hp : g.Proper) {source goal : Path} {seen : Std.TreeSet Key}
    {ways : List (List Path)} {way : Option (List Path)} (h : g.Seeks goal.key seen ways way)
    {parents : Parents} {queue : List Path} (htrails : Trails source parents queue seen ways) :
    g.Searches source goal (parents, queue) (way.map fun way => (goal :: way.tail).reverse) := by
  induction h generalizing parents queue with
  | none seen =>
    obtain rfl := List.forall₂_nil_right_iff.mp htrails.ways
    exact .none parents
  | found hgoal seen before ways =>
    obtain ⟨here, rest, hhere, -, rfl⟩ := List.forall₂_cons_right_iff.mp htrails.ways
    obtain rfl := Option.some.inj hhere.head?_eq
    exact .found hgoal (hhere.of_key hgoal)
  | @next seen here before ways way hne _ ih =>
    obtain ⟨here', rest, hhere, -, rfl⟩ := List.forall₂_cons_right_iff.mp htrails.ways
    obtain rfl := Option.some.inj hhere.head?_eq
    have hnodup : ((g.successors here).map key).Nodup := by
      rw [map_successors hp]
      exact g.nodup_next _
    have hfresh : ((g.successors here).filter fun p => !parents.contains p.key) =
        g.fresh seen here := by
      refine List.filter_congr fun p _ => ?_
      rw [Bool.eq_iff_iff, Bool.not_eq_true', Bool.not_eq_true', ← Bool.not_eq_true,
        ← Bool.not_eq_true, Std.TreeSet.contains_iff_mem, Std.TreeMap.contains_iff_mem,
        htrails.seen]
    refine .next hne ?_
    rw [foldl_enqueue here parents rest hnodup, hfresh]
    exact ih htrails.next

/-! ### Ways between modules -/

/-- Modules from one to another, each with an edge to the next. -/
structure Connects (g : ModuleGraph) (a b : Path) (way : List Path) : Prop where
  first : way.head?.map key = some a.key
  last : way.getLast?.map key = some b.key
  chain : way.IsChain fun p q => g.hasEdge p q = true

theorem connects_iff {a b : Path} {way : List Path} :
    g.Connects a b way ↔ Way g.Edged a.key b.key (way.map key) := by
  have hedged (p q : Path) : g.Edged p.key q.key ↔ g.hasEdge p q = true := by
    rw [Edged, hasEdge_iff, successors_core]
  simp only [Way.iff_isChain, List.head?_map, List.getLast?_map, List.isChain_map, hedged]
  exact ⟨fun h => ⟨h.first, h.last, h.chain⟩, fun ⟨hfirst, hlast, hchain⟩ =>
    ⟨hfirst, hlast, hchain⟩⟩

/-- What the way between two modules is. -/
structure FindsShortest (g : ModuleGraph) (a b : Path) : Prop where
  /-- The search ends, and this is what it ends with. -/
  ends : ∀ found, g.PathSearch a b found ↔ found = g.findPath a b
  /-- There is a way if both are modules and the one leads to the other. -/
  isSome_iff : (g.findPath a b).isSome = true ↔
    g.hasModule a = true ∧ g.hasModule b = true ∧ ∃ way, g.Connects a b way
  /-- The way leads from the one to the other. -/
  connects : ∀ way, g.findPath a b = some way → g.Connects a b way
  /-- It comes by no module twice. -/
  nodup : ∀ way, g.findPath a b = some way → (way.map key).Nodup
  /-- No other way is shorter. -/
  shortest : ∀ way, g.findPath a b = some way →
    ∀ other, g.Connects a b other → way.length ≤ other.length

theorem pathSearch_findPath (hp : g.Proper) (hc : g.Closed) (a b : Path) :
    g.PathSearch a b (g.findPath a b) := by
  rw [PathSearch]
  split
  · rename_i hmodules
    obtain ⟨ha, hb⟩ := Bool.and_eq_true_iff.mp hmodules
    obtain ⟨way, hseeks, hpath⟩ := seeks_findPath hp hc ha hb
    rw [hpath]
    exact hseeks.searches hp (.first a)
  · rename_i hmodules
    rw [findPath, if_neg hmodules]

theorem PathSearch.unique {a b : Path} {found found' : Option (List Path)}
    (h : g.PathSearch a b found) (h' : g.PathSearch a b found') : found = found' := by
  rw [PathSearch] at h h'
  split at h
  · rename_i hmodules
    rw [if_pos hmodules] at h'
    exact h.unique h'
  · rename_i hmodules
    rw [if_neg hmodules] at h'
    rw [h, h']

theorem Consistent.findsShortest (h : g.Consistent) (a b : Path) : g.FindsShortest a b := by
  have hmodules {way : List Path} (hway : g.findPath a b = some way) :
      g.hasModule a = true ∧ g.hasModule b = true := by
    rw [findPath] at hway
    split at hway
    · exact Bool.and_eq_true_iff.mp ‹_›
    · cases hway
  have hshortest {way : List Path} (hway : g.findPath a b = some way) :
      ShortestWay g.Edged a.key b.key (way.map key) :=
    findPath_shortest h.proper h.closed (hmodules hway).1 (hmodules hway).2 hway
  refine ⟨fun found => ?_, ⟨fun hsome => ?_, fun hleads => ?_⟩,
    fun way hway => ?_, fun way hway => ?_, fun way hway other hother => ?_⟩
  · have hends := pathSearch_findPath h.proper h.closed a b
    exact ⟨fun hfound => hfound.unique hends, fun hfound => hfound ▸ hends⟩
  · obtain ⟨way, hway⟩ := Option.isSome_iff_exists.mp hsome
    obtain ⟨ha, hb⟩ := hmodules hway
    exact ⟨ha, hb, way, connects_iff.mpr (hshortest hway).isWay⟩
  · obtain ⟨ha, hb, other, hother⟩ := hleads
    by_contra hnone
    have hnone : g.findPath a b = none := by simpa using hnone
    exact findPath_eq_none h.proper h.closed ha hb hnone (connects_iff.mp hother).reflTransGen
  · exact connects_iff.mpr (hshortest hway).isWay
  · exact (hshortest hway).nodup
  · have hle := (hshortest hway).le _ (connects_iff.mp hother)
    rwa [List.length_map, List.length_map] at hle

/-- **However a graph was made**, the search for a way between two modules ends, with a shortest
way from the one to the other, if there is any. -/
theorem findPath_built (changes : List Change) (a b : Path) :
    (built changes).FindsShortest a b :=
  (consistent_built changes).findsShortest a b

end ModuleGraph

end ScriptLint
