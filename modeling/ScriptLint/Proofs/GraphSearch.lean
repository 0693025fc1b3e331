/-
Breadth-first search looks only at what can lead to the goal.

`Finds succ goal seen queue way` says what breadth-first search over keys ends
with, without counting steps.  The search of a graph does that
(`ModuleGraph.Seeks.finds`); it ends (`ModuleGraph.seeks_search`), since the measure

    ways in the queue + modules that were not queued yet

falls by one with every way that is taken from the queue, and the fuel is at least
as large.  Modules that cannot lead to the goal may be left out of a search
(`Finds.only`), so two graphs that agree on all others have the same shortest path:

* **`ModuleGraph.findPath_congr`** — the way that two graphs find, by keys.
-/
import Mathlib.Data.List.Perm.Subperm
import Mathlib.Data.List.Nodup
import ScriptLint.Proofs.GraphNodes

namespace ScriptLint

open ScriptLint.Path

/-! ### Searching by keys -/

/-- The successors that were not queued before. -/
def unqueued (succ : Key → List Key) (seen : List Key) (here : Key) : List Key :=
  (succ here).filter (· ∉ seen)

theorem mem_unqueued {succ : Key → List Key} {seen : List Key} {here k : Key} :
    k ∈ unqueued succ seen here ↔ k ∈ succ here ∧ k ∉ seen := by
  simp [unqueued]

/-- Breadth-first search ends with this way, the goal first, or with none. -/
inductive Finds (succ : Key → List Key) (goal : Key) :
    List Key → List (List Key) → Option (List Key) → Prop where
  | none (seen) : Finds succ goal seen [] .none
  | found (seen before queue) :
      Finds succ goal seen ((goal :: before) :: queue) (some (goal :: before))
  | next {seen here before queue way} (hne : here ≠ goal)
      (h : Finds succ goal (unqueued succ seen here ++ seen)
        (queue ++ (unqueued succ seen here).map (· :: here :: before)) way) :
      Finds succ goal seen ((here :: before) :: queue) way

namespace Finds

variable {succ : Key → List Key} {goal : Key} {seen : List Key} {queue : List (List Key)}

theorem unique {way way' : Option (List Key)} (h : Finds succ goal seen queue way)
    (h' : Finds succ goal seen queue way') : way = way' := by
  induction h with
  | none seen => cases h'; rfl
  | found seen before queue =>
    cases h' with
    | found => rfl
    | next hne => exact absurd rfl hne
  | next hne _ ih =>
    cases h' with
    | found => exact absurd rfl hne
    | next _ h' => exact ih h'

/-- A way that was found ends at the goal. -/
theorem head?_eq {way : List Key} (h : Finds succ goal seen queue (some way)) :
    way.head? = some goal := by
  generalize hw : some way = found at h
  induction h with
  | none seen => cases hw
  | found seen before queue => cases hw; rfl
  | next _ _ ih => exact ih hw

end Finds

/-- The successors of a key that count, if the key itself counts. -/
def only (Good : Key → Prop) [DecidablePred Good] (succ : Key → List Key) (k : Key) : List Key :=
  if Good k then (succ k).filter Good else []

/-- A way whose last key counts. -/
def leads (Good : Key → Prop) [DecidablePred Good] (way : List Key) : Bool :=
  way.head?.any Good

/-- **Keys that cannot lead to the goal may be left out.**  `Good` holds of the keys
that can, at least among those that are reached, `Reached`. -/
theorem Finds.only {succ : Key → List Key} {goal : Key} {Good Reached : Key → Prop}
    [DecidablePred Good] (hgoal : Good goal)
    (hclosed : ∀ a b, Reached a → b ∈ succ a → Reached b)
    (hback : ∀ a b, Reached a → b ∈ succ a → Good b → Good a)
    {seen : List Key} {queue : List (List Key)} {way : Option (List Key)}
    (h : Finds succ goal seen queue way) (hqueue : ∀ w ∈ queue, ∀ k ∈ w.head?, Reached k)
    {seen' : List Key} (hseen : ∀ k, Good k → (k ∈ seen ↔ k ∈ seen')) :
    Finds (ScriptLint.only Good succ) goal seen' (queue.filter (leads Good)) way := by
  induction h generalizing seen' with
  | none seen => exact .none seen'
  | found seen before queue =>
    rw [List.filter_cons_of_pos (by simpa [leads] using hgoal)]
    exact .found seen' before _
  | @next seen here before queue way hne _ ih =>
    have hhere : Reached here := hqueue _ List.mem_cons_self here rfl
    have hfresh (k : Key) (hk : k ∈ unqueued succ seen here) : k ∈ succ here :=
      (mem_unqueued.mp hk).1
    have hqueue' : ∀ w ∈ queue ++ (unqueued succ seen here).map (· :: here :: before),
        ∀ k ∈ w.head?, Reached k := by
      intro w hw k hk
      rcases List.mem_append.mp hw with hw | hw
      · exact hqueue w (List.mem_cons_of_mem _ hw) k hk
      · obtain ⟨b, hb, rfl⟩ := List.mem_map.mp hw
        obtain rfl : b = k := by simpa using hk
        exact hclosed here b hhere (hfresh b hb)
    have hways : ((unqueued succ seen here).map (· :: here :: before)).filter (leads Good) =
        ((unqueued succ seen here).filter Good).map (· :: here :: before) := by
      rw [List.filter_map]
      rfl
    by_cases hg : Good here
    · have hunqueued : unqueued (ScriptLint.only Good succ) seen' here =
          (unqueued succ seen here).filter Good := by
        rw [unqueued, ScriptLint.only, if_pos hg, unqueued, List.filter_filter, List.filter_filter]
        refine List.filter_congr fun k _ => ?_
        by_cases hk : Good k
        · simp [hk, hseen k hk]
        · simp [hk]
      rw [List.filter_cons_of_pos (by simpa [leads] using hg)]
      refine .next hne ?_
      rw [hunqueued, ← hways, ← List.filter_append]
      refine ih hqueue' fun k hk => ?_
      simp [hseen k hk, hk]
    · -- a key that does not count has no successor that does
      have hnone : (unqueued succ seen here).filter Good = [] := by
        rw [List.filter_eq_nil_iff]
        intro k hk hgood
        exact hg (hback here k hhere (hfresh k hk) (by simpa using hgood))
      rw [List.filter_cons_of_neg (by simpa [leads] using hg)]
      have hseen' (k : Key) (hk : Good k) : k ∈ unqueued succ seen here ++ seen ↔ k ∈ seen' := by
        rw [List.mem_append, ← hseen k hk]
        refine or_iff_right fun hmem => ?_
        exact hg (hback here k hhere (hfresh k hmem) hk)
      have hrest := ih hqueue' hseen'
      rw [List.filter_append, hways, hnone, List.map_nil, List.append_nil] at hrest
      exact hrest

/-! ### The search of a graph -/

namespace ModuleGraph

variable {g : ModuleGraph}

/-- The keys of a module's successors, in order. -/
def next (g : ModuleGraph) (k : Key) : List Key := (g.core k).successors.keys

/-- The modules that were not queued yet. -/
def unseen (g : ModuleGraph) (seen : List Key) : List Key := g.nodes.keys.filter (· ∉ seen)

theorem nodup_next (g : ModuleGraph) (k : Key) : (g.next k).Nodup := Std.TreeMap.nodup_keys

theorem mem_next (g : ModuleGraph) (a b : Key) : b ∈ g.next a ↔ b ∈ (g.core a).successors :=
  Std.TreeMap.mem_keys

theorem mem_unseen {g : ModuleGraph} {seen : List Key} {k : Key} :
    k ∈ g.unseen seen ↔ k ∈ g.nodes ∧ k ∉ seen := by
  simp [unseen]

/-- What is queued is no longer unseen. -/
theorem length_unseen (hc : g.Closed) (seen : List Key) (here : Key) :
    (unqueued g.next seen here).length + (g.unseen (unqueued g.next seen here ++ seen)).length ≤
      (g.unseen seen).length := by
  rw [← List.length_append]
  refine (List.Nodup.subperm ?_ ?_).length_le
  · refine ((g.nodup_next here).filter _).append (Std.TreeMap.nodup_keys.filter _) ?_
    intro k hk hunseen
    exact (mem_unseen.mp hunseen).2 (List.mem_append_left _ hk)
  · intro k hk
    rw [mem_unseen]
    rcases List.mem_append.mp hk with hk | hk
    · obtain ⟨hnext, hseen⟩ := mem_unqueued.mp hk
      exact ⟨hc here k ((g.mem_next here k).mp hnext), hseen⟩
    · obtain ⟨hmem, hnew⟩ := mem_unseen.mp hk
      exact ⟨hmem, fun h => hnew (List.mem_append_right _ h)⟩

theorem mem_foldl_insert (paths : List Path) (seen : Std.TreeSet Key) (k : Key) :
    k ∈ paths.foldl (fun seen p => seen.insert p.key) seen ↔ k ∈ paths.map key ∨ k ∈ seen := by
  induction paths generalizing seen with
  | nil => simp
  | cons p rest ih =>
    rw [List.foldl_cons, ih, Std.TreeSet.mem_insert, Std.LawfulEqOrd.compare_eq_iff_eq,
      List.map_cons, List.mem_cons, or_left_comm, or_assoc, eq_comm]

/-- The successors of a module that the search of a graph did not queue before. -/
def fresh (g : ModuleGraph) (seen : Std.TreeSet Key) (here : Path) : List Path :=
  (g.successors here).filter fun p => !seen.contains p.key

theorem map_successors (hp : g.Proper) (here : Path) :
    (g.successors here).map key = g.next here.key := by
  rw [successors_eq, Path.Set.keys_paths (hp.successors _), next]

theorem map_fresh (hp : g.Proper) {seen : Std.TreeSet Key} {seen' : List Key}
    (hseen : ∀ k, k ∈ seen ↔ k ∈ seen') (here : Path) :
    (g.fresh seen here).map key = unqueued g.next seen' here.key := by
  rw [unqueued, ← map_successors hp, List.filter_map, fresh]
  refine congrArg (List.map key) (List.filter_congr fun p _ => ?_)
  rw [Bool.eq_iff_iff, Bool.not_eq_true', ← Bool.not_eq_true, Std.TreeSet.contains_iff_mem, hseen]
  simp

/-- The search of a graph ends with this way, the goal first, or with none. -/
inductive Seeks (g : ModuleGraph) (goal : Key) :
    Std.TreeSet Key → List (List Path) → Option (List Path) → Prop where
  | none (seen) : Seeks g goal seen [] .none
  | found {here} (hgoal : here.key = goal) (seen before queue) :
      Seeks g goal seen ((here :: before) :: queue) (some (here :: before))
  | next {seen here before queue way} (hne : here.key ≠ goal)
      (h : Seeks g goal ((g.fresh seen here).foldl (fun seen p => seen.insert p.key) seen)
        (queue ++ (g.fresh seen here).map (· :: here :: before)) way) :
      Seeks g goal seen ((here :: before) :: queue) way

theorem mem_foldl_fresh {seen : Std.TreeSet Key} {seen' : List Key} (hp : g.Proper)
    (hseen : ∀ k, k ∈ seen ↔ k ∈ seen') (here : Path) (k : Key) :
    k ∈ (g.fresh seen here).foldl (fun seen p => seen.insert p.key) seen ↔
      k ∈ unqueued g.next seen' here.key ++ seen' := by
  rw [mem_foldl_insert, List.mem_append, hseen, map_fresh hp hseen]

/-- With enough fuel, the search of a graph ends. -/
theorem seeks_search (hp : g.Proper) (hc : g.Closed) (goal : Key) (fuel : Nat)
    {seen : Std.TreeSet Key} {seen' : List Key} (hseen : ∀ k, k ∈ seen ↔ k ∈ seen')
    {queue : List (List Path)} (hqueue : ∀ way ∈ queue, way ≠ [])
    (hfuel : queue.length + (g.unseen seen').length ≤ fuel) :
    Seeks g goal seen queue (g.search goal fuel seen queue) := by
  induction fuel generalizing seen seen' queue with
  | zero =>
    obtain rfl : queue = [] := List.length_eq_zero_iff.mp (by omega)
    exact .none seen
  | succ fuel ih =>
    match queue with
    | [] => exact .none seen
    | [] :: _ => exact absurd rfl (hqueue [] List.mem_cons_self)
    | (here :: before) :: queue =>
      rw [search]
      split
      · rename_i hgoal
        exact .found hgoal seen before queue
      · rename_i hne
        have hlength := length_unseen hc seen' here.key
        rw [← map_fresh hp hseen, List.length_map] at hlength
        have hqueue' (way : List Path)
            (hway : way ∈ queue ++ (g.fresh seen here).map (· :: here :: before)) : way ≠ [] := by
          rcases List.mem_append.mp hway with hway | hway
          · exact hqueue way (List.mem_cons_of_mem _ hway)
          · obtain ⟨p, _, rfl⟩ := List.mem_map.mp hway
            exact List.cons_ne_nil _ _
        refine .next hne (ih (mem_foldl_fresh hp hseen here) hqueue' ?_)
        rw [← map_fresh hp hseen]
        simp only [List.length_append, List.length_map, List.length_cons] at hfuel ⊢
        omega

/-- What the search of a graph finds is what breadth-first search finds. -/
theorem Seeks.finds (hp : g.Proper) {goal : Key} {seen : Std.TreeSet Key}
    {queue : List (List Path)} {way : Option (List Path)} (h : Seeks g goal seen queue way)
    {seen' : List Key} (hseen : ∀ k, k ∈ seen ↔ k ∈ seen') :
    Finds g.next goal seen' (queue.map (List.map key)) (way.map (List.map key)) := by
  induction h generalizing seen' with
  | none seen => exact .none seen'
  | found hgoal seen before queue =>
    subst hgoal
    exact .found seen' (before.map key) (queue.map (List.map key))
  | next hne _ ih =>
    have hrest := ih (mem_foldl_fresh hp hseen _)
    refine .next hne ?_
    rw [← map_fresh hp hseen]
    rw [← map_fresh hp hseen] at hrest
    simpa [Function.comp_def] using hrest

theorem mem_source (a : Path) (k : Key) : k ∈ ({a.key} : Std.TreeSet Key) ↔ k ∈ [a.key] := by
  simp only [List.mem_singleton, eq_comm (a := k)]
  simp

/-- The way between two modules is the one that the search ends with. -/
theorem seeks_findPath (hp : g.Proper) (hc : g.Closed) {a b : Path} (ha : g.hasModule a = true)
    (hb : g.hasModule b = true) :
    ∃ way, Seeks g b.key {a.key} [[a]] way ∧
      g.findPath a b = way.map fun way => (b :: way.tail).reverse := by
  have hstart : [[a]].length + (g.unseen [a.key]).length ≤ g.size + 1 := by
    have : (g.unseen [a.key]).length ≤ g.nodes.keys.length := List.length_filter_le _ _
    rw [Std.TreeMap.length_keys] at this
    simp only [List.length_singleton, size]
    omega
  have hqueue (way : List Path) (hway : way ∈ [[a]]) : way ≠ [] := by
    rw [List.mem_singleton.mp hway]
    exact List.cons_ne_nil _ _
  refine ⟨_, seeks_search hp hc b.key (g.size + 1) (mem_source a) hqueue hstart, ?_⟩
  rw [findPath, ha, hb]
  rfl

/-- Both ends of a way that is looked for have nodes. -/
theorem finds_findPath (hp : g.Proper) (hc : g.Closed) {a b : Path} (ha : g.hasModule a = true)
    (hb : g.hasModule b = true) :
    ∃ way, Finds g.next b.key [a.key] [[a.key]] way ∧
      (g.findPath a b).map (List.map key) = way.map List.reverse := by
  obtain ⟨way, hseeks, hpath⟩ := seeks_findPath hp hc ha hb
  have hfinds := hseeks.finds hp (mem_source a)
  refine ⟨_, hfinds, ?_⟩
  rw [hpath]
  cases way with
  | none => rfl
  | some way =>
    have hhead := hfinds.head?_eq
    cases way with
    | nil => simp at hhead
    | cons goal rest =>
      have hgoal : goal.key = b.key := by simpa using hhead
      simp [hgoal]

/-- Keys of two sets that count are the same if the sets have the same of them. -/
theorem filter_keys_congr {Good : Key → Prop} [DecidablePred Good] {s s' : Path.Set}
    (h : ∀ k, Good k → (k ∈ s ↔ k ∈ s')) : s.keys.filter Good = s'.keys.filter Good := by
  refine List.Perm.eq_of_pairwise ?_
    (Std.TreeMap.ordered_keys.filter _) (Std.TreeMap.ordered_keys.filter _) ?_
  · intro a b _ _ hab hba
    have hswap : compare a b = (compare b a).swap := Std.OrientedCmp.eq_swap
    rw [hswap, hba] at hab
    simp at hab
  · rw [List.perm_ext_iff_of_nodup (Std.TreeMap.nodup_keys.filter _)
      (Std.TreeMap.nodup_keys.filter _)]
    intro k
    simp only [List.mem_filter, Std.TreeMap.mem_keys, decide_eq_true_eq]
    exact ⟨fun hk => ⟨(h k hk.2).mp hk.1, hk.2⟩, fun hk => ⟨(h k hk.2).mpr hk.1, hk.2⟩⟩

/-- The edges of a graph that matter for ways between two modules.  `Good` holds of
the modules that can be reached and from which the goal can be. -/
structure Covers (g : ModuleGraph) (a b : Path) (Good Reached : Key → Prop) : Prop where
  proper : g.Proper
  closed : g.Closed
  source : g.hasModule a = true
  goal : g.hasModule b = true
  good_goal : Good b.key
  reached_source : Reached a.key
  reached : ∀ k k', Reached k → k' ∈ (g.core k).successors → Reached k'
  back : ∀ k k', Reached k → k' ∈ (g.core k).successors → Good k' → Good k

/-- **Graphs that agree on the edges between modules that matter find the same
way.** -/
theorem findPath_congr {g g' : ModuleGraph} {a b a' b' : Path} {Good Reached Reached' : Key → Prop}
    (h : g.Covers a b Good Reached) (h' : g'.Covers a' b' Good Reached') (ha : a.key = a'.key)
    (hb : b.key = b'.key)
    (hsame : ∀ k k', Good k → Good k' →
      (k' ∈ (g.core k).successors ↔ k' ∈ (g'.core k).successors)) :
    (g.findPath a b).map (List.map key) = (g'.findPath a' b').map (List.map key) := by
  classical
  obtain ⟨way, hway, hpath⟩ := finds_findPath h.proper h.closed h.source h.goal
  obtain ⟨way', hway', hpath'⟩ := finds_findPath h'.proper h'.closed h'.source h'.goal
  have honly : only Good g.next = only Good g'.next := by
    funext k
    unfold only
    split
    · rename_i hk
      exact filter_keys_congr fun k' hk' => hsame k k' hk hk'
    · rfl
  have hfinds : Finds (only Good g.next) b.key [a.key] ([[a.key]].filter (leads Good)) way :=
    hway.only h.good_goal
    (fun k k' hk hk' => h.reached k k' hk ((g.mem_next k k').mp hk'))
    (fun k k' hk hk' => h.back k k' hk ((g.mem_next k k').mp hk'))
    (fun w hw k hk => by
      obtain rfl : w = [a.key] := by simpa using hw
      obtain rfl : a.key = k := by simpa using hk
      exact h.reached_source) (fun k _ => Iff.rfl)
  have hfinds' : Finds (only Good g'.next) b'.key [a'.key] ([[a'.key]].filter (leads Good))
      way' := hway'.only h'.good_goal
    (fun k k' hk hk' => h'.reached k k' hk ((g'.mem_next k k').mp hk'))
    (fun k k' hk hk' => h'.back k k' hk ((g'.mem_next k k').mp hk'))
    (fun w hw k hk => by
      obtain rfl : w = [a'.key] := by simpa using hw
      obtain rfl : a'.key = k := by simpa using hk
      exact h'.reached_source) (fun k _ => Iff.rfl)
  rw [honly, ha, hb] at hfinds
  rw [hpath, hpath', hfinds.unique hfinds']

end ModuleGraph

end ScriptLint
