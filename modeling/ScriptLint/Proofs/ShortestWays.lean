/-
Breadth-first search finds a shortest way, if there is any.

A way runs along a relation from one key to another and lists both.  The ways in the
queue of a search are shortest ways to where they end, and they stand in it by length;
what was queued is in the queue still, or all of its successors were queued
(`Frontier`).  Every step of the search keeps this:

* **`Way`**, **`ShortestWay`** — ways, and ways than which none is shorter;
* **`Finds.shortestWay`**, **`Finds.unreachable`** — what a search finds, and what it
  means that it finds nothing;
* **`ModuleGraph.findPath_shortest`**, **`ModuleGraph.findPath_eq_none`** — the same for
  the modules of a graph.
-/
import ScriptLint.Proofs.GraphSearch

namespace ScriptLint

open ScriptLint.Path Relation

/-! ### Ways -/

section

variable {α : Type}

/-- A way along a relation, both ends included. -/
inductive Way (step : α → α → Prop) : α → α → List α → Prop where
  | single (a : α) : Way step a a [a]
  | cons {a b c : α} {way : List α} (hstep : step a b) (hway : Way step b c way) :
      Way step a c (a :: way)

/-- A way than which no other one between the same ends is shorter. -/
structure ShortestWay (step : α → α → Prop) (a b : α) (way : List α) : Prop where
  isWay : Way step a b way
  le : ∀ other, Way step a b other → way.length ≤ other.length

variable {step step' : α → α → Prop} {a b c : α} {way : List α}

namespace Way

/-- A way goes on by a step. -/
theorem concat (h : Way step a b way) (hstep : step b c) : Way step a c (way ++ [c]) := by
  induction h with
  | single a => exact .cons hstep (.single c)
  | cons hfirst _ ih => exact .cons hfirst (ih hstep)

theorem reflTransGen (h : Way step a b way) : ReflTransGen step a b := by
  induction h with
  | single a => exact .refl
  | cons hstep _ ih => exact .head hstep ih

/-- A way ends where it says. -/
theorem getLast?_eq (h : Way step a b way) : way.getLast? = some b := by
  induction h with
  | single a => rfl
  | cons hstep hway ih =>
    rw [List.getLast?_cons, ih]
    rfl

/-- Ways are lists that begin and end where they say, with a step from each to the next. -/
theorem iff_isChain : Way step a b way ↔
    way.head? = some a ∧ way.getLast? = some b ∧ way.IsChain step := by
  refine ⟨fun h => ⟨?_, h.getLast?_eq, ?_⟩, fun h => ?_⟩
  · cases h <;> rfl
  · induction h with
    | single a => exact .singleton a
    | cons hstep hway ih =>
      cases hway with
      | single => exact .cons_cons hstep ih
      | cons => exact .cons_cons hstep ih
  · obtain ⟨hhead, hlast, hchain⟩ := h
    induction hchain generalizing a with
    | nil => simp at hhead
    | singleton c =>
      obtain rfl : c = a := by simpa using hhead
      obtain rfl : c = b := by simpa using hlast
      exact .single c
    | @cons_cons c d rest hstep _ ih =>
      obtain rfl : c = a := by simpa using hhead
      exact .cons hstep (ih rfl (by rwa [List.getLast?_cons_cons] at hlast))

/-- A way between two keys is one along every relation that has the steps between keys
which the first one leads to and which lead to the second one. -/
theorem mono (h : Way step a b way) (hstep : ∀ x y, ReflTransGen step a x → step x y →
    ReflTransGen step y b → step' x y) : Way step' a b way := by
  induction h with
  | single a => exact .single a
  | @cons a x b way hfirst hway ih =>
    refine .cons (hstep a x .refl hfirst hway.reflTransGen) (ih fun y z hy hyz hz => ?_)
    exact hstep y z (.head hfirst hy) hyz hz

/-- From where a way comes along, it goes on to its end. -/
theorem exists_of_mem (h : Way step a b way) (hc : c ∈ way) :
    ∃ rest, Way step c b rest ∧ rest.length ≤ way.length := by
  induction h with
  | single a =>
    rw [List.mem_singleton.mp hc]
    exact ⟨[a], .single a, Nat.le_refl _⟩
  | @cons a x b way hfirst hway ih =>
    rcases List.mem_cons.mp hc with rfl | hc
    · exact ⟨_, .cons hfirst hway, Nat.le_refl _⟩
    · obtain ⟨rest, hrest, hlength⟩ := ih hc
      exact ⟨rest, hrest, Nat.le_succ_of_le hlength⟩

/-- A way out of a set leaves it somewhere. -/
theorem exists_leaving {inside : α → Prop} (h : Way step a b way) (ha : inside a) (hb : ¬ inside b) :
    ∃ before x y, Way step a x before ∧ inside x ∧ step x y ∧ ¬ inside y ∧
      before.length + 1 ≤ way.length := by
  induction h with
  | single a => exact absurd ha hb
  | @cons a x b way hfirst hway ih =>
    by_cases hx : inside x
    · obtain ⟨before, y, z, hbefore, hy, hyz, hz, hlength⟩ := ih hx hb
      exact ⟨a :: before, y, z, .cons hfirst hbefore, hy, hyz, hz, Nat.succ_le_succ hlength⟩
    · have hpos : 1 ≤ way.length := by cases hway <;> simp
      exact ⟨[a], a, x, .single a, ha, hfirst, hx, Nat.succ_le_succ hpos⟩

end Way

/-- A shortest way comes along nowhere twice: what lies between could be left out. -/
theorem ShortestWay.nodup (h : ShortestWay step a b way) : way.Nodup := by
  obtain ⟨hway, hle⟩ := h
  induction hway with
  | single a => exact List.nodup_singleton a
  | @cons a x b way hfirst hway ih =>
    refine List.nodup_cons.mpr ⟨fun hmem => ?_, ih fun other hother => ?_⟩
    · obtain ⟨rest, hrest, hlength⟩ := hway.exists_of_mem hmem
      exact absurd (Nat.le_trans (hle rest hrest) hlength) (Nat.not_succ_le_self _)
    · exact Nat.le_of_succ_le_succ (hle _ (.cons hfirst hother))

/-- Shortest ways along two relations are the same where their ways are. -/
theorem ShortestWay.congr (h : ShortestWay step a b way)
    (hways : ∀ way, Way step a b way ↔ Way step' a b way) : ShortestWay step' a b way where
  isWay := (hways way).mp h.isWay
  le other hother := h.le other ((hways other).mpr hother)

end

/-! ### What a search knows -/

/-- What holds of the keys that were queued and of the queue, whose ways have their last
key first. -/
structure Frontier (succ : Key → List Key) (source goal : Key) (seen : List Key)
    (queue : List (List Key)) : Prop where
  start : source ∈ seen
  ways : ∀ w ∈ queue, ∃ k ∈ seen, ShortestWay (fun a b => b ∈ succ a) source k w.reverse
  sorted : queue.Pairwise fun w w' => w.length ≤ w'.length
  level : ∀ w ∈ queue, ∀ w' ∈ queue, w.length ≤ w'.length + 1
  left : ∀ k ∈ seen, (∃ w ∈ queue, w.head? = some k) ∨ k ≠ goal ∧ ∀ k' ∈ succ k, k' ∈ seen

namespace Frontier

variable {succ : Key → List Key} {source goal here : Key} {seen before : List Key}
  {queue : List (List Key)}

theorem first (succ : Key → List Key) (source goal : Key) :
    Frontier succ source goal [source] [[source]] where
  start := List.mem_singleton_self source
  ways w hw := by
    rw [List.mem_singleton.mp hw]
    refine ⟨source, List.mem_singleton_self source, .single source, fun other hother => ?_⟩
    cases hother <;> simp
  sorted := List.pairwise_singleton _ _
  level w hw w' hw' := by
    rw [List.mem_singleton.mp hw, List.mem_singleton.mp hw']
    exact Nat.le_succ _
  left k hk := by
    rw [List.mem_singleton.mp hk]
    exact .inl ⟨[source], List.mem_singleton_self _, rfl⟩

/-- A key that is queued now is at the end of a shortest way: any other way leaves the
keys that were queued at one whose own way is still in the queue, and no shorter than the
first. -/
theorem shortest_fresh (h : Frontier succ source goal seen ((here :: before) :: queue)) {k : Key}
    (hk : k ∈ succ here) (hnew : k ∉ seen) :
    ShortestWay (fun a b => b ∈ succ a) source k (k :: here :: before).reverse := by
  obtain ⟨k', _, hfirst⟩ := h.ways _ List.mem_cons_self
  have hend : k' = here := by
    have hlast := hfirst.isWay.getLast?_eq
    simpa using hlast.symm
  rw [hend] at hfirst
  refine ⟨?_, fun other hother => ?_⟩
  · rw [List.reverse_cons]
    exact hfirst.isWay.concat hk
  obtain ⟨prior, x, y, hprior, hx, hxy, hy, hlength⟩ := hother.exists_leaving h.start hnew
  rcases h.left x hx with ⟨w, hw, hhead⟩ | ⟨_, hall⟩
  · obtain ⟨x', _, hshortest⟩ := h.ways w hw
    have hx' : x' = x := by
      have hlast := hshortest.isWay.getLast?_eq
      rw [List.getLast?_reverse, hhead] at hlast
      exact (Option.some.inj hlast).symm
    have hprefix : w.length ≤ prior.length := by
      have hle := (hx' ▸ hshortest).le prior hprior
      rwa [List.length_reverse] at hle
    have hordered : (here :: before).length ≤ w.length := by
      rcases List.mem_cons.mp hw with rfl | hw
      · exact Nat.le_refl _
      · exact List.rel_of_pairwise_cons h.sorted hw
    rw [List.length_reverse, List.length_cons]
    omega
  · exact absurd (hall y hxy) hy

/-- A way is taken from the queue, and the successors of its last key are queued that
were not before. -/
theorem next (h : Frontier succ source goal seen ((here :: before) :: queue)) (hne : here ≠ goal) :
    Frontier succ source goal (unqueued succ seen here ++ seen)
      (queue ++ (unqueued succ seen here).map (· :: here :: before)) := by
  have hold {k : Key} (hk : k ∈ seen) : k ∈ unqueued succ seen here ++ seen :=
    List.mem_append_right _ hk
  have hmem {w : List Key} (hw : w ∈ queue) : w ∈ (here :: before) :: queue :=
    List.mem_cons_of_mem _ hw
  have hordered {w : List Key} (hw : w ∈ queue) : (here :: before).length ≤ w.length :=
    List.rel_of_pairwise_cons h.sorted hw
  have hlevel {w : List Key} (hw : w ∈ queue) : w.length ≤ (here :: before).length + 1 :=
    h.level w (hmem hw) _ List.mem_cons_self
  refine ⟨hold h.start, fun w hw => ?_, ?_, fun w hw w' hw' => ?_, fun k hk => ?_⟩
  · rcases List.mem_append.mp hw with hw | hw
    · obtain ⟨k, hk, hshortest⟩ := h.ways w (hmem hw)
      exact ⟨k, hold hk, hshortest⟩
    · obtain ⟨k, hk, rfl⟩ := List.mem_map.mp hw
      obtain ⟨hnext, hnew⟩ := mem_unqueued.mp hk
      exact ⟨k, List.mem_append_left _ hk, h.shortest_fresh hnext hnew⟩
  · refine List.pairwise_append.mpr ⟨h.sorted.of_cons, ?_, fun w hw w' hw' => ?_⟩
    · exact List.pairwise_map.mpr (List.pairwise_of_forall fun k k' => Nat.le_refl _)
    · obtain ⟨k, _, rfl⟩ := List.mem_map.mp hw'
      exact hlevel hw
  · rcases List.mem_append.mp hw with hw | hw <;> rcases List.mem_append.mp hw' with hw' | hw'
    · exact h.level w (hmem hw) w' (hmem hw')
    · obtain ⟨k, _, rfl⟩ := List.mem_map.mp hw'
      exact Nat.le_succ_of_le (hlevel hw)
    · obtain ⟨k, _, rfl⟩ := List.mem_map.mp hw
      exact Nat.succ_le_succ (hordered hw')
    · obtain ⟨k, _, rfl⟩ := List.mem_map.mp hw
      obtain ⟨k', _, rfl⟩ := List.mem_map.mp hw'
      exact Nat.le_succ _
  · rcases List.mem_append.mp hk with hk | hk
    · exact .inl ⟨_, List.mem_append_right _ (List.mem_map_of_mem hk), rfl⟩
    rcases h.left k hk with ⟨w, hw, hhead⟩ | ⟨hgoal, hall⟩
    · rcases List.mem_cons.mp hw with rfl | hw
      · -- the key whose successors are queued in this step
        obtain rfl : here = k := by simpa using hhead
        refine .inr ⟨hne, fun k' hk' => List.mem_append.mpr ?_⟩
        exact or_iff_not_imp_right.mpr fun hnew => mem_unqueued.mpr ⟨hk', hnew⟩
      · exact .inl ⟨w, List.mem_append_left _ hw, hhead⟩
    · exact .inr ⟨hgoal, fun k' hk' => hold (hall k' hk')⟩

/-- With an empty queue, everything that can be reached was queued, and the goal was not. -/
theorem unreachable (h : Frontier succ source goal seen []) :
    ¬ ReflTransGen (fun a b => b ∈ succ a) source goal := by
  have hleft (k : Key) (hk : k ∈ seen) : k ≠ goal ∧ ∀ k' ∈ succ k, k' ∈ seen :=
    (h.left k hk).resolve_left fun ⟨_, hw, _⟩ => absurd hw List.not_mem_nil
  have hreached {k : Key} (hk : ReflTransGen (fun a b => b ∈ succ a) source k) : k ∈ seen := by
    induction hk with
    | refl => exact h.start
    | tail _ hstep ih => exact (hleft _ ih).2 _ hstep
  exact fun hgoal => (hleft goal (hreached hgoal)).1 rfl

end Frontier

namespace Finds

variable {succ : Key → List Key} {source goal : Key}

theorem of_frontier {seen : List Key} {queue : List (List Key)} {found : Option (List Key)}
    (h : Finds succ goal seen queue found) (hfrontier : Frontier succ source goal seen queue) :
    (found = .none → ¬ ReflTransGen (fun a b => b ∈ succ a) source goal) ∧
      ∀ way, found = some way →
        ShortestWay (fun a b => b ∈ succ a) source goal way.reverse := by
  induction h with
  | none seen => exact ⟨fun _ => hfrontier.unreachable, fun _ h => absurd h (by simp)⟩
  | found seen before queue =>
    obtain ⟨k, _, hshortest⟩ := hfrontier.ways _ List.mem_cons_self
    obtain rfl : k = goal := by
      have hlast := hshortest.isWay.getLast?_eq
      simpa using hlast.symm
    refine ⟨fun h => absurd h (by simp), fun way h => ?_⟩
    rwa [← Option.some.inj h]
  | next hne _ ih => exact ih (hfrontier.next hne)

/-- **A search that finds a way finds a shortest one.** -/
theorem shortestWay {way : List Key} (h : Finds succ goal [source] [[source]] (some way)) :
    ShortestWay (fun a b => b ∈ succ a) source goal way.reverse :=
  (h.of_frontier (.first succ source goal)).2 way rfl

/-- **A search that finds nothing had nothing to find.** -/
theorem unreachable (h : Finds succ goal [source] [[source]] .none) :
    ¬ ReflTransGen (fun a b => b ∈ succ a) source goal :=
  (h.of_frontier (.first succ source goal)).1 rfl

end Finds

/-! ### The ways of a graph -/

namespace ModuleGraph

variable {g : ModuleGraph}

/-- There is an edge of the graph from one module to another, by keys. -/
def Edged (g : ModuleGraph) (a b : Key) : Prop := b ∈ (g.core a).successors

theorem edged_eq (g : ModuleGraph) : (fun a b => b ∈ g.next a) = g.Edged := by
  funext a b
  exact propext (g.mem_next a b)

/-- The way that a graph has from one module to another is a shortest one. -/
theorem findPath_shortest (hp : g.Proper) (hc : g.Closed) {a b : Path}
    (ha : g.hasModule a = true) (hb : g.hasModule b = true) {way : List Path}
    (h : g.findPath a b = some way) : ShortestWay g.Edged a.key b.key (way.map key) := by
  obtain ⟨found, hfinds, hpath⟩ := finds_findPath hp hc ha hb
  rw [h] at hpath
  cases found with
  | none => simp at hpath
  | some found =>
    have hway : way.map key = found.reverse := by simpa using hpath
    rw [hway, ← edged_eq]
    exact hfinds.shortestWay

/-- Where a graph has no way, the one module does not lead to the other. -/
theorem findPath_eq_none (hp : g.Proper) (hc : g.Closed) {a b : Path}
    (ha : g.hasModule a = true) (hb : g.hasModule b = true) (h : g.findPath a b = none) :
    ¬ ReflTransGen g.Edged a.key b.key := by
  obtain ⟨found, hfinds, hpath⟩ := finds_findPath hp hc ha hb
  rw [h] at hpath
  cases found with
  | none =>
    rw [← edged_eq]
    exact hfinds.unreachable
  | some found => simp at hpath

end ModuleGraph

end ScriptLint
