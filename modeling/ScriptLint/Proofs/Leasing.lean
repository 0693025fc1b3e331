/-
Leases of arenas.

An arena is either idle, or somebody holds the one lease of it.  That is kept by whatever
begins or ends a lease; moving a lease, and writing into its arena, does not concern the pool:

* **`Arena.Pool.Sound`** — a pool and the leases that are alive;
* **`Arena.Pool.Step`** — one step of a pool, as it is done under its lock;
* **`Arena.Pool.Sound.step`** — every step keeps the pool sound;
* **`Arena.Leases.serves_perform`** — what is done with leases under names is such steps.
-/
import Mathlib.Data.List.Nodup
import Mathlib.Logic.Relation
import ScriptLint.Arena.Pool

namespace ScriptLint

/-! ### Tables -/

namespace Table

variable {α : Type} {table : Table α} {key : Bytes} {value : α}

/-- The keys of the table ascend. -/
def Sorted (table : Table α) : Prop := table.Pairwise fun a b => compare a.1 b.1 = .lt

/-- Of a key nothing stands before it where the keys are less. -/
theorem filter_eq_self_of_lt (h : ∀ e ∈ table, compare key e.1 = .lt) :
    table.filter (fun e => e.1 ≠ key) = table := by
  refine List.filter_eq_self.mpr fun e he => decide_eq_true ?_
  rintro rfl
  have := h e he
  rw [Std.ReflOrd.compare_self] at this
  cases this

theorem insert_perm (h : Sorted table) (key : Bytes) (value : α) :
    (insert key value table).Perm ((key, value) :: table.filter fun e => e.1 ≠ key) := by
  induction table with
  | nil => exact .refl _
  | cons e rest ih =>
    obtain ⟨hfirst, hrest⟩ := List.pairwise_cons.mp h
    rw [insert]
    cases horder : compare key e.1 with
    | lt =>
      have hall : ∀ e' ∈ e :: rest, compare key e'.1 = .lt :=
        List.forall_mem_cons.mpr ⟨horder, fun e' he' =>
          Std.TransCmp.lt_trans horder (hfirst e' he')⟩
      rw [filter_eq_self_of_lt hall]
    | eq =>
      obtain rfl := Std.LawfulEqOrd.eq_of_compare horder
      rw [List.filter_cons_of_neg (by simp), filter_eq_self_of_lt hfirst]
    | gt =>
      have hne : e.1 ≠ key := by
        rintro rfl
        rw [Std.ReflOrd.compare_self] at horder
        cases horder
      rw [List.filter_cons_of_pos (by simpa using hne)]
      exact ((ih hrest).cons e).trans (.swap ..)

theorem Sorted.insert (h : Sorted table) (key : Bytes) (value : α) :
    Sorted (insert key value table) := by
  induction table with
  | nil => exact List.pairwise_singleton _ _
  | cons e rest ih =>
    obtain ⟨hfirst, hrest⟩ := List.pairwise_cons.mp h
    rw [Table.insert]
    cases horder : compare key e.1 with
    | lt =>
      exact .cons (List.forall_mem_cons.mpr ⟨horder, fun e' he' =>
        Std.TransCmp.lt_trans horder (hfirst e' he')⟩) h
    | eq =>
      obtain rfl := Std.LawfulEqOrd.eq_of_compare horder
      exact .cons hfirst hrest
    | gt =>
      refine .cons (fun e' he' => ?_) (ih hrest)
      rcases List.mem_cons.mp ((insert_perm hrest key value).mem_iff.mp he') with rfl | he'
      · exact Std.OrientedCmp.gt_iff_lt.mp horder
      · exact hfirst e' (List.mem_of_mem_filter he')

theorem filter_eq_self_of_none (h : find? key table = none) :
    table.filter (fun e => e.1 ≠ key) = table := by
  refine List.filter_eq_self.mpr fun e he => decide_eq_true fun hkey => ?_
  have := List.find?_eq_none.mp (Option.map_eq_none_iff.mp h) e he
  exact this (decide_eq_true hkey)

/-- The entry of a key, and the others. -/
theorem perm_of_some (h : Sorted table) (hfind : find? key table = some value) :
    table.Perm ((key, value) :: table.filter fun e => e.1 ≠ key) := by
  induction table with
  | nil => cases hfind
  | cons e rest ih =>
    obtain ⟨hfirst, hrest⟩ := List.pairwise_cons.mp h
    by_cases hkey : e.1 = key
    · obtain rfl : e = (key, value) := by
        have hvalue : some e.2 = some value := by simpa [find?, hkey] using hfind
        exact Prod.ext hkey (Option.some.inj hvalue)
      rw [List.filter_cons_of_neg (by simp), filter_eq_self_of_lt hfirst]
    · rw [List.filter_cons_of_pos (by simpa using hkey)]
      have hfind : find? key rest = some value := by simpa [find?, hkey] using hfind
      exact ((ih hrest hfind).cons e).trans (.swap ..)

end Table

namespace Arena

/-- Nothing is given out of an arena. -/
structure IsReset (a : Arena) : Prop where
  used : ∀ b ∈ a.blocks, b.used = 0
  current : a.current = 0

theorem isReset_reset (a : Arena) : a.reset.IsReset where
  used b hb := by
    obtain ⟨_, _, rfl⟩ := List.mem_map.mp hb
    rfl
  current := rfl

/-! ### Pools -/

namespace Pool

/-- A pool, with the leases that are alive.  Every arena is lent or idle; no two of those leases
are of one arena, and none of them is of an idle one; and idle arenas are reset. -/
structure Sound (p : Pool) (live : List Lease) : Prop where
  created : p.created = p.leased + p.idle.length
  leased : p.leased = live.length
  apart : ((live ++ p.idle).map Lease.number).Nodup
  known : ∀ lease ∈ live ++ p.idle, lease.number < p.created
  reset : ∀ lease ∈ p.idle, lease.arena.IsReset

/-- One step of a pool, as it is done under its lock, with the leases that are alive before and
after it.  In between, leases are carried about, and something is written into their arenas;
then nothing changes but the order of the leases and what is in the arenas. -/
inductive Step : Pool × List Lease → Pool × List Lease → Prop where
  | acquire (p : Pool) (live : List Lease) : Step (p, live) (p.acquire.2, p.acquire.1 :: live)
  | giveBack (p : Pool) (lease : Lease) (live : List Lease) :
      Step (p, lease :: live) (p.giveBack lease, live)
  | carry {p : Pool} {live live' : List Lease}
      (h : (live.map Lease.number).Perm (live'.map Lease.number)) : Step (p, live) (p, live')

/-- Some steps of a pool. -/
def Steps : Pool × List Lease → Pool × List Lease → Prop := Relation.ReflTransGen Step

namespace Sound

variable {p p' : Pool} {live live' : List Lease} {lease : Lease}

theorem ofCreate {capacity blockSize : UInt64} (h : create capacity blockSize = .ok p) :
    p.Sound [] := by
  unfold create at h
  split at h
  · cases h
  split at h
  · cases h
  obtain rfl := Except.ok.inj h
  exact ⟨rfl, rfl, .nil, by simp, by simp⟩

/-- Only the numbers of the leases matter. -/
theorem carry (h : p.Sound live)
    (hnumbers : (live.map Lease.number).Perm (live'.map Lease.number)) : p.Sound live' := by
  have hall : ((live ++ p.idle).map Lease.number).Perm ((live' ++ p.idle).map Lease.number) := by
    rw [List.map_append, List.map_append]
    exact hnumbers.append_right _
  refine ⟨h.created, ?_, hall.nodup_iff.mp h.apart, fun lease hlease => ?_, h.reset⟩
  · rw [h.leased, ← List.length_map Lease.number, hnumbers.length_eq, List.length_map]
  · obtain ⟨lease', hlease', hnumber⟩ :=
      List.mem_map.mp (hall.mem_iff.mpr (List.mem_map_of_mem hlease))
    rw [← hnumber]
    exact h.known lease' hlease'

/-- A new lease is of an arena that nobody holds, and nothing is given out of it. -/
theorem acquire (h : p.Sound live) :
    p.acquire.2.Sound (p.acquire.1 :: live) ∧ p.acquire.1.arena.IsReset := by
  obtain ⟨capacity, blockSize, idle, created, leased, peak⟩ := p
  have hcreated := h.created
  have hleased := h.leased
  cases idle with
  | nil =>
    refine ⟨⟨?_, congrArg (· + 1) hleased, ?_, ?_, by simp [Pool.acquire, lend]⟩,
      by simp [Pool.acquire], rfl⟩
    · simp only [Pool.acquire, lend, List.length_nil] at hcreated ⊢
      omega
    · -- the number of a new arena is that of none before it
      refine List.nodup_cons.mpr ⟨fun hmem => ?_, h.apart⟩
      obtain ⟨lease, hlease, hnumber⟩ := List.mem_map.mp hmem
      exact absurd hnumber (Nat.ne_of_lt (h.known lease hlease))
    · refine List.forall_mem_cons.mpr ⟨Nat.lt_succ_self _, fun lease hlease => ?_⟩
      exact Nat.lt_succ_of_lt (h.known lease hlease)
  | cons lease idle =>
    have hperm : (live ++ lease :: idle).Perm (lease :: live ++ idle) := List.perm_middle
    refine ⟨⟨?_, congrArg (· + 1) hleased, (hperm.map _).nodup_iff.mp h.apart,
      fun lease' hlease' => h.known lease' (hperm.mem_iff.mpr hlease'),
      (List.forall_mem_cons.mp h.reset).2⟩, (List.forall_mem_cons.mp h.reset).1⟩
    simp only [Pool.acquire, lend, List.length_cons] at hcreated ⊢
    omega

/-- The arena of a lease that ends is idle then, and reset. -/
theorem giveBack (h : p.Sound (lease :: live)) : (p.giveBack lease).Sound live := by
  have hcreated := h.created
  have hleased := h.leased
  rw [List.length_cons] at hleased
  have hnumbers : ((lease :: live ++ p.idle).map Lease.number).Perm
      ((live ++ (p.giveBack lease).idle).map Lease.number) := by
    rw [Pool.giveBack, List.map_append, List.map_append, List.map_cons, List.map_cons]
    exact List.perm_middle.symm
  refine ⟨?_, ?_, hnumbers.nodup_iff.mp h.apart, fun lease' hlease' => ?_,
    List.forall_mem_cons.mpr ⟨isReset_reset _, h.reset⟩⟩
  · simp only [Pool.giveBack, List.length_cons]
    omega
  · simp only [Pool.giveBack]
    omega
  · obtain ⟨lease'', hlease'', hnumber⟩ :=
      List.mem_map.mp (hnumbers.mem_iff.mpr (List.mem_map_of_mem hlease'))
    rw [← hnumber]
    exact h.known lease'' hlease''

/-- **Every step of a pool keeps it sound.** -/
theorem step (h : p.Sound live) (hstep : Step (p, live) (p', live')) : p'.Sound live' := by
  cases hstep with
  | acquire => exact h.acquire.1
  | giveBack lease => exact h.giveBack
  | carry hnumbers => exact h.carry hnumbers

theorem steps {x y : Pool × List Lease} (h : x.1.Sound x.2) (hsteps : Steps x y) :
    y.1.Sound y.2 := by
  induction hsteps with
  | refl => exact h
  | tail _ hstep ih => exact ih.step hstep

end Sound

end Pool

/-! ### Leases under names -/

namespace Leases

/-- What can be done with leases under names. -/
inductive Op where
  | acquire (name : Bytes)
  | release (name : Bytes)
  | move (source target : Bytes)
  | copy (bases : Nat → UInt64) (name text : Bytes)

/-- The leases after something was done. -/
def perform (l : Leases) : Op → Leases
  | .acquire name => l.acquire name
  | .release name => l.release name
  | .move source target => l.move source target
  | .copy bases name text => (l.copy bases name text).2

/-- The leases that are alive. -/
def live (l : Leases) : List Lease := l.held.map Prod.snd

/-- Other leases, after some steps of the pool. -/
structure Serves (l l' : Leases) : Prop where
  steps : Pool.Steps (l.pool, l.live) (l'.pool, l'.live)
  sorted : l'.held.Sorted

variable {l : Leases} {name : Bytes} {lease : Lease}

theorem Serves.trans {l' l'' : Leases} (h : Serves l l') (h' : Serves l' l'') : Serves l l'' :=
  ⟨h.steps.trans h'.steps, h'.sorted⟩

/-- The lease of a name is alive, with those of the others. -/
theorem live_perm (h : l.held.Sorted) (hfind : l.find? name = some lease) :
    l.live.Perm (lease :: (l.drop name).live) :=
  (Table.perm_of_some h hfind).map Prod.snd

theorem sorted_drop (h : l.held.Sorted) (name : Bytes) : (l.drop name).held.Sorted :=
  List.Pairwise.filter _ h

theorem held_release (l : Leases) (name : Bytes) : (l.release name).held = (l.drop name).held := by
  unfold release
  cases hfind : l.find? name with
  | none => exact (Table.filter_eq_self_of_none hfind).symm
  | some lease => rfl

/-- The lease of a name ends. -/
theorem serves_release (h : l.held.Sorted) (name : Bytes) : Serves l (l.release name) := by
  refine ⟨?_, held_release l name ▸ sorted_drop h name⟩
  unfold release
  cases hfind : l.find? name with
  | none => exact .refl
  | some lease =>
    exact .tail (.single (.carry ((live_perm h hfind).map _))) (.giveBack l.pool lease _)

/-- A lease that is alive, and under no name, is put under one. -/
theorem steps_assign (h : l.held.Sorted) (name : Bytes) (lease : Lease) :
    Pool.Steps (l.pool, lease :: l.live)
      ((l.assign name lease).pool, (l.assign name lease).live) := by
  have hlive : (lease :: (l.drop name).live).Perm (l.assign name lease).live := by
    have hinsert := Table.insert_perm (sorted_drop h name) name lease
    have hagain : (l.drop name).held.filter (fun e => e.1 ≠ name) = (l.drop name).held := by
      rw [drop, List.filter_filter]
      simp
    rw [hagain] at hinsert
    rw [assign, live, held_release]
    exact (hinsert.map Prod.snd).symm
  refine .tail ?_ (.carry (hlive.map _))
  unfold assign release
  cases hfind : l.find? name with
  | none =>
    have hdrop : (l.drop name).live = l.live :=
      congrArg (List.map Prod.snd) (Table.filter_eq_self_of_none hfind)
    exact hdrop ▸ .refl
  | some old =>
    have hold : (lease :: l.live).Perm (old :: lease :: (l.drop name).live) :=
      ((live_perm h hfind).cons lease).trans (.swap ..)
    exact .tail (.single (.carry (hold.map _))) (.giveBack l.pool old _)

theorem sorted_assign (h : l.held.Sorted) (name : Bytes) (lease : Lease) :
    (l.assign name lease).held.Sorted := by
  have hrelease : (l.release name).held.Sorted := (serves_release h name).sorted
  exact hrelease.insert name lease

/-- A new lease is put under a name. -/
theorem serves_acquire (h : l.held.Sorted) (name : Bytes) : Serves l (l.acquire name) := by
  have hacquired : ({ l with pool := l.pool.acquire.2 } : Leases).held.Sorted := h
  exact ⟨.head (.acquire l.pool l.live) (steps_assign hacquired name _),
    sorted_assign hacquired name _⟩

/-- A lease is put under another name. -/
theorem serves_move (h : l.held.Sorted) (source target : Bytes) :
    Serves l (l.move source target) := by
  unfold move
  by_cases hsame : source = target
  · rw [if_pos hsame]
    exact serves_release h source
  rw [if_neg hsame]
  cases hfind : l.find? source with
  | none => exact ⟨.refl, h⟩
  | some lease =>
    have hdrop := sorted_drop h source
    exact ⟨.head (.carry ((live_perm h hfind).map _)) (steps_assign hdrop target lease),
      sorted_assign hdrop target lease⟩

/-- A text is copied into the arena of a name. -/
theorem serves_copy (h : l.held.Sorted) (bases : Nat → UInt64) (name text : Bytes) :
    Serves l (l.copy bases name text).2 := by
  unfold copy
  cases hfind : l.find? name with
  | none => exact ⟨.refl, h⟩
  | some lease =>
    -- the lease is the same one, whatever is in its arena
    have hinsert := Table.insert_perm h name
      ({ lease with arena := (lease.arena.copy bases text).2 } : Lease)
    have hnumbers := (live_perm h hfind).map Lease.number
    have hnumbers' := (hinsert.map Prod.snd).map Lease.number
    exact ⟨.single (.carry (hnumbers.trans hnumbers'.symm)), h.insert name _⟩

/-- **What is done with leases under names** is steps of their pool. -/
theorem serves_perform (h : l.held.Sorted) (op : Op) : Serves l (l.perform op) := by
  cases op with
  | acquire name => exact serves_acquire h name
  | release name => exact serves_release h name
  | move source target => exact serves_move h source target
  | copy bases name text => exact serves_copy h bases name text

/-- So is all that is done with them from the beginning. -/
theorem serves_performs (h : l.held.Sorted) (ops : List Op) :
    Serves l (ops.foldl perform l) := by
  induction ops generalizing l with
  | nil => exact ⟨.refl, h⟩
  | cons op ops ih =>
    have hfirst := serves_perform h op
    exact hfirst.trans (ih hfirst.sorted)

end Leases

end Arena

end ScriptLint
