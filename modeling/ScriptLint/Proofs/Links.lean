/-
What a module sees of the modules that it imports.

The requests of a segment lead to the interfaces that the importers of their
targets see.  `Linter.links` says so with the files alone, without a graph;
`ModuleGraph.Shows` is what a graph has to have for a module to be analyzed as the
files say:

* **`Linter.links`** — the interfaces that the requests of a segment lead to;
* **`Linter.links_congr`** — they depend on the bodies of modules alone;
* **`ModuleGraph.Shows`** — the graph links a module's requests like that, knows
  which of its targets failed, and has every edge on a way back to the module.
-/
import ScriptLint.Proofs.GraphSearch
import ScriptLint.Proofs.Imports

namespace ScriptLint

/-- Options with the same image are both empty, or hold values with the same image. -/
theorem both_of_map_eq {α α' β : Type} {f : α → β} {f' : α' → β} {o : Option α} {o' : Option α'}
    (h : o.map f = o'.map f') :
    (o = none ∧ o' = none) ∨ ∃ a a', o = some a ∧ o' = some a' ∧ f a = f' a' := by
  cases o with
  | none => exact .inl ⟨rfl, Option.map_eq_none_iff.mp h.symm⟩
  | some a =>
    obtain ⟨a', ha', hf⟩ := Option.map_eq_some_iff.mp h.symm
    exact .inr ⟨a, a', rfl, ha', hf.symm⟩

namespace Table

variable {α β : Type}

/-- Maps the values of a table. -/
def map (f : α → β) (table : Table α) : Table β := List.map (fun e => (e.1, f e.2)) table

theorem map_insert (f : α → β) (key : Bytes) (value : α) (table : Table α) :
    map f (insert key value table) = insert key (f value) (map f table) := by
  induction table with
  | nil => rfl
  | cons e rest ih =>
    have hcons : map f (e :: rest) = (e.1, f e.2) :: map f rest := rfl
    rw [hcons, insert, insert]
    cases compare key e.1 with
    | lt => rfl
    | eq => rfl
    | gt => exact congrArg ((e.1, f e.2) :: ·) ih

theorem find?_map (f : α → β) (key : Bytes) (table : Table α) :
    find? key (map f table) = (find? key table).map f := by
  rw [find?, map, List.find?_map, find?, Option.map_map, Option.map_map]
  rfl

theorem mem_of_find? {key : Bytes} {table : Table α} {value : α} (h : find? key table = some value) :
    (key, value) ∈ table := by
  obtain ⟨e, he, rfl⟩ := Option.map_eq_some_iff.mp h
  have hkey : e.1 = key := by simpa using List.find?_some he
  rw [← hkey]
  exact List.mem_of_find?_eq_some he

theorem mem_insert {key : Bytes} {value : α} {table : Table α} {e : Bytes × α}
    (h : e ∈ insert key value table) : e = (key, value) ∨ e ∈ table := by
  induction table with
  | nil => exact .inl (List.mem_singleton.mp h)
  | cons first rest ih =>
    rw [insert] at h
    split at h
    · rcases List.mem_cons.mp h with rfl | h
      · exact .inl rfl
      · exact .inr h
    · rcases List.mem_cons.mp h with rfl | h
      · exact .inl rfl
      · exact .inr (List.mem_cons_of_mem _ h)
    · rcases List.mem_cons.mp h with rfl | h
      · exact .inr List.mem_cons_self
      · exact (ih h).imp_right (List.mem_cons_of_mem _)

end Table

/-! ### The node of a module -/

/-- What the graph knows about a module once it was received. -/
def Module.node (m : Module) : Node :=
  { path := ⟨[]⟩
    records := m.interfaces.map fun i => ⟨i, []⟩
    edges := m.edges
    failed := m.failed
    entry := m.entry
    successors := m.targets.foldl (fun s t => s.add t) ∅ }

/-- The module that a specifier leads to. -/
def Module.target? (m : Module) (specifier : Bytes) : Option Path :=
  (m.edges.find? fun e => e.specifier = specifier).map Edge.target

theorem Module.target?_mem {m : Module} {specifier : Bytes} {t : Path}
    (h : m.target? specifier = some t) : t ∈ m.targets := by
  obtain ⟨e, he, rfl⟩ := Option.map_eq_some_iff.mp h
  exact List.mem_map_of_mem (List.mem_of_find?_eq_some he)

theorem Module.target?_congr {m m' : Module} (h : m.keyed.body = m'.keyed.body)
    (specifier : Bytes) :
    (m.target? specifier).map Path.key = (m'.target? specifier).map Path.key := by
  have hread (m : Module) : (m.target? specifier).map Path.key =
      ((m.edges.map fun e => (e.specifier, e.target.key)).find?
        fun e => e.1 = specifier).map Prod.snd := by
    rw [target?, List.find?_map, Option.map_map, Option.map_map]
    rfl
  rw [hread, hread, Module.edges_congr h]

namespace Linter

variable (l : Linter) (files : MemoryFiles)

/-- The interface that importers of a module see. -/
def shown (p : Path) : Option (Path.Key × Interface) :=
  ((l.module files p).interfaces.map Interface.keyed).getLast?

/-- The interfaces that the requests of a module lead to. -/
def linkTable (m : Module) (requests : List Request) : Table (Path.Key × Interface) :=
  requests.foldl (fun table request =>
    match (m.target? request.specifier).bind (l.shown files) with
    | none => table
    | some i => table.insert request.specifier i) []

/-- The interfaces that the requests of a segment lead to. -/
def links (m : Module) (segment : Nat) : Table (Path.Key × Interface) :=
  match m.interfaces.find? fun i => i.segment = segment with
  | none => []
  | some i => l.linkTable files m i.requests

variable {files}

theorem shown_congr {l l' : Linter}
    (h : ∀ p q : Path, p.key = q.key →
      (l.module files p).keyed.body = (l'.module files q).keyed.body)
    {p q : Path} (hpq : p.key = q.key) : l.shown files p = l'.shown files q := by
  rw [shown, shown, Module.interfaces_congr (h p q hpq)]

theorem links_congr {l l' : Linter}
    (h : ∀ p q : Path, p.key = q.key →
      (l.module files p).keyed.body = (l'.module files q).keyed.body)
    {m m' : Module} (hm : m.keyed.body = m'.keyed.body) (segment : Nat) :
    l.links files m segment = l'.links files m' segment := by
  have htarget (specifier : Bytes) : (m.target? specifier).bind (l.shown files) =
      (m'.target? specifier).bind (l'.shown files) := by
    rcases both_of_map_eq (Module.target?_congr hm specifier) with
      ⟨ht, ht'⟩ | ⟨t, t', ht, ht', hkey⟩
    · rw [ht, ht']
      rfl
    · rw [ht, ht']
      exact shown_congr h hkey
  have htable (requests : List Request) :
      l.linkTable files m requests = l'.linkTable files m' requests := by
    simp only [linkTable, htarget]
  have hread (m : Module) : (m.interfaces.find? fun i => i.segment = segment).map
      Interface.requests = ((m.interfaces.map Interface.keyed).find?
        fun i => i.2.segment = segment).map fun i => i.2.requests := by
    rw [List.find?_map, Option.map_map]
    rfl
  have hrequests := (hread m).trans ((Module.interfaces_congr hm) ▸ (hread m').symm)
  unfold links
  rcases both_of_map_eq hrequests with ⟨hi, hi'⟩ | ⟨i, i', hi, hi', hr⟩
  · rw [hi, hi']
  · rw [hi, hi']
    simp only [hr, htable]

variable {l}

/-- The interfaces in a table belong to targets of the module. -/
theorem mem_linkTable {m : Module} {requests : List Request} {e : Bytes × Path.Key × Interface}
    (h : e ∈ l.linkTable files m requests) : ∃ t ∈ m.targets, l.shown files t = some e.2 := by
  have hfold (requests : List Request) (table : Table (Path.Key × Interface))
      (htable : ∀ e ∈ table, ∃ t ∈ m.targets, l.shown files t = some e.2) :
      ∀ e ∈ requests.foldl (fun table request =>
        match (m.target? request.specifier).bind (l.shown files) with
        | none => table
        | some i => table.insert request.specifier i) table,
        ∃ t ∈ m.targets, l.shown files t = some e.2 := by
    induction requests generalizing table with
    | nil => exact htable
    | cons r rest ih =>
      refine ih _ ?_
      intro e he
      dsimp only at he
      split at he
      · exact htable e he
      · rename_i i hi
        rcases Table.mem_insert he with rfl | he
        · obtain ⟨t, ht, hshown⟩ := Option.bind_eq_some_iff.mp hi
          exact ⟨t, Module.target?_mem ht, hshown⟩
        · exact htable e he
  exact hfold requests [] (fun e he => absurd he List.not_mem_nil) e h

theorem mem_links {m : Module} {segment : Nat} {e : Bytes × Path.Key × Interface}
    (h : e ∈ l.links files m segment) : ∃ t ∈ m.targets, t.key = e.2.1 := by
  unfold links at h
  split at h
  · exact absurd h List.not_mem_nil
  · obtain ⟨t, ht, hshown⟩ := mem_linkTable h
    refine ⟨t, ht, ?_⟩
    obtain ⟨i, hi, hkeyed⟩ := List.mem_map.mp (List.mem_of_getLast? hshown)
    rw [← hkeyed, ← l.path_interface files hi]
    rfl

end Linter

/-! ### Graphs that show a module what the files say -/

open Relation (ReflTransGen)

/-- What the graph has to have for the analysis of a module. -/
structure ModuleGraph.Shows (l : Linter) (files : MemoryFiles) (g : ModuleGraph) (p : Path) :
    Prop where
  proper : g.Proper
  closed : g.Closed
  mem : p.key ∈ g.nodes
  links : ∀ segment, Table.map Interface.keyed (Analyzing.links g p segment) =
    l.links files (l.module files p) segment
  mem_target : ∀ t ∈ (l.module files p).targets, t.key ∈ g.nodes
  failed : ∀ t ∈ (l.module files p).targets, (g.core t.key).failed = (l.module files t).failed
  sound : ∀ a b, b ∈ (g.core a).successors → l.Imports files a b
  complete : ∀ a b, ReflTransGen (l.Imports files) p.key a → l.Imports files a b →
    ReflTransGen (l.Imports files) b p.key → b ∈ (g.core a).successors

namespace ModuleGraph.Shows

variable {l l' : Linter} {files : MemoryFiles} {g g' : ModuleGraph} {p p' : Path}

/-- The modules that can be reached from `p` and lead back to it. -/
def OnCycle (l : Linter) (files : MemoryFiles) (p k : Path.Key) : Prop :=
  ReflTransGen (l.Imports files) p k ∧ ReflTransGen (l.Imports files) k p

theorem covers (h : g.Shows l files p) {t : Path}
    (ht : ∃ t' ∈ (l.module files p).targets, t'.key = t.key) :
    g.Covers t p (OnCycle l files p.key) (ReflTransGen (l.Imports files) p.key) where
  proper := h.proper
  closed := h.closed
  source := by
    obtain ⟨t', ht', hk⟩ := ht
    rw [hasModule_iff, ← hk]
    exact h.mem_target t' ht'
  goal := by
    rw [hasModule_iff]
    exact h.mem
  good_goal := ⟨.refl, .refl⟩
  reached_source := by
    obtain ⟨t', ht', hk⟩ := ht
    rw [← hk]
    exact .single (Linter.imports_of_mem ht')
  reached _ _ hk hk' := hk.tail (h.sound _ _ hk')
  back _ _ hk hk' hgood := ⟨hk, .head (h.sound _ _ hk') hgood.2⟩

/-- **The way back from a target to the module is the same in all graphs that show
the module what the files say.** -/
theorem findPath_congr (hbody : ∀ p q : Path, p.key = q.key →
      (l.module files p).keyed.body = (l'.module files q).keyed.body)
    (h : g.Shows l files p) (h' : g'.Shows l' files p') (hp : p.key = p'.key) {t t' : Path}
    (ht : ∃ q ∈ (l.module files p).targets, q.key = t.key) (htt : t.key = t'.key) :
    (g.findPath t p).map (List.map Path.key) = (g'.findPath t' p').map (List.map Path.key) := by
  have himports : l.Imports files = l'.Imports files := by
    funext a b
    exact propext (Linter.imports_congr (fun p => hbody p p rfl) a b)
  have ht' : ∃ q ∈ (l'.module files p').targets, q.key = t'.key := by
    rw [← List.mem_map, ← Module.targets_congr (hbody p p' hp), ← htt, List.mem_map]
    exact ht
  have hcovers' := h'.covers ht'
  rw [← hp] at hcovers'
  have hcycle : OnCycle l' files p.key = OnCycle l files p.key := by
    unfold OnCycle
    rw [himports]
  rw [hcycle] at hcovers'
  refine ModuleGraph.findPath_congr (h.covers ht) hcovers' htt hp fun a b ha hb => ?_
  constructor
  · intro hab
    have hcomplete := h'.complete a b
    rw [← himports, ← hp] at hcomplete
    exact hcomplete ha.1 (h.sound a b hab) hb.2
  · intro hab
    have hsound := h'.sound a b hab
    rw [← himports] at hsound
    exact h.complete a b ha.1 hsound hb.2

end ModuleGraph.Shows

end ScriptLint
