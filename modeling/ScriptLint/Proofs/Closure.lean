/-
What a run loads.

The modules that a run has to load are the input paths and all that is imported from
there, directly or not.  A run comes to an end, in whatever order things happen, and
has loaded these modules then, each of them once:

* **`LintSession.Closed`** — a set of modules that has the input paths and is closed
  under imports;
* **`LintSession.Ends`** — no execution goes on forever, or stops before the end;
* **`LintSession.Closes`** — what was loaded is the least closed set, and what the graph
  and the counts say of it;
* **`LintSession.run_closes`** — every execution of a run ends like this.
-/
import Mathlib.Order.Bounds.Defs
import ScriptLint.Proofs.Completion

namespace ScriptLint

/-! ### The entries of a run -/

/-- The keys of a set are those of the paths that it was made of. -/
theorem PathSet.contains_ofList (paths : List Path) (p : Path) :
    (PathSet.ofList paths).contains p = true ↔ ∃ q ∈ paths, q.key = p.key := by
  have hinsert (s : PathSet) (q : Path) :
      (s.insert q).contains p = true ↔ q.key = p.key ∨ s.contains p = true := by
    simp only [contains_iff]
    unfold insert
    split
    · rename_i hq
      obtain ⟨q', hq', hkey⟩ := (s.contains_iff q).mp hq
      exact ⟨.inr, fun h => h.elim (fun h => ⟨q', hq', hkey.trans h⟩) id⟩
    · simp only [List.mem_append, List.mem_singleton, or_and_right, exists_or, exists_eq_left]
      exact or_comm
  have hfold (s : PathSet) : (paths.foldl insert s).contains p = true ↔
      (∃ q ∈ paths, q.key = p.key) ∨ s.contains p = true := by
    induction paths generalizing s with
    | nil => simp
    | cons q rest ih =>
      rw [List.foldl_cons, ih, hinsert, ← or_assoc, List.exists_mem_cons_iff,
        or_comm (b := q.key = p.key)]
  rw [ofList, hfold]
  simp [empty, contains_iff]

namespace Linter

variable {l : Linter} {files : MemoryFiles} {loaded : List Path} {analyses : List Analysis}
  {s : RunState MemoryFiles}

/-- When nothing is left to do, the modules that are reached were loaded. -/
theorem Between.mem_iff (h : Between l files loaded analyses [] s) (k : Path.Key) :
    k ∈ loaded.map Path.key ↔ l.Reaches files k := by
  constructor
  · intro hk
    obtain ⟨p, hp, rfl⟩ := List.mem_map.mp hk
    exact h.handed.reached p hp
  · intro hk
    induction hk with
    | entry hp => simpa using h.entries _ hp
    | imported _ hab ih =>
      obtain ⟨p, hp, rfl⟩ := List.mem_map.mp ih
      obtain ⟨t, ht, rfl⟩ := List.mem_map.mp (imports_iff.mp hab)
      exact h.closed p hp t ht

/-- The graph has a node for each module that was loaded, and no others. -/
theorem Between.modules (h : Between l files loaded analyses [] s) :
    (s.graph.modules.map Path.key).Perm (loaded.map Path.key) := by
  rw [h.knows.proper.keys_modules, List.perm_ext_iff_of_nodup Std.TreeMap.nodup_keys h.handed.nodup]
  intro k
  rw [Std.TreeMap.mem_keys, h.knows.mem]
  refine or_iff_left_of_imp ?_
  rintro ⟨p, hp, hk⟩
  obtain ⟨t, ht, rfl⟩ := List.mem_map.mp hk
  exact h.closed p hp t ht

/-- Each file was read at most once more. -/
theorem Between.reads_le (h : Between l files loaded analyses [] s) (p : Path) :
    s.resources.files.reads p ≤ files.reads p + 1 := by
  have hcount : (loaded.map Path.key).count p.key ≤ 1 :=
    List.nodup_iff_count_le_one.mp h.handed.nodup p.key
  exact le_trans (h.stored.reads p) (Nat.add_le_add_left hcount _)

/-- The nodes of the entries are marked, and no others. -/
theorem Between.entry_iff (h : Between l files loaded analyses [] s) {p : Path} {n : Node}
    (hn : s.graph.find? p = some n) : n.entry = true ↔ l.entries.contains p = true := by
  have hmem : p.key ∈ s.graph.modules.map Path.key := by
    rw [h.knows.proper.keys_modules, Std.TreeMap.mem_keys]
    exact Std.TreeMap.mem_iff_isSome_getElem?.mpr (Option.isSome_iff_exists.mpr ⟨n, hn⟩)
  obtain ⟨q, hq, hkey⟩ := List.mem_map.mp (h.modules.mem_iff.mp hmem)
  have hentry := (h.knows.node q hq).entry
  rw [hkey, ModuleGraph.core_eq, hn, entry_module] at hentry
  rw [← PathSet.contains_congr _ hkey, ← hentry]
  rfl

end Linter

/-! ### The closure of the input paths -/

/-- Two files that import each other. -/
def MemoryFiles.cycle : MemoryFiles :=
  (MemoryFiles.empty.add "/a.js" "import './b.js';\n").add "/b.js" "import './a.js';\n"

namespace LintSession

variable (s : LintSession)

/-- A set of modules that has the input paths, made absolute, and is closed under
imports. -/
def Closed (paths : List Path) (files : MemoryFiles) (modules : Set Path.Key) : Prop :=
  (∀ p ∈ paths, (p.absoluteFrom s.options.directory).key ∈ modules) ∧
    ∀ a ∈ modules, ∀ b, (s.linterOf paths).Imports files a b → b ∈ modules

/-- Every execution of a run comes to its end: there is a bound on its steps, and
before the end there is a next one. -/
def Ends (paths : List Path) (r : Resources MemoryFiles) : Prop :=
  ∃ bound, ∀ n loaded phase, (s.linterOf paths).Steps (s.start paths r) n loaded phase →
    n ≤ bound ∧ ((∃ state, phase = .finished state) ∨
      ∃ more phase', (s.linterOf paths).Step phase more phase')

/-- An execution that has ended has loaded the least closed set of modules, each of
them once, and the graph and the counts say so. -/
structure Closes (paths : List Path) (r : Resources MemoryFiles) (loaded : List Path)
    (state : RunState MemoryFiles) : Prop where
  least : IsLeast {modules | s.Closed paths r.files modules} {k | k ∈ loaded.map Path.key}
  once : (loaded.map Path.key).Nodup
  reads : ∀ p : Path, state.resources.files.reads p ≤ r.files.reads p + 1
  modules : (state.graph.modules.map Path.key).Perm (loaded.map Path.key)
  dispatched : ∀ k, k ∈ state.graph.dispatched ↔ k ∈ loaded.map Path.key
  processed : (s.report (s.entries paths) state).counts.processed =
    (s.report (s.entries paths) state).modules
  entry : ∀ p n, state.graph.find? p = some n →
    (n.entry = true ↔ ∃ q ∈ paths, (q.absoluteFrom s.options.directory).key = p.key)

variable {s} {paths : List Path} {r : Resources MemoryFiles} {loaded : List Path}
  {state : RunState MemoryFiles}

theorem contains_entries (p : Path) : (s.entries paths).contains p = true ↔
    ∃ q ∈ paths, (q.absoluteFrom s.options.directory).key = p.key := by
  rw [entries, PathSet.contains_ofList]
  simp only [List.mem_map, exists_exists_and_eq_and]

/-- An execution that has ended is between batches, with none left. -/
theorem Finishes.between (h : s.Finishes paths r loaded state) :
    ∃ analyses, (s.linterOf paths).Between r.files loaded analyses [] state := by
  obtain ⟨_, n, hsteps⟩ := h
  exact (s.sound_start paths r).steps hsteps

theorem isLeast_reaches (files : MemoryFiles) :
    IsLeast {modules | s.Closed paths files modules}
      {k | (s.linterOf paths).Reaches files k} := by
  refine ⟨⟨fun p hp => ?_, fun a ha b hab => .imported ha hab⟩, fun modules hmodules k hk => ?_⟩
  · have hcontains := (contains_entries (s := s) _).mpr ⟨p, hp, rfl⟩
    obtain ⟨q, hq, hkey⟩ := (PathSet.contains_iff _ _).mp hcontains
    exact hkey ▸ .entry hq
  · induction hk with
    | @entry q hq =>
      have hcontains := (PathSet.contains_iff (s.entries paths) q).mpr ⟨q, hq, rfl⟩
      obtain ⟨p, hp, hkey⟩ := (contains_entries q).mp hcontains
      exact hkey ▸ hmodules.1 p hp
    | imported _ hab ih => exact hmodules.2 _ ih _ hab

theorem Finishes.closes (h : s.Finishes paths r loaded state) : s.Closes paths r loaded state := by
  obtain ⟨analyses, h⟩ := h.between
  have hloaded : {k | k ∈ loaded.map Path.key} = {k | (s.linterOf paths).Reaches r.files k} :=
    Set.ext h.mem_iff
  refine ⟨?_, h.handed.nodup, h.reads_le, h.modules, h.handed.dispatched, ?_, fun p n hn => ?_⟩
  · rw [hloaded]
    exact isLeast_reaches r.files
  · have hsize := h.modules.length_eq
    rw [h.knows.proper.keys_modules, Std.TreeMap.length_keys, List.length_map] at hsize
    exact h.tallied.processed.trans hsize.symm
  · exact (h.entry_iff hn).trans (contains_entries p)

/-- All rules with their own severities. -/
def standard : LintSession := { options := {}, rules := Rule.defaults Rule.builtin }

/-- **Every execution of a run ends, and has loaded the least set of modules that has the
input paths and is closed under imports, each of them once.** -/
theorem run_closes (s : LintSession) {paths : List Path} (hpaths : paths ≠ [])
    (r : Resources MemoryFiles) :
    s.Ends paths r ∧
      (∃ loaded state, s.Finishes paths r loaded state ∧
        s.run paths r = (.ok (s.report (s.entries paths) state, state.graph), state.resources)) ∧
      ∀ loaded state, s.Finishes paths r loaded state → s.Closes paths r loaded state :=
  ⟨⟨_, fun _ _ _ h => ⟨s.steps_le h, ((s.sound_start paths r).steps h).exists_step⟩⟩,
    s.exists_finishes hpaths r, fun _ _ h => h.closes⟩

/-- Of two files that import each other, both are loaded when one is asked for. -/
theorem run_closes_cycle : ∃ loaded state,
    standard.Finishes [⟨"/a.js"⟩] ⟨MemoryFiles.cycle, standard.pool⟩ loaded state ∧
      (loaded.map Path.key).Perm [Path.key ⟨"/a.js"⟩, Path.key ⟨"/b.js"⟩] := by
  have hpaths : [(⟨"/a.js"⟩ : Path)] ≠ [] := List.cons_ne_nil _ _
  obtain ⟨_, ⟨loaded, state, hfinishes, _⟩, hcloses⟩ :=
    standard.run_closes hpaths ⟨MemoryFiles.cycle, standard.pool⟩
  have h := hcloses loaded state hfinishes
  have hfirst (k : Path.Key) : (standard.linterOf [⟨"/a.js"⟩]).Imports MemoryFiles.cycle
      (Path.key ⟨"/a.js"⟩) k ↔ k ∈ [Path.key ⟨"/b.js"⟩] := by
    rw [Linter.imports_iff]
    exact iff_of_eq (congrArg (k ∈ ·) (by decide +kernel))
  have hsecond (k : Path.Key) : (standard.linterOf [⟨"/a.js"⟩]).Imports MemoryFiles.cycle
      (Path.key ⟨"/b.js"⟩) k ↔ k ∈ [Path.key ⟨"/a.js"⟩] := by
    rw [Linter.imports_iff]
    exact iff_of_eq (congrArg (k ∈ ·) (by decide +kernel))
  have hentry : (Path.absoluteFrom ⟨"/a.js"⟩ standard.options.directory).key =
      Path.key ⟨"/a.js"⟩ := by decide
  have hclosed : standard.Closed [⟨"/a.js"⟩] MemoryFiles.cycle
      {k | k ∈ [Path.key ⟨"/a.js"⟩, Path.key ⟨"/b.js"⟩]} := by
    refine ⟨fun p hp => ?_, fun a ha b hab => ?_⟩
    · rw [List.mem_singleton.mp hp, hentry]
      exact List.mem_cons_self
    rcases List.mem_pair.mp ha with rfl | rfl
    · exact List.mem_pair.mpr (.inr (List.mem_singleton.mp ((hfirst b).mp hab)))
    · exact List.mem_pair.mpr (.inl (List.mem_singleton.mp ((hsecond b).mp hab)))
  refine ⟨loaded, state, hfinishes, (List.perm_ext_iff_of_nodup h.once (by decide)).mpr
    fun k => ⟨fun hk => h.least.2 hclosed hk, fun hk => ?_⟩⟩
  have ha : Path.key ⟨"/a.js"⟩ ∈ loaded.map Path.key :=
    hentry ▸ h.least.1.1 _ (List.mem_singleton_self _)
  rcases List.mem_pair.mp hk with rfl | rfl
  · exact ha
  · exact h.least.1.2 _ ha _ ((hfirst _).mpr (List.mem_singleton_self _))

end LintSession

end ScriptLint
