/-
The order of things in a run does not matter.

Which worker is done first, how many workers there are, in which batches and in which
order the paths are taken and whether edges are dropped between batches: none of this
shows in the results.  Two executions load the same modules, and the analyses of a
module are the same in both since its own batch has everything that can lead back to it:

* **`LintSession.rescheduled`** — the settings with another schedule;
* **`RunReport.Agree`** — the same results, up to the order of the problems and the
  spelling of paths;
* **`LintSession.run_independent`** — executions that differ in their schedules agree.
-/
import ScriptLint.Proofs.Closure

namespace ScriptLint

/-! ### Lists with the same keys -/

section

variable {α β γ κ : Type}

/-- What the keys of two lists determine is the same for lists with the same keys. -/
theorem perm_map_of_keys {key : α → κ} {key' : β → κ} {f : α → γ} {f' : β → γ} {xs : List α}
    {ys : List β} (hsame : ∀ a ∈ xs, ∀ b ∈ ys, key a = key' b → f a = f' b)
    (h : (xs.map key).Perm (ys.map key')) : (xs.map f).Perm (ys.map f') := by
  induction xs generalizing ys with
  | nil =>
    rw [List.map_nil, List.nil_perm, List.map_eq_nil_iff] at h
    rw [h]
    exact .nil
  | cons a rest ih =>
    obtain ⟨b, hb, hkey⟩ := List.mem_map.mp (h.mem_iff.mp List.mem_cons_self)
    obtain ⟨before, after, rfl⟩ := List.append_of_mem hb
    have hperm : (before ++ b :: after).Perm (b :: (before ++ after)) := List.perm_middle
    have hrest : (rest.map key).Perm ((before ++ after).map key') := by
      have := h.trans (hperm.map key')
      rw [List.map_cons, List.map_cons, hkey] at this
      exact this.cons_inv
    have hfirst : f a = f' b := hsame a List.mem_cons_self b hb hkey.symm
    refine List.Perm.trans ?_ (hperm.map f').symm
    rw [List.map_cons, List.map_cons, hfirst]
    exact (ih (fun a' ha' b' hb' => hsame a' (List.mem_cons_of_mem _ ha') b'
      (hperm.mem_iff.mpr (List.mem_cons_of_mem _ hb'))) hrest).cons _

/-- With distinct keys, a search by key does not depend on the order. -/
theorem find?_congr_of_perm [DecidableEq κ] {xs ys : List (κ × β)}
    (hnodup : (xs.map Prod.fst).Nodup) (h : xs.Perm ys) (k : κ) :
    xs.find? (fun x => x.1 = k) = ys.find? (fun x => x.1 = k) := by
  have hfilter := h.filter fun x => decide (x.1 = k)
  rw [← List.head?_filter, ← List.head?_filter]
  have hsublist := (List.filter_sublist (p := fun x => decide (x.1 = k)) (l := xs)).map Prod.fst
  have hkeys (x) (hx : x ∈ xs.filter fun x => decide (x.1 = k)) : x.1 = k := by
    simpa using (List.mem_filter.mp hx).2
  generalize xs.filter (fun x => decide (x.1 = k)) = found at hfilter hsublist hkeys
  match found with
  | [] => rw [List.nil_perm.mp hfilter]
  | [x] => rw [List.singleton_perm.mp hfilter]
  | x :: y :: more =>
    have htwice := hnodup.sublist hsublist
    have hx := hkeys x (by simp)
    have hy := hkeys y (by simp)
    simp [hx, hy] at htwice

end

namespace Linter

variable {l l' : Linter} {files : MemoryFiles} {loaded loaded' : List Path}
  {analyses analyses' : List Analysis} {s s' : RunState MemoryFiles}

/-- The modules that were analyzed are distinct. -/
theorem Between.nodup_analyses (h : Between l files loaded analyses [] s) :
    (analyses.map fun a => a.path.key).Nodup := by
  have hkept : ((loaded.filter (l.Kept files)).map Path.key).Nodup :=
    h.handed.nodup.sublist (List.filter_sublist.map Path.key)
  have hperm := (h.work.map Path.key).nodup_iff.mpr hkept
  rwa [List.map_map] at hperm

/-- The modules that were analyzed are those that were loaded and kept. -/
theorem Between.mem_analyses (h : Between l files loaded analyses [] s) (k : Path.Key) :
    k ∈ analyses.map (fun a => a.path.key) ↔ ∃ p ∈ loaded, l.Kept files p = true ∧ p.key = k := by
  have hmem := (h.work.map Path.key).mem_iff (a := k)
  rw [List.map_map] at hmem
  refine hmem.trans ?_
  simp only [List.mem_map, List.mem_filter, and_assoc]

/-- The text of a file after the analyses, read off what they amount to. -/
theorem textOf_congr (hnodup : (analyses.map fun a => a.path.key).Nodup)
    (h : (analyses.map Analysis.keyed).Perm (analyses'.map Analysis.keyed)) (q : Path) :
    textOf files analyses q = textOf files analyses' q := by
  have hread (analyses : List Analysis) : textOf files analyses q =
      ((analyses.map Analysis.keyed).find? fun x => x.1 = q.key).elim (files.content q)
        fun x => x.2.2.2 := by
    rw [textOf, List.find?_map]
    show _ = Option.elim (Option.map _ (analyses.find? fun a => a.path.key = q.key)) _ _
    cases analyses.find? fun a => a.path.key = q.key <;> rfl
  have hkeys : ((analyses.map Analysis.keyed).map Prod.fst).Nodup := by
    rw [List.map_map]
    exact hnodup
  rw [hread, hread, find?_congr_of_perm hkeys h]

/-! ### Ends of runs that load the same -/

/-- Linters that load the same modules, which need not be entries of both, and analyze
them in the same way. -/
structure Same (l l' : Linter) (files : MemoryFiles) : Prop where
  body : ∀ p q : Path, p.key = q.key →
    (l.module files p).keyed.body = (l'.module files q).keyed.body
  module : ∀ p q : Path, p.key = q.key → l.Reaches files p.key →
    (l.module files p).unmarked.keyed = (l'.module files q).unmarked.keyed
  reaches : ∀ k, l.Reaches files k ↔ l'.Reaches files k
  rules : ∀ r ∈ l.rules, r.rule ∈ Rule.builtin
  settings : l.analysisSettings = l'.analysisSettings
  crossModule : l.options.crossModule = l'.options.crossModule

namespace Same

variable (same : Same l l' files) (h : Between l files loaded analyses [] s)
  (h' : Between l' files loaded' analyses' [] s')

include same h h'

/-- The same modules are loaded. -/
theorem perm_keys : (loaded.map Path.key).Perm (loaded'.map Path.key) := by
  rw [List.perm_ext_iff_of_nodup h.handed.nodup h'.handed.nodup]
  intro k
  rw [h.mem_iff, h'.mem_iff, same.reaches]

/-- What the loaded modules determine is the same, if the marks of entries do not matter
for it. -/
theorem perm_modules {γ : Type} {f : Module → γ}
    (hf : ∀ m m' : Module, m.keyed = m'.keyed → f m = f m')
    (hmark : ∀ m : Module, f m.unmarked = f m := by exact fun _ => rfl) :
    (loaded.map fun p => f (l.module files p)).Perm
      (loaded'.map fun p => f (l'.module files p)) :=
  perm_map_of_keys (fun p hp q _ hkey => by
    rw [← hmark, hf _ _ (same.module p q hkey (h.handed.reached p hp)), hmark])
    (same.perm_keys h h')

theorem countP_modules {f : Module → Bool}
    (hf : ∀ m m' : Module, m.keyed = m'.keyed → f m = f m')
    (hmark : ∀ m : Module, f m.unmarked = f m := by exact fun _ => rfl) :
    loaded.countP (fun p => f (l.module files p)) =
      loaded'.countP fun p => f (l'.module files p) := by
  have hcount := (same.perm_modules h h' hf hmark).countP_eq id
  rwa [List.countP_map, List.countP_map] at hcount

/-- The same modules are analyzed, with the same outcomes. -/
theorem perm_analyses : (analyses.map Analysis.keyed).Perm (analyses'.map Analysis.keyed) := by
  have hkept (p q : Path) (hp : p ∈ loaded) (hkey : p.key = q.key) :
      l.Kept files p = l'.Kept files q := by
    have hcontent := congrArg (fun k => k.content.isSome)
      (same.module p q hkey (h.handed.reached p hp))
    simpa [Module.keyed, Module.unmarked, Kept] using hcontent
  have hloaded := same.perm_keys h h'
  have hkeys : (analyses.map fun a => a.path.key).Perm (analyses'.map fun a => a.path.key) := by
    rw [List.perm_ext_iff_of_nodup h.nodup_analyses h'.nodup_analyses]
    intro k
    rw [h.mem_analyses, h'.mem_analyses]
    constructor
    · rintro ⟨p, hp, hkeep, rfl⟩
      obtain ⟨q, hq, hkey⟩ := List.mem_map.mp (hloaded.mem_iff.mp (List.mem_map_of_mem hp))
      exact ⟨q, hq, (hkept p q hp hkey.symm).symm.trans hkeep, hkey⟩
    · rintro ⟨q, hq, hkeep, rfl⟩
      obtain ⟨p, hp, hkey⟩ := List.mem_map.mp (hloaded.mem_iff.mpr (List.mem_map_of_mem hq))
      exact ⟨p, hp, (hkept p q hp hkey).trans hkeep, hkey⟩
  refine perm_map_of_keys (fun a ha b hb hkey => ?_) hkeys
  have hreached : l.Reaches files a.path.key := by
    obtain ⟨p, hp, _, hpkey⟩ := (h.mem_analyses a.path.key).mp (List.mem_map_of_mem ha)
    exact hpkey ▸ h.handed.reached p hp
  obtain ⟨g, hg, ha⟩ := h.analyzed a ha
  obtain ⟨g', hg', hb⟩ := h'.analyzed b hb
  rw [ha, hb]
  exact analysis_congr_unmarked same.rules same.settings same.crossModule same.body hg hg'
    (same.module _ _ hkey hreached)

/-- What is counted of the analyses is the same. -/
theorem perm_counts : (analyses.map Analysis.counts).Perm (analyses'.map Analysis.counts) := by
  have hread (analyses : List Analysis) :
      analyses.map Analysis.counts = (analyses.map Analysis.keyed).map fun x => x.2.1 := by
    rw [List.map_map]
    rfl
  rw [hread, hread]
  exact (same.perm_analyses h h').map _

theorem sum_counts (f : AnalysisCounts → Nat) :
    (analyses.map fun a => f a.counts).sum = (analyses'.map fun a => f a.counts).sum := by
  have hsum := ((same.perm_counts h h').map f).sum_nat
  rwa [List.map_map, List.map_map] at hsum

/-- The same problems are emitted. -/
theorem perm_emitted :
    (s.emitted.map Diagnostic.keyed).Perm (s'.emitted.map Diagnostic.keyed) := by
  have hread {l : Linter} {loaded : List Path} {analyses : List Analysis}
      {s : RunState MemoryFiles} (h : Between l files loaded analyses [] s) :
      (s.emitted.map Diagnostic.keyed).Perm
        ((loaded.map fun p => (l.module files p).diagnostics.map Diagnostic.keyed).flatten ++
          ((analyses.map Analysis.keyed).map fun x => x.2.2.1).flatten) := by
    refine (h.tallied.emitted.map Diagnostic.keyed).trans (List.Perm.of_eq ?_)
    rw [List.map_append, List.map_flatMap, List.map_flatMap, List.map_map]
    rfl
  have hmodules := same.perm_modules h h' (f := fun m => m.diagnostics.map Diagnostic.keyed)
    fun m m' hm => Module.diagnostics_congr (congrArg Module.Keyed.body hm)
  have hanalyses := (same.perm_analyses h h').map fun x => x.2.2.1
  exact (hread h).trans ((hmodules.flatten.append hanalyses.flatten).trans (hread h').symm)

end Same

end Linter

/-! ### The same results -/

/-- Two reports, and the files with them, have the same results: the same problems in
any order, the same status, counts and texts.  Which spelling of a path stands for a
module can depend on who asks for it first, so problems have keys in the place of paths,
as equality of paths has. -/
structure RunReport.Agree (a a' : RunReport) (files files' : MemoryFiles) : Prop where
  diagnostics : (a.diagnostics.map Diagnostic.keyed).Perm (a'.diagnostics.map Diagnostic.keyed)
  status : a.status = a'.status
  content : ∀ p, files.content p = files'.content p
  processed : a.counts.processed = a'.counts.processed
  modules : a.modules = a'.modules
  analyzed : a.counts.analyzed = a'.counts.analyzed
  failed : a.counts.failed = a'.counts.failed
  unsupported : a.counts.unsupported = a'.counts.unsupported
  ruleFailures : a.counts.ruleFailures = a'.counts.ruleFailures
  fixesApplied : a.counts.fixesApplied = a'.counts.fixesApplied
  filesWritten : a.counts.filesWritten = a'.counts.filesWritten

/-- How many problems of a severity there are does not depend on their order. -/
theorem RunReport.countOf_congr {ds ds' : List Diagnostic}
    (h : (ds.map Diagnostic.keyed).Perm (ds'.map Diagnostic.keyed)) (severity : Severity) :
    countOf severity ds = countOf severity ds' := by
  have hcount := h.countP_eq fun x => decide (x.2.severity = severity)
  rwa [List.countP_map, List.countP_map] at hcount

namespace LintSession

/-- The second settings are the first ones with another schedule. -/
def Reschedules (s s' : LintSession) : Prop :=
  ∃ (concurrency : UInt32) (batchMultiplier : UInt64) (ordering : BatchOrder)
    (releaseEdges : Bool), s' = { s with
      options := { s.options with concurrency, batchMultiplier, ordering, releaseEdges } }

variable {s s' : LintSession} {paths paths' : List Path} {files : MemoryFiles}

/-- Another schedule, and the paths in another order: the modules are the same. -/
theorem Reschedules.same (h : s.Reschedules s') (hrules : ∀ r ∈ s.rules, r.rule ∈ Rule.builtin)
    (hpaths : ∀ p, p ∈ paths ↔ p ∈ paths') :
    Linter.Same (s.linterOf paths) (s'.linterOf paths') files := by
  obtain ⟨concurrency, multiplier, ordering, release, rfl⟩ := h
  generalize hs' : LintSession.mk _ _ _ _ = s'
  have hloading : (s.linterOf paths).loading = (s'.linterOf paths').loading := by rw [← hs']; rfl
  have hentries (p : Path) :
      (s.linterOf paths).entries.contains p = (s'.linterOf paths').entries.contains p := by
    rw [Bool.eq_iff_iff]
    refine (contains_entries p).trans (Iff.trans ?_ (contains_entries p).symm)
    simp only [hpaths, ← hs']
  have hmodule (p : Path) : (s.linterOf paths).module files p =
      (s'.linterOf paths').module files p := Linter.module_congr hloading files (hentries p)
  have hkeyed (p q : Path) (hkey : p.key = q.key) : ((s.linterOf paths).module files p).keyed =
      ((s'.linterOf paths').module files q).keyed := by
    rw [hmodule, Linter.keyed_module _ _ hkey]
  refine ⟨fun p q hkey => congrArg Module.Keyed.body (hkeyed p q hkey),
    fun p q hkey _ => Module.unmarked_congr (hkeyed p q hkey), fun k => ?_, hrules,
    by rw [← hs']; rfl, by rw [← hs']; rfl⟩
  · exact Linter.reaches_congr hentries
      (Linter.imports_congr fun p => congrArg (fun m => m.keyed.body) (hmodule p)) k

variable {pool pool' : Arena.Pool} {loaded loaded' : List Path}
  {state state' : RunState MemoryFiles}

/-- One worker, batches of one path, and edges that are dropped after each batch. -/
def oneByOne : LintSession :=
  { standard with
    options := { standard.options with
      concurrency := 1, batchMultiplier := 1, ordering := .insertion, releaseEdges := true } }

/-- **Executions that differ in their schedules, in the order of the paths and in the
order of events have the same results.** -/
theorem run_independent (hs : s.Reschedules s') (hrules : ∀ r ∈ s.rules, r.rule ∈ Rule.builtin)
    (hpaths : ∀ p, p ∈ paths ↔ p ∈ paths') (h : s.Finishes paths ⟨files, pool⟩ loaded state)
    (h' : s'.Finishes paths' ⟨files, pool'⟩ loaded' state') :
    RunReport.Agree (s.report (s.entries paths) state) (s'.report (s'.entries paths') state')
      state.resources.files state'.resources.files := by
  have same : Linter.Same (s.linterOf paths) (s'.linterOf paths') files := hs.same hrules hpaths
  obtain ⟨analyses, h⟩ := h.between
  obtain ⟨analyses', h'⟩ := h'.between
  have hdiagnostics : ((Diagnostic.sort state.emitted).map Diagnostic.keyed).Perm
      ((Diagnostic.sort state'.emitted).map Diagnostic.keyed) :=
    ((List.mergeSort_perm _ _).map _).trans
      ((same.perm_emitted h h').trans ((List.mergeSort_perm _ _).map _).symm)
  have hloaded := same.perm_keys h h'
  have hmodules := (h.modules.trans (hloaded.trans h'.modules.symm)).length_eq
  exact {
    diagnostics := hdiagnostics
    status := by
      obtain ⟨_, _, _, _, rfl⟩ := hs
      simp only [report, RunReport.countOf_congr hdiagnostics]
      rfl
    content := fun p => by
      rw [h.stored.content, h'.stored.content]
      exact Linter.textOf_congr h.nodup_analyses (same.perm_analyses h h') p
    processed := by
      have hlength := hloaded.length_eq
      rw [List.length_map, List.length_map] at hlength
      exact h.tallied.processed.trans (hlength.trans h'.tallied.processed.symm)
    modules := by
      rw [h.knows.proper.keys_modules, h'.knows.proper.keys_modules, Std.TreeMap.length_keys,
        Std.TreeMap.length_keys] at hmodules
      exact hmodules
    analyzed := by
      have hlength := (same.perm_analyses h h').length_eq
      rw [List.length_map, List.length_map] at hlength
      exact h.tallied.analyzed.trans (hlength.trans h'.tallied.analyzed.symm)
    failed := by
      refine h.tallied.failed.trans (Eq.trans ?_ h'.tallied.failed.symm)
      exact same.countP_modules h h' fun m m' hm =>
        Module.failed_congr (congrArg Module.Keyed.body hm)
    unsupported := by
      refine h.tallied.unsupported.trans (Eq.trans ?_ h'.tallied.unsupported.symm)
      refine same.countP_modules h h' (f := fun m => !m.isSupported) fun m m' hm => ?_
      exact congrArg Bool.not (Module.isSupported_congr (congrArg Module.Keyed.body hm))
    ruleFailures := h.tallied.ruleFailures.trans
      ((same.sum_counts h h' _).trans h'.tallied.ruleFailures.symm)
    fixesApplied := h.tallied.fixesApplied.trans
      ((same.sum_counts h h' _).trans h'.tallied.fixesApplied.symm)
    filesWritten := by
      have hcount := (same.perm_counts h h').countP_eq AnalysisCounts.written
      rw [List.countP_map, List.countP_map] at hcount
      exact h.tallied.filesWritten.trans (hcount.trans h'.tallied.filesWritten.symm) }

/-- Two files that import each other, linted together and one by one. -/
theorem run_independent_cycle : ∃ report graph r report' graph' r',
    standard.run [⟨"/a.js"⟩, ⟨"/b.js"⟩] ⟨MemoryFiles.cycle, standard.pool⟩ =
        (.ok (report, graph), r) ∧
      oneByOne.run [⟨"/b.js"⟩, ⟨"/a.js"⟩] ⟨MemoryFiles.cycle, oneByOne.pool⟩ =
        (.ok (report', graph'), r') ∧
      RunReport.Agree report report' r.files r'.files := by
  have hrules : ∀ r ∈ standard.rules, r.rule ∈ Rule.builtin := by
    simp [standard, Rule.defaults]
  obtain ⟨loaded, state, h, hrun⟩ := standard.exists_finishes
    (List.cons_ne_nil (⟨"/a.js"⟩ : Path) [⟨"/b.js"⟩]) ⟨MemoryFiles.cycle, standard.pool⟩
  obtain ⟨loaded', state', h', hrun'⟩ := oneByOne.exists_finishes
    (List.cons_ne_nil (⟨"/b.js"⟩ : Path) [⟨"/a.js"⟩]) ⟨MemoryFiles.cycle, oneByOne.pool⟩
  exact ⟨_, _, _, _, _, _, hrun, hrun',
    run_independent ⟨1, 1, .insertion, true, rfl⟩ hrules (by simp [or_comm]) h h'⟩

end LintSession

end ScriptLint
