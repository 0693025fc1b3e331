/-
Linting dependencies too.

A run that retains the contents of dependencies analyzes what it loads, whether it is an
entry or not.  It makes no difference then which of the modules are entries: a run over all
of them that retains nothing has the same results.  This needs files that are known by one
path only; on a disk with links a file can be rewritten under one path before it is read
under another one:

* **`LintSession.retaining`** — the settings with the contents of dependencies retained or
  not;
* **`LintSession.SpellsOut`** — paths that name all that other paths lead to;
* **`LintSession.run_retains`** — a run that retains contents has the results of a run over
  everything that it loads;
* **`LintSession.run_rereads_linked`** — not so on a disk with links.
-/
import Mathlib
import ScriptLint.Disk
import ScriptLint.Proofs.Composition

open Relation

namespace ScriptLint

/-! ### Modules that are loaded as entries or as dependencies -/

/-- With interfaces for all modules, it does not show in a text that was read whether it is
an entry, or whether contents are retained. -/
theorem LoadSettings.unmarked_ofText {s s' : LoadSettings} (hresolver : s.resolver = s'.resolver)
    (hextract : s.extractDependencies = true) (hextract' : s'.extractDependencies = true)
    (files : MemoryFiles) (path : Path) (entry entry' : Bool) (form : FileForm) (text : Bytes) :
    (s.ofText files path entry form text).unmarked =
      (s'.ofText files path entry' form text).unmarked := by
  have hpart (composite : Bool) (index : Nat) (segment : Segment) :
      s.part files path entry composite index segment =
        s'.part files path entry' composite index segment := by
    simp only [part, resolutions, hextract, hextract', hresolver, Bool.or_true, if_true]
  simp only [ofText, hpart]
  cases form.split path.extension text <;> rfl

theorem Module.unmarked_keeping (m : Module) (keep : Bool) (text : Bytes) :
    (m.keeping keep text).unmarked = m.unmarked.keeping keep text := by
  cases keep <;> rfl

namespace Linter

variable {l l' : Linter}

/-- Linters that load in the same way, except for which modules are entries and whether
contents are retained. -/
structure LoadsAlike (l l' : Linter) : Prop where
  loaders : l.loading.loaders = l'.loading.loaders
  resolver : l.loading.resolver = l'.loading.resolver
  extract : l.loading.extractDependencies = true
  extract' : l'.loading.extractDependencies = true

namespace LoadsAlike

variable (h : LoadsAlike l l') (files : MemoryFiles) {p q : Path}

include h

theorem body_module (hkey : p.key = q.key) :
    (l.module files p).keyed.body = (l'.module files q).keyed.body := by
  rw [← congrArg Module.Keyed.body (l'.keyed_module files hkey)]
  unfold Linter.module
  rw [h.loaders]
  cases l'.loading.loaders.find? p.extension with
  | none => simp only [Module.keyed_body_keeping]; rfl
  | some form =>
    simp only
    cases (FileStore.read p files).1 with
    | error mishap =>
      cases mishap with
      | brokenOff reason => rfl
      | failed e => simp only [Module.keyed_body_keeping]; rfl
    | ok text =>
      simp only [Module.keyed_body_keeping]
      exact congrArg (fun m => m.keyed.body)
        (LoadSettings.unmarked_ofText h.resolver h.extract h.extract' files p _ _ form text)

/-- A module whose content is kept by both is the same for both. -/
theorem unmarked_module (hkey : p.key = q.key) (hkeeps : l.loading.keeps (l.entries.contains p) =
    l'.loading.keeps (l'.entries.contains q)) :
    (l.module files p).unmarked.keyed = (l'.module files q).unmarked.keyed := by
  rw [← Module.unmarked_congr (l'.keyed_module files hkey)]
  rw [← PathSet.contains_congr _ hkey] at hkeeps
  refine congrArg Module.keyed ?_
  unfold Linter.module
  simp only [h.loaders, hkeeps]
  cases l'.loading.loaders.find? p.extension with
  | none => simp only [Module.unmarked_keeping]; rfl
  | some form =>
    simp only
    cases (FileStore.read p files).1 with
    | error mishap =>
      cases mishap with
      | brokenOff reason => rfl
      | failed e => simp only [Module.unmarked_keeping]; rfl
    | ok text =>
      simp only [Module.unmarked_keeping]
      rw [LoadSettings.unmarked_ofText h.resolver h.extract h.extract' files p _ _ form text]

theorem imports_iff (a b : Path.Key) : l.Imports files a b ↔ l'.Imports files a b :=
  imports_congr (fun p => h.body_module files (rfl : p.key = p.key)) a b

end LoadsAlike

end Linter

/-! ### The runs -/

/-- Two reports, and the files with them, have the same problems, up to their order and the
spelling of paths, the same status, texts and number of analyses. -/
structure RunReport.Matches (a a' : RunReport) (files files' : MemoryFiles) : Prop where
  diagnostics : (a.diagnostics.map Diagnostic.keyed).Perm (a'.diagnostics.map Diagnostic.keyed)
  status : a.status = a'.status
  content : ∀ p, files.content p = files'.content p
  analyzed : a.counts.analyzed = a'.counts.analyzed

namespace LintSession

/-- The settings with the contents of dependencies retained or not. -/
def retaining (s : LintSession) (retain : Bool) : LintSession :=
  { s with options := { s.options with retainDependencies := retain } }

/-- The second paths name the modules that the first ones lead to, themselves among them,
and no others. -/
def SpellsOut (s : LintSession) (files : MemoryFiles) (paths paths' : List Path) : Prop :=
  ∀ k, (∃ q ∈ paths', (q.absoluteFrom s.options.directory).key = k) ↔
    ∃ p ∈ paths, ReflTransGen ((s.linterOf paths).Imports files)
      (p.absoluteFrom s.options.directory).key k

variable {s : LintSession} {paths paths' : List Path} {files : MemoryFiles}

theorem loadsAlike_retaining (hextract : s.options.extractDependencies = true)
    (retain retain' : Bool) (paths paths' : List Path) :
    ((s.retaining retain).linterOf paths).LoadsAlike ((s.retaining retain').linterOf paths') :=
  ⟨rfl, rfl, hextract, hextract⟩

/-- The modules that are reached from the first paths are the entries of the second run. -/
theorem SpellsOut.contains_iff (h : s.SpellsOut files paths paths')
    (hextract : s.options.extractDependencies = true) (p : Path) :
    ((s.retaining false).entries paths').contains p = true ↔
      ((s.retaining true).linterOf paths).Reaches files p.key := by
  have himports (a b : Path.Key) : (s.linterOf paths).Imports files a b ↔
      ((s.retaining true).linterOf paths).Imports files a b :=
    Linter.LoadsAlike.imports_iff ⟨rfl, rfl, hextract, hextract⟩ files a b
  have hways : (s.linterOf paths).Imports files =
      ((s.retaining true).linterOf paths).Imports files :=
    funext fun a => funext fun b => propext (himports a b)
  rw [LintSession.contains_entries, reaches_iff, ← hways]
  exact h p.key

/-- The same modules are loaded and analyzed. -/
theorem SpellsOut.same (h : s.SpellsOut files paths paths')
    (hextract : s.options.extractDependencies = true)
    (hrules : ∀ r ∈ s.rules, r.rule ∈ Rule.builtin) :
    Linter.Same ((s.retaining true).linterOf paths) ((s.retaining false).linterOf paths')
      files := by
  have halike := loadsAlike_retaining hextract true false paths paths'
  have hentry (p : Path) (hp : ((s.retaining true).linterOf paths).Reaches files p.key) :
      ((s.retaining false).linterOf paths').entries.contains p = true :=
    (h.contains_iff hextract p).mpr hp
  refine ⟨fun p q => halike.body_module files, fun p q hkey hp => ?_, fun k => ⟨fun hk => ?_,
    fun hk => ?_⟩, hrules, rfl, rfl⟩
  · refine halike.unmarked_module files hkey ?_
    have hretains : ((s.retaining true).linterOf paths).loading.retainDependencies = true := rfl
    rw [LoadSettings.keeps, LoadSettings.keeps, hretains, hentry q (hkey ▸ hp), Bool.or_true,
      Bool.true_or]
  · -- what is reached with the first entries is an entry of the second run
    induction hk with
    | @entry p hp =>
      obtain ⟨q, hq, hkey⟩ := (PathSet.contains_iff _ _).mp (hentry p (.entry hp))
      exact hkey ▸ .entry hq
    | imported _ hab ih => exact .imported ih ((halike.imports_iff files _ _).mp hab)
  · induction hk with
    | @entry p hp =>
      have hcontains : ((s.retaining false).entries paths').contains p = true :=
        (PathSet.contains_iff _ _).mpr ⟨p, hp, rfl⟩
      exact (h.contains_iff hextract p).mp hcontains
    | imported _ hab ih => exact .imported ih ((halike.imports_iff files _ _).mpr hab)

variable {pool pool' : Arena.Pool} {loaded loaded' : List Path}
  {state state' : RunState MemoryFiles}

/-- **A run that retains the contents of dependencies has the results of a run over all that
it loads.** -/
theorem run_retains (hextract : s.options.extractDependencies = true)
    (hrules : ∀ r ∈ s.rules, r.rule ∈ Rule.builtin) (hpaths : s.SpellsOut files paths paths')
    (h : (s.retaining true).Finishes paths ⟨files, pool⟩ loaded state)
    (h' : (s.retaining false).Finishes paths' ⟨files, pool'⟩ loaded' state') :
    RunReport.Matches ((s.retaining true).report ((s.retaining true).entries paths) state)
      ((s.retaining false).report ((s.retaining false).entries paths') state')
      state.resources.files state'.resources.files := by
  have same := hpaths.same hextract hrules
  obtain ⟨analyses, h⟩ := h.between
  obtain ⟨analyses', h'⟩ := h'.between
  have hdiagnostics : ((Diagnostic.sort state.emitted).map Diagnostic.keyed).Perm
      ((Diagnostic.sort state'.emitted).map Diagnostic.keyed) :=
    ((List.mergeSort_perm _ _).map _).trans
      ((same.perm_emitted h h').trans ((List.mergeSort_perm _ _).map _).symm)
  have hanalyses := same.perm_analyses h h'
  refine ⟨hdiagnostics, ?_, fun p => ?_, ?_⟩
  · simp only [report, RunReport.countOf_congr hdiagnostics]
    rfl
  · rw [h.stored.content, h'.stored.content]
    exact Linter.textOf_congr h.nodup_analyses hanalyses p
  · have hlength := hanalyses.length_eq
    rw [List.length_map, List.length_map] at hlength
    exact h.tallied.analyzed.trans (hlength.trans h'.tallied.analyzed.symm)

/-- Two files that import each other, asked for by one of them or by both. -/
theorem run_retains_cycle : ∃ report graph r report' graph' r',
    (standard.retaining true).run [⟨"/a.js"⟩] ⟨MemoryFiles.cycle, standard.pool⟩ =
        (.ok (report, graph), r) ∧
      (standard.retaining false).run [⟨"/a.js"⟩, ⟨"/b.js"⟩] ⟨MemoryFiles.cycle, standard.pool⟩ =
        (.ok (report', graph'), r') ∧
      RunReport.Matches report report' r.files r'.files := by
  have hrules : ∀ r ∈ standard.rules, r.rule ∈ Rule.builtin := by
    simp [standard, Rule.defaults]
  have hfirst (k : Path.Key) : (standard.linterOf [⟨"/a.js"⟩]).Imports MemoryFiles.cycle
      (Path.key ⟨"/a.js"⟩) k ↔ k ∈ [Path.key ⟨"/b.js"⟩] := by
    rw [Linter.imports_iff]
    exact iff_of_eq (congrArg (k ∈ ·) (by decide +kernel))
  have hsecond (k : Path.Key) : (standard.linterOf [⟨"/a.js"⟩]).Imports MemoryFiles.cycle
      (Path.key ⟨"/b.js"⟩) k ↔ k ∈ [Path.key ⟨"/a.js"⟩] := by
    rw [Linter.imports_iff]
    exact iff_of_eq (congrArg (k ∈ ·) (by decide +kernel))
  have ha : (Path.absoluteFrom ⟨"/a.js"⟩ standard.options.directory).key =
      Path.key ⟨"/a.js"⟩ := by decide
  have hb : (Path.absoluteFrom ⟨"/b.js"⟩ standard.options.directory).key =
      Path.key ⟨"/b.js"⟩ := by decide
  have hpaths : standard.SpellsOut MemoryFiles.cycle [⟨"/a.js"⟩] [⟨"/a.js"⟩, ⟨"/b.js"⟩] := by
    intro k
    simp only [List.mem_cons, List.not_mem_nil, or_false, exists_eq_or_imp, exists_eq_left, ha, hb]
    constructor
    · rintro (rfl | rfl)
      · exact .refl
      · exact .single ((hfirst _).mpr (List.mem_singleton_self _))
    · intro hk
      induction hk with
      | refl => exact .inl rfl
      | tail _ hstep ih =>
        rcases ih with rfl | rfl
        · exact .inr (List.mem_singleton.mp ((hfirst _).mp hstep)).symm
        · exact .inl (List.mem_singleton.mp ((hsecond _).mp hstep)).symm
  obtain ⟨loaded, state, h, hrun⟩ := (standard.retaining true).exists_finishes
    (List.cons_ne_nil (⟨"/a.js"⟩ : Path) []) ⟨MemoryFiles.cycle, standard.pool⟩
  obtain ⟨loaded', state', h', hrun'⟩ := (standard.retaining false).exists_finishes
    (List.cons_ne_nil (⟨"/a.js"⟩ : Path) [⟨"/b.js"⟩]) ⟨MemoryFiles.cycle, standard.pool⟩
  exact ⟨_, _, _, _, _, _, hrun, hrun', run_retains rfl hrules hpaths h h'⟩

end LintSession

/-! ### A disk with links -/

namespace Closing

variable {σ : Type} [FileStore σ] {l : Linter}

/-- When nothing is left to happen, more events make no difference. -/
theorem run_of_done {n k : Nat} {c : Closing σ} (h : (run l n c).next? = none) (hn : n ≤ k) :
    run l k c = run l n c := by
  induction n generalizing c k with
  | zero =>
    have hnext : c.next? = none := h
    cases k with
    | zero => rfl
    | succ k => simp only [run, hnext]
  | succ n ih =>
    obtain ⟨k, rfl⟩ : ∃ k', k = k' + 1 := ⟨k - 1, by omega⟩
    rw [run] at h ⊢
    rw [run]
    cases hnext : c.next? with
    | none => rfl
    | some event =>
      simp only [hnext] at h
      exact ih h (Nat.le_of_succ_le_succ hn)

end Closing

namespace Linter

/-- A batch on a disk that is not empty, if a number of events is enough to load it. -/
def batchWithin (l : Linter) (events : Nat) (s : RunState Disk) (batch : Batch) :
    Option (RunState Disk) :=
  let start := Closing.ofBatch batch s
  let c := start.run l events
  let a := Analyzing.ofClosing batch c
  if 0 < start.state.resources.files.root.size ∧ c.next?.isNone then
    some (l.released batch c.received (a.run l (3 * a.pending)))
  else none

variable {l : Linter} {events : Nat} {s s' : RunState Disk} {batch : Batch}

theorem runBatch_of_within (hevents : events ≤ 2 ^ Disk.linkLimit)
    (h : l.batchWithin events s batch = some s') : l.runBatch s batch = s' := by
  simp only [batchWithin, Option.ite_none_right_eq_some, Option.some_inj] at h
  obtain ⟨⟨hsize, hdone⟩, hs'⟩ := h
  have hfiles : 2 ^ Disk.linkLimit ≤
      FileStore.bound (Closing.ofBatch batch s).state.resources.files :=
    le_trans (Nat.pow_le_pow_left (Nat.succ_le_succ hsize) Disk.linkLimit)
      (Nat.pow_le_pow_right (Nat.succ_pos _) (Nat.le_succ _))
  have hbound : events ≤ (Closing.ofBatch batch s).bound l := by
    rw [Closing.bound]
    omega
  rw [runBatch, Closing.run_of_done (Option.isNone_iff_eq_none.mp hdone) hbound]
  exact hs'

theorem foldl_runBatch_of_within (hevents : events ≤ 2 ^ Disk.linkLimit) {batches : List Batch}
    (h : batches.foldlM (l.batchWithin events) s = some s') : batches.foldl l.runBatch s = s' := by
  induction batches generalizing s with
  | nil => exact Option.some.inj h
  | cons batch rest ih =>
    rw [List.foldlM_cons, Option.bind_eq_bind, Option.bind_eq_some_iff] at h
    obtain ⟨next, hnext, hrest⟩ := h
    rw [List.foldl_cons, runBatch_of_within hevents hnext]
    exact ih hrest

end Linter

namespace LintSession

/-- A file with a `debugger` and a request that does not resolve, and a link to it that it
imports. -/
def linkedDisk : Disk where
  root := .file "m.js" "debugger;\nimport './b';\nimport './c';\n"
    (.link "b.js" ⟨"m.js"⟩ .empty)

/-- Fixing with batches of one path. -/
def fixingOneByOne : LintSession :=
  { standard with
    options := { standard.options with fix := true, batchMultiplier := 1, ordering := .insertion } }

/-- The end of a run on the disk with a link. -/
def linkedEnd (s : LintSession) (paths : List Path) : Option (RunState Disk) :=
  (s.batches paths).foldlM ((s.linterOf paths).batchWithin 9)
    { resources := ⟨linkedDisk, s.pool⟩ }

theorem run_linkedDisk {s : LintSession} {paths : List Path} {state : RunState Disk}
    (hpaths : paths ≠ []) (h : linkedEnd s paths = some state) :
    s.run paths ⟨linkedDisk, s.pool⟩ =
      (.ok (s.report (s.entries paths) state, state.graph), state.resources) := by
  have hbatches : (s.batches paths).foldl (s.linterOf paths).runBatch
      { resources := ⟨linkedDisk, s.pool⟩ } = state :=
    Linter.foldl_runBatch_of_within (by decide) h
  rw [← hbatches]
  exact if_neg hpaths

/-- What is imported under two names is written under one before it is read under the
other, if the two are entries in different batches, but not if one of them is a
dependency of the other. -/
theorem run_rereads_linked : ∃ report graph r report' graph' r',
    (fixingOneByOne.retaining true).run [⟨"/m.js"⟩] ⟨linkedDisk, fixingOneByOne.pool⟩ =
        (.ok (report, graph), r) ∧
      graph.modules = [⟨"/b.js"⟩, ⟨"/m.js"⟩] ∧
      (fixingOneByOne.retaining false).run graph.modules ⟨linkedDisk, fixingOneByOne.pool⟩ =
        (.ok (report', graph'), r') ∧
      ¬ (report.diagnostics.map Diagnostic.keyed).Perm (report'.diagnostics.map Diagnostic.keyed) :=
    by
  have hfirst : ((fixingOneByOne.retaining true).linkedEnd [⟨"/m.js"⟩]).map
      (fun state => (state.graph.modules, state.emitted.map Diagnostic.span)) =
        some ([⟨"/b.js"⟩, ⟨"/m.js"⟩], [some ⟨31, 36⟩, some ⟨31, 36⟩, some ⟨17, 22⟩]) := by cbv
  have hsecond : ((fixingOneByOne.retaining false).linkedEnd [⟨"/b.js"⟩, ⟨"/m.js"⟩]).map
      (fun state => state.emitted.map Diagnostic.span) =
        some [some ⟨31, 36⟩, some ⟨17, 22⟩, some ⟨22, 27⟩] := by cbv
  obtain ⟨state, hstate, hvalues⟩ := Option.map_eq_some_iff.mp hfirst
  obtain ⟨state', hstate', hspans'⟩ := Option.map_eq_some_iff.mp hsecond
  have hmodules : state.graph.modules = [⟨"/b.js"⟩, ⟨"/m.js"⟩] := congrArg Prod.fst hvalues
  have hspans : state.emitted.map Diagnostic.span =
      [some ⟨31, 36⟩, some ⟨31, 36⟩, some ⟨17, 22⟩] := congrArg Prod.snd hvalues
  have hrun := run_linkedDisk (List.cons_ne_nil _ _) hstate
  have hrun' := run_linkedDisk (List.cons_ne_nil _ _) hstate'
  rw [← hmodules] at hrun'
  refine ⟨_, _, _, _, _, _, hrun, hmodules, hrun', fun h => ?_⟩
  -- the spans of what is reported differ
  have hperm : (state.emitted.map Diagnostic.span).Perm (state'.emitted.map Diagnostic.span) := by
    have hsorted := ((((List.mergeSort_perm _ _).map _).symm.trans h).trans
      ((List.mergeSort_perm _ _).map _)).map fun x => x.2.span
    rwa [List.map_map, List.map_map] at hsorted
  rw [hspans, hspans'] at hperm
  exact absurd hperm (by decide)

end LintSession

end ScriptLint
