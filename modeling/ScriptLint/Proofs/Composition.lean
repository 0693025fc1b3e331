/-
What a run reports on one file.

With the interfaces of dependencies and without their contents, whether a module is an
entry or a dependency makes no difference to those that import it.  So what is reported
on an entry does not depend on the other entries, and on a dependency only problems with
loading it are reported:

* **`Diagnostic.about`** — the problems with a module;
* **`LintSession.loadFailures`** — the problems with loading a file;
* **`LintSession.run_compositional`** — a run reports on each entry what a run on that
  entry alone reports, and on each dependency that it fails to load.
-/
import ScriptLint.Proofs.Independence

namespace ScriptLint

open Relation (ReflTransGen)

/-! ### The problems with one module -/

namespace Diagnostic

/-- The problems with the module of a key. -/
def about (k : Path.Key) (ds : List Diagnostic) : List Diagnostic :=
  ds.filter fun d => d.path.key = k

variable {α : Type} {key : α → Path.Key} {f : α → List Diagnostic}

/-- Where each item has problems with its own module, and no two items share a module,
only one of them has problems with the module of a key. -/
theorem about_flatMap {xs : List α} (hpath : ∀ x ∈ xs, ∀ d ∈ f x, d.path.key = key x)
    (hnodup : (xs.map key).Nodup) (k : Path.Key) :
    about k (xs.flatMap f) = ((xs.find? fun x => key x = k).map f).getD [] := by
  have hnone (xs : List α) (hpath : ∀ x ∈ xs, ∀ d ∈ f x, d.path.key = key x)
      (hk : k ∉ xs.map key) : about k (xs.flatMap f) = [] := by
    rw [about, List.filter_eq_nil_iff]
    intro d hd
    obtain ⟨x, hx, hd⟩ := List.mem_flatMap.mp hd
    simp only [hpath x hx d hd, decide_eq_true_eq]
    exact fun heq => hk (heq ▸ List.mem_map_of_mem hx)
  induction xs with
  | nil => rfl
  | cons x rest ih =>
    rw [List.map_cons, List.nodup_cons] at hnodup
    have hrest : ∀ x ∈ rest, ∀ d ∈ f x, d.path.key = key x := fun x hx =>
      hpath x (List.mem_cons_of_mem _ hx)
    rw [List.flatMap_cons, about, List.filter_append]
    by_cases hk : key x = k
    · have hall : (f x).filter (fun d => d.path.key = k) = f x :=
        List.filter_eq_self.mpr fun d hd => by
          simpa [hk] using hpath x List.mem_cons_self d hd
      have hmore : (rest.flatMap f).filter (fun d => d.path.key = k) = [] :=
        hnone rest hrest (hk ▸ hnodup.1)
      rw [hall, hmore, List.append_nil, List.find?_cons_of_pos (by simpa using hk)]
      rfl
    · have hempty : (f x).filter (fun d => d.path.key = k) = [] :=
        List.filter_eq_nil_iff.mpr fun d hd => by
          simpa [hpath x List.mem_cons_self d hd] using hk
      rw [hempty, List.nil_append, List.find?_cons_of_neg (by simpa using hk)]
      exact ih hrest hnodup.2

end Diagnostic

theorem find?_key_eq_none {α : Type} {key : α → Path.Key} {xs : List α} {k : Path.Key} :
    xs.find? (fun x => key x = k) = none ↔ k ∉ xs.map key := by
  simp

namespace Linter

variable {l l' : Linter} {files : MemoryFiles} {loaded loaded' : List Path}
  {analyses analyses' : List Analysis} {s s' : RunState MemoryFiles}

/-- The problems with a module are those with loading it and those that its analysis
finds. -/
theorem Between.about_emitted (h : Between l files loaded analyses [] s) (k : Path.Key) :
    (Diagnostic.about k s.emitted).Perm
      (((loaded.find? fun p => p.key = k).map fun p => (l.module files p).diagnostics).getD [] ++
        ((analyses.find? fun a => a.path.key = k).map Analysis.emitted).getD []) := by
  refine (h.tallied.emitted.filter _).trans (List.Perm.of_eq ?_)
  rw [List.filter_append]
  refine congrArg₂ (· ++ ·) (Diagnostic.about_flatMap (fun p _ d hd => ?_) h.handed.nodup k)
    (Diagnostic.about_flatMap (fun a ha d hd => ?_) h.nodup_analyses k)
  · rw [(l.diagnostics_module files hd).1]
  · obtain ⟨g, _, ha⟩ := h.analyzed a ha
    rw [ha] at hd
    rw [path_analysis hd]

/-- A module that is reached was loaded. -/
theorem Between.exists_loaded (h : Between l files loaded analyses [] s) {k : Path.Key}
    (hk : l.Reaches files k) :
    ∃ p, (loaded.find? fun p => p.key = k) = some p ∧ p.key = k := by
  obtain ⟨p, hp, hkey⟩ := List.mem_map.mp ((h.mem_iff k).mpr hk)
  have hsome : (loaded.find? fun p => p.key = k).isSome := by
    rw [List.find?_isSome]
    exact ⟨p, hp, by simpa using hkey⟩
  obtain ⟨q, hq⟩ := Option.isSome_iff_exists.mp hsome
  exact ⟨q, hq, by simpa using List.find?_some hq⟩

/-- **Runs that load a module the same report the same on it.** -/
theorem Between.about_congr (h : Between l files loaded analyses [] s)
    (h' : Between l' files loaded' analyses' [] s') (hrules : ∀ r ∈ l.rules, r.rule ∈ Rule.builtin)
    (hsettings : l.analysisSettings = l'.analysisSettings)
    (hcross : l.options.crossModule = l'.options.crossModule)
    (hbody : ∀ p q : Path, p.key = q.key →
      (l.module files p).keyed.body = (l'.module files q).keyed.body) {k : Path.Key}
    (hk : l.Reaches files k) (hk' : l'.Reaches files k)
    (hmodule : ∀ p q : Path, p.key = k → q.key = k →
      (l.module files p).keyed = (l'.module files q).keyed) :
    ((Diagnostic.about k s.emitted).map Diagnostic.keyed).Perm
      ((Diagnostic.about k s'.emitted).map Diagnostic.keyed) := by
  obtain ⟨p, hfind, hp⟩ := h.exists_loaded hk
  obtain ⟨p', hfind', hp'⟩ := h'.exists_loaded hk'
  have hkept (p q : Path) (hp : p.key = k) (hq : q.key = k) :
      l.Kept files p = l'.Kept files q := by
    have hcontent := congrArg (fun m => m.content.isSome) (hmodule p q hp hq)
    simpa [Module.keyed, Kept] using hcontent
  have hmem : k ∈ analyses.map (fun a => a.path.key) ↔
      k ∈ analyses'.map fun a => a.path.key := by
    rw [h.mem_analyses, h'.mem_analyses]
    constructor
    · rintro ⟨q, _, hkeep, hq⟩
      exact ⟨p', List.mem_of_find?_eq_some hfind', (hkept q p' hq hp').symm.trans hkeep, hp'⟩
    · rintro ⟨q, _, hkeep, hq⟩
      exact ⟨p, List.mem_of_find?_eq_some hfind, (hkept p q hp hq).trans hkeep, hp⟩
  have hdiagnostics : (l.module files p).diagnostics.map Diagnostic.keyed =
      (l'.module files p').diagnostics.map Diagnostic.keyed :=
    Module.diagnostics_congr (hbody p p' (hp.trans hp'.symm))
  have hanalyses : (analyses.find? fun a => a.path.key = k).map Analysis.keyed =
      (analyses'.find? fun a => a.path.key = k).map Analysis.keyed := by
    cases ha : analyses.find? fun a => a.path.key = k with
    | none =>
      have hk : k ∉ analyses.map fun a => a.path.key := find?_key_eq_none.mp ha
      rw [find?_key_eq_none.mpr (hmem.not.mp hk)]
    | some a =>
      cases hb : analyses'.find? fun a => a.path.key = k with
      | none =>
        have hk : k ∉ analyses.map fun a => a.path.key := hmem.not.mpr (find?_key_eq_none.mp hb)
        rw [find?_key_eq_none.mpr hk] at ha
        exact absurd ha (by simp)
      | some b =>
        have hka : a.path.key = k := by simpa using List.find?_some ha
        have hkb : b.path.key = k := by simpa using List.find?_some hb
        obtain ⟨g, hg, ha⟩ := h.analyzed a (List.mem_of_find?_eq_some ha)
        obtain ⟨g', hg', hb⟩ := h'.analyzed b (List.mem_of_find?_eq_some hb)
        rw [Option.map_some, Option.map_some, ha, hb]
        exact congrArg some (analysis_congr hrules hsettings hcross hbody hg hg'
          (hmodule _ _ hka hkb))
  have hemitted (analyses : List Analysis) :
      (((analyses.find? fun a => a.path.key = k).map Analysis.emitted).getD []).map
          Diagnostic.keyed =
        (((analyses.find? fun a => a.path.key = k).map Analysis.keyed).map fun x => x.2.2.1).getD
          [] := by
    cases analyses.find? fun a => a.path.key = k <;> rfl
  refine ((h.about_emitted k).map _).trans (List.Perm.trans (List.Perm.of_eq ?_)
    ((h'.about_emitted k).map _).symm)
  rw [List.map_append, List.map_append, hemitted, hemitted, hanalyses, hfind, hfind']
  exact congrArg (· ++ _) hdiagnostics

/-- On a module without content a run reports the problems with loading it. -/
theorem Between.about_loaded (h : Between l files loaded analyses [] s) {k : Path.Key}
    (hk : l.Reaches files k) (hkept : ∀ p : Path, p.key = k → l.Kept files p = false) :
    ∃ p : Path, p.key = k ∧
      (Diagnostic.about k s.emitted).Perm (l.module files p).diagnostics := by
  obtain ⟨p, hfind, hp⟩ := h.exists_loaded hk
  refine ⟨p, hp, (h.about_emitted k).trans (List.Perm.of_eq ?_)⟩
  have hnone : k ∉ analyses.map fun a => a.path.key := by
    rw [h.mem_analyses]
    rintro ⟨q, _, hkeep, hq⟩
    rw [hkept q hq] at hkeep
    exact Bool.false_ne_true hkeep
  rw [find?_key_eq_none.mpr hnone, hfind]
  exact List.append_nil _

/-- On a module that is not reached a run reports nothing. -/
theorem Between.about_unreached (h : Between l files loaded analyses [] s) {k : Path.Key}
    (hk : ¬ l.Reaches files k) : Diagnostic.about k s.emitted = [] := by
  have hloaded : k ∉ loaded.map Path.key := (h.mem_iff k).not.mpr hk
  have hnone : k ∉ analyses.map fun a => a.path.key := by
    rw [h.mem_analyses]
    rintro ⟨q, hq, _, hkey⟩
    exact hloaded (hkey ▸ List.mem_map_of_mem hq)
  refine List.perm_nil.mp ((h.about_emitted k).trans (List.Perm.of_eq ?_))
  rw [find?_key_eq_none.mpr hnone, find?_key_eq_none.mpr hloaded]
  rfl

end Linter

/-! ### Entries and dependencies of a run -/

namespace LintSession

variable (s : LintSession)

/-- The problems with loading a file that is not an entry. -/
def loadFailures (files : MemoryFiles) (p : Path) : List Diagnostic :=
  (Closing.loaded (s.linterOf []) p ⟨files, s.pool⟩).1.diagnostics

variable {s} {paths : List Path} {files : MemoryFiles}

theorem loading_linterOf (paths paths' : List Path) :
    (s.linterOf paths).loading = (s.linterOf paths').loading := rfl

theorem loadFailures_eq (p : Path) :
    s.loadFailures files p = ((s.linterOf []).module files p).diagnostics := by
  have hmodule : (Closing.loaded (s.linterOf []) p
      (⟨files, s.pool⟩ : Resources MemoryFiles)).1.unleased = (s.linterOf []).module files p :=
    Linter.unleased_loaded _ rfl rfl fun _ => rfl
  rw [← hmodule]
  rfl

/-- What is reached are the input paths and what they import, directly or not. -/
theorem reaches_iff (k : Path.Key) : (s.linterOf paths).Reaches files k ↔
    ∃ p ∈ paths, ReflTransGen ((s.linterOf paths).Imports files)
      (p.absoluteFrom s.options.directory).key k := by
  have hleast : IsLeast {modules | s.Closed paths files modules}
    {k | (s.linterOf paths).Reaches files k} := isLeast_reaches files
  have hclosed : s.Closed paths files {k | ∃ p ∈ paths,
      ReflTransGen ((s.linterOf paths).Imports files) (p.absoluteFrom s.options.directory).key
        k} := by
    refine ⟨fun p hp => ⟨p, hp, .refl⟩, ?_⟩
    rintro a ⟨p, hp, hpa⟩ b hab
    exact ⟨p, hp, hpa.tail hab⟩
  constructor
  · exact fun hk => hleast.2 hclosed hk
  · rintro ⟨p, hp, hpk⟩
    exact Linter.Reaches.trans (hleast.1.1 p hp) hpk

variable {pool : Arena.Pool} {loaded : List Path} {state : RunState MemoryFiles}

/-- **A run reports on each entry what a run on that entry alone reports, and on each
dependency that, and how, it could not be loaded.** -/
theorem run_compositional (hrules : ∀ r ∈ s.rules, r.rule ∈ Rule.builtin)
    (hextract : s.options.extractDependencies = true)
    (hretain : s.options.retainDependencies = false)
    (h : s.Finishes paths ⟨files, pool⟩ loaded state) :
    (∀ p ∈ paths, ∀ pool' loaded' state', s.Finishes [p] ⟨files, pool'⟩ loaded' state' →
      ((Diagnostic.about (p.absoluteFrom s.options.directory).key
          (s.report (s.entries paths) state).diagnostics).map Diagnostic.keyed).Perm
        ((Diagnostic.about (p.absoluteFrom s.options.directory).key
          (s.report (s.entries [p]) state').diagnostics).map Diagnostic.keyed)) ∧
    ∀ q : Path, (∀ p ∈ paths, (p.absoluteFrom s.options.directory).key ≠ q.key) →
      (∀ d ∈ s.loadFailures files q,
        d.path = q ∧ d.code ∈ [Code.disk, Code.parse, Code.internal]) ∧
      ((∃ p ∈ paths, ReflTransGen ((s.linterOf paths).Imports files)
          (p.absoluteFrom s.options.directory).key q.key) →
        ((Diagnostic.about q.key
            (s.report (s.entries paths) state).diagnostics).map Diagnostic.keyed).Perm
          ((s.loadFailures files q).map Diagnostic.keyed)) ∧
      ((¬ ∃ p ∈ paths, ReflTransGen ((s.linterOf paths).Imports files)
          (p.absoluteFrom s.options.directory).key q.key) →
        Diagnostic.about q.key (s.report (s.entries paths) state).diagnostics = []) := by
  obtain ⟨analyses, h⟩ := h.between
  have hsort (k : Path.Key) (ds : List Diagnostic) :
      (Diagnostic.about k (Diagnostic.sort ds)).Perm (Diagnostic.about k ds) :=
    (List.mergeSort_perm _ _).filter _
  have hbody (paths paths' : List Path) (p q : Path) (hkey : p.key = q.key) :
      ((s.linterOf paths).module files p).keyed.body =
        ((s.linterOf paths').module files q).keyed.body :=
    Linter.body_module_congr (loading_linterOf paths paths') hextract files hkey
  refine ⟨fun p hp pool' loaded' state' h' => ?_, fun q hq => ⟨fun d hd => ?_, fun hreached => ?_,
    fun hunreached => ?_⟩⟩
  · obtain ⟨analyses', h'⟩ := h'.between
    have hmodule (q q' : Path) (hq : q.key = (p.absoluteFrom s.options.directory).key)
        (hq' : q'.key = (p.absoluteFrom s.options.directory).key) :
        ((s.linterOf paths).module files q).keyed = ((s.linterOf [p]).module files q').keyed := by
      have hentry : (s.linterOf paths).entries.contains q = true :=
        (contains_entries q).mpr ⟨p, hp, hq.symm⟩
      have hentry' : (s.linterOf [p]).entries.contains q = true :=
        (contains_entries q).mpr ⟨p, List.mem_singleton_self p, hq.symm⟩
      rw [Linter.module_congr (loading_linterOf paths [p]) files (hentry.trans hentry'.symm)]
      exact Linter.keyed_module _ _ (hq.trans hq'.symm)
    have hcongr := h.about_congr h' hrules rfl rfl (hbody paths [p])
      ((reaches_iff _).mpr ⟨p, hp, .refl⟩)
      ((reaches_iff _).mpr ⟨p, List.mem_singleton_self p, .refl⟩) hmodule
    exact ((hsort _ _).map _).trans (hcongr.trans ((hsort _ _).map _).symm)
  · rw [loadFailures_eq] at hd
    exact Linter.diagnostics_module _ _ hd
  · have hkept (p : Path) (hp : p.key = q.key) : (s.linterOf paths).Kept files p = false := by
      have hentry : (s.linterOf paths).entries.contains p = false := by
        rw [← Bool.not_eq_true]
        intro hcontains
        obtain ⟨p', hp', hkey⟩ := (contains_entries p).mp hcontains
        exact hq p' hp' (hkey.trans hp)
      rw [Linter.Kept, Linter.content_module _ _ hretain hentry]
      rfl
    obtain ⟨p, hp, habout⟩ := h.about_loaded ((reaches_iff q.key).mpr hreached) hkept
    rw [loadFailures_eq, ← Module.diagnostics_congr (hbody paths [] p q hp)]
    exact ((hsort q.key _).trans habout).map _
  · have hnone := h.about_unreached ((reaches_iff q.key).not.mpr hunreached)
    exact List.perm_nil.mp ((hsort q.key _).trans (List.Perm.of_eq hnone))

/-- Of two files that import each other, the first one with and without the second. -/
theorem run_compositional_cycle : ∃ report graph r report' graph' r',
    standard.run [⟨"/a.js"⟩, ⟨"/b.js"⟩] ⟨MemoryFiles.cycle, standard.pool⟩ =
        (.ok (report, graph), r) ∧
      standard.run [⟨"/a.js"⟩] ⟨MemoryFiles.cycle, standard.pool⟩ =
        (.ok (report', graph'), r') ∧
      ((Diagnostic.about (Path.key ⟨"/a.js"⟩) report.diagnostics).map Diagnostic.keyed).Perm
        ((Diagnostic.about (Path.key ⟨"/a.js"⟩) report'.diagnostics).map Diagnostic.keyed) := by
  have hrules : ∀ r ∈ standard.rules, r.rule ∈ Rule.builtin := by
    simp [standard, Rule.defaults]
  have hkey : (Path.absoluteFrom ⟨"/a.js"⟩ standard.options.directory).key =
      Path.key ⟨"/a.js"⟩ := by decide
  obtain ⟨loaded, state, h, hrun⟩ := standard.exists_finishes
    (List.cons_ne_nil (⟨"/a.js"⟩ : Path) [⟨"/b.js"⟩]) ⟨MemoryFiles.cycle, standard.pool⟩
  obtain ⟨loaded', state', h', hrun'⟩ := standard.exists_finishes
    (List.cons_ne_nil (⟨"/a.js"⟩ : Path) []) ⟨MemoryFiles.cycle, standard.pool⟩
  refine ⟨_, _, _, _, _, _, hrun, hrun', ?_⟩
  rw [← hkey]
  exact (run_compositional hrules rfl rfl h).1 _ List.mem_cons_self _ _ _ h'

end LintSession

end ScriptLint
