/-
What is counted and kept in the course of a run.

Three accounts go with every state of a run, next to what its graph knows:

* **`Linter.Stored`** — the files: what was not loaded yet is as it was at the
  beginning, and a text differs from the first one only if an analysis replaced it;
* **`Linter.Handed`** — the paths that were handed out: distinct ones, all of them
  reached from the entries, and exactly those that the graph has noted;
* **`Linter.Tallied`** — the problems and the counts: those of the modules that were
  received and of the analyses that were done.
-/
import Mathlib.Algebra.GroupWithZero.Nat
import ScriptLint.Proofs.Analyses
import ScriptLint.Proofs.RunGraph

namespace ScriptLint

namespace Linter

variable (l : Linter) (files : MemoryFiles)

/-! ### Files -/

/-- The text of a file when some analyses have been done. -/
def textOf (analyses : List Analysis) (q : Path) : Option Bytes :=
  match analyses.find? fun a => a.path.key = q.key with
  | none => files.content q
  | some a => a.after

/-- The files of a run in which some paths were loaded and some analyses done. -/
structure Stored (loaded : List Path) (analyses : List Analysis) (store : MemoryFiles) : Prop where
  plans : store.plans = files.plans
  mem : ∀ k, k ∈ store.files ↔ k ∈ files.files
  untouched : ∀ q : Path, q.key ∉ loaded.map Path.key → store.find? q = files.find? q
  reads : ∀ q : Path, store.reads q ≤ files.reads q + (loaded.map Path.key).count q.key
  writes : ∀ q : Path, store.writes q =
    files.writes q + analyses.countP fun a => a.path.key = q.key && a.counts.written
  content : ∀ q : Path, store.content q = textOf files analyses q

namespace Stored

variable {l files} {loaded : List Path} {analyses : List Analysis}

theorem refl (files : MemoryFiles) : Stored files [] [] files where
  plans := rfl
  mem _ := Iff.rfl
  untouched _ _ := rfl
  reads _ := Nat.le_add_right _ _
  writes _ := rfl
  content _ := rfl

/-- A path is loaded that was not loaded before. -/
theorem load {r : Resources MemoryFiles} (h : Stored files loaded analyses r.files) {p : Path}
    (hp : p.key ∉ loaded.map Path.key) :
    (Closing.loaded l p r).1.unleased = l.module files p ∧
      Stored files (loaded ++ [p]) analyses (Closing.loaded l p r).2.files := by
  refine ⟨l.unleased_loaded h.plans (h.untouched p hp)
    fun q => MemoryFiles.isFile_congr h.mem q, ?_⟩
  have hcount (q : Path) : ((loaded ++ [p]).map Path.key).count q.key =
      (loaded.map Path.key).count q.key + if p.key = q.key then 1 else 0 := by
    rw [List.map_append, List.count_append, List.map_singleton, List.count_singleton]
    simp only [beq_iff_eq]
  have hmem (q : Path) (hq : q.key ∉ (loaded ++ [p]).map Path.key) :
      q.key ∉ loaded.map Path.key ∧ p.key ≠ q.key := by
    rw [List.map_append, List.mem_append, not_or, List.map_singleton, List.mem_singleton] at hq
    exact ⟨hq.1, Ne.symm hq.2⟩
  rcases l.files_loaded p r with hr | hr
  · rw [hr]
    refine ⟨h.plans, h.mem, fun q hq => h.untouched q (hmem q hq).1, fun q => ?_, h.writes,
      h.content⟩
    rw [hcount]
    exact le_trans (h.reads q) (by omega)
  · rw [hr]
    refine ⟨?_, fun k => ?_, fun q hq => ?_, fun q => ?_, fun q => ?_, fun q => ?_⟩
    · rw [MemoryFiles.plans_attemptRead, h.plans]
    · rw [MemoryFiles.mem_attemptRead, h.mem]
    · rw [MemoryFiles.find?_attemptRead_of_ne _ (hmem q hq).2, h.untouched q (hmem q hq).1]
    · have hread := MemoryFiles.reads_attemptRead r.files p q
      have hbefore := h.reads q
      rw [hcount]
      omega
    · rw [MemoryFiles.writes_attemptRead, h.writes]
    · rw [MemoryFiles.content_attemptRead, h.content]

theorem textOf_of_ne {a : Analysis} {q : Path} (h : a.path.key ≠ q.key) :
    textOf files (analyses ++ [a]) q = textOf files analyses q := by
  unfold textOf
  rw [List.find?_append, List.find?_cons_of_neg (by simpa using h), List.find?_nil, Option.or_none]

theorem textOf_of_new {q : Path} (h : q.key ∉ analyses.map fun a => a.path.key) :
    textOf files analyses q = files.content q := by
  have hnone : analyses.find? (fun a => a.path.key = q.key) = none := by
    rw [List.find?_eq_none]
    intro a ha hkey
    exact h (List.mem_map.mpr ⟨a, ha, by simpa using hkey⟩)
  rw [textOf, hnone]

theorem textOf_append {a : Analysis} {q : Path} (h : q.key ∉ analyses.map fun a => a.path.key)
    (hq : a.path.key = q.key) : textOf files (analyses ++ [a]) q = a.after := by
  have hnone : analyses.find? (fun a => a.path.key = q.key) = none := by
    rw [List.find?_eq_none]
    intro a ha hkey
    exact h (List.mem_map.mpr ⟨a, ha, by simpa using hkey⟩)
  rw [textOf, List.find?_append, hnone, Option.none_or, List.find?_cons_of_pos (by simpa using hq)]

/-- A module that was loaded is analyzed, and was not before. -/
theorem analyze {s : RunState MemoryFiles} (h : Stored files loaded analyses s.resources.files)
    {m : Module} (hm : m.unleased = l.module files m.path)
    (hloaded : m.path.key ∈ loaded.map Path.key)
    (hnew : m.path.key ∉ analyses.map fun a => a.path.key) :
    Stored files loaded (analyses ++ [l.analysis files s.graph m.path])
      (Analyzing.analyzed l m s).2.resources.files := by
  have hcontent (m : MemoryFiles) {p q : Path} (hpq : p.key = q.key) : m.content p = m.content q := by
    rw [MemoryFiles.content_eq, MemoryFiles.find?_congr m hpq, MemoryFiles.content_eq]
  have hfiles := (analyzed_eq hm h.plans).2.2.2.2.2
  have hafter : (l.analysis files s.graph m.path).after = textAfter files m.path
    (l.analysisSettings.written s.graph l.options.crossModule (l.module files m.path)) := rfl
  have hwritten := @written_analysis l files s.graph m.path
  have hcount (q : Path) : (analyses ++ [l.analysis files s.graph m.path]).countP
        (fun a => a.path.key = q.key && a.counts.written) =
      analyses.countP (fun a => a.path.key = q.key && a.counts.written) +
        if m.path.key = q.key ∧ (l.analysis files s.graph m.path).counts.written = true then 1
        else 0 := by
    have hpath : (l.analysis files s.graph m.path).path = m.path := rfl
    rw [List.countP_append, List.countP_singleton, hpath]
    simp only [Bool.and_eq_true, decide_eq_true_eq]
  rw [hfiles]
  cases hw : l.analysisSettings.written s.graph l.options.crossModule (l.module files m.path) with
  | none =>
    refine ⟨h.plans, h.mem, h.untouched, h.reads, fun q => ?_, fun q => ?_⟩
    · rw [hcount, if_neg, h.writes]
      · rfl
      · rw [hwritten, hw]
        simp
    rw [hw] at hafter
    by_cases hq : m.path.key = q.key
    · rw [textOf_append (hq ▸ hnew) hq, hafter, h.content, textOf_of_new (hq ▸ hnew)]
      exact hcontent files hq.symm
    · rw [textOf_of_ne hq, h.content]
  | some text =>
    have hfile : FileStore.isFile s.resources.files m.path = true := by
      rw [MemoryFiles.isFile_congr h.mem]
      exact isFile_of_written hw
    rw [hw] at hafter
    have hsame := MemoryFiles.attemptWrite_fst h.plans (rfl : m.path.key = m.path.key) text
    refine ⟨?_, fun k => ?_, fun q hq => ?_, fun q => ?_, fun q => ?_, fun q => ?_⟩
    · rw [MemoryFiles.plans_attemptWrite, h.plans]
    · rw [MemoryFiles.mem_attemptWrite _ hfile, h.mem]
    · rw [MemoryFiles.find?_attemptWrite_of_ne _ (fun heq => hq (heq ▸ hloaded)), h.untouched q hq]
    · rw [MemoryFiles.reads_attemptWrite]
      exact h.reads q
    · have hiff : (l.analysis files s.graph m.path).counts.written = true ↔
          (files.attemptWrite m.path text).1 = .ok () := by
        rw [hwritten, hw]
        simp
      dsimp only
      rw [hcount, MemoryFiles.writes_attemptWrite, hsame, h.writes, Nat.add_assoc]
      simp only [hiff]
    · by_cases hq : m.path.key = q.key
      · rw [textOf_append (hq ▸ hnew) hq, hafter, textAfter]
        cases hout : (files.attemptWrite m.path text).1 with
        | error e =>
          rw [hout] at hsame
          simp only [MemoryFiles.attemptWrite_snd_of_error _ hsame,
            MemoryFiles.attemptWrite_snd_of_error _ hout]
          rw [h.content, textOf_of_new (hq ▸ hnew)]
          exact hcontent files hq.symm
        | ok _ =>
          rw [hout] at hsame
          simp only [MemoryFiles.content_attemptWrite_self _ hq hsame,
            MemoryFiles.content_attemptWrite_self _ rfl hout]
      · rw [textOf_of_ne hq, MemoryFiles.content_eq, MemoryFiles.find?_attemptWrite_of_ne _ hq,
          ← MemoryFiles.content_eq, h.content]

end Stored

/-! ### Paths that were handed out -/

/-- The paths that a run has handed out, and that its graph has noted as such. -/
structure Handed (handed : List Path) (g : ModuleGraph) : Prop where
  nodup : (handed.map Path.key).Nodup
  dispatched : ∀ k, k ∈ g.dispatched ↔ k ∈ handed.map Path.key
  reached : ∀ p ∈ handed, l.Reaches files p.key

namespace Handed

variable {l files} {handed : List Path} {g : ModuleGraph}

theorem empty : Handed l files [] ModuleGraph.empty where
  nodup := by simp
  dispatched k := by simp [ModuleGraph.empty]
  reached := by simp

theorem of_dispatched (h : Handed l files handed g) {g' : ModuleGraph}
    (hg : g'.dispatched = g.dispatched) : Handed l files handed g' :=
  ⟨h.nodup, fun k => by rw [hg, h.dispatched], h.reached⟩

/-- The order in which the paths are listed does not matter. -/
theorem perm (h : Handed l files handed g) {handed' : List Path} (hperm : handed'.Perm handed) :
    Handed l files handed' g where
  nodup := (hperm.map Path.key).nodup_iff.mpr h.nodup
  dispatched k := by rw [h.dispatched, (hperm.map Path.key).mem_iff]
  reached p hp := h.reached p (hperm.mem_iff.mp hp)

/-- Some more paths are handed out, which were not handed out before. -/
theorem append (h : Handed l files handed g) {fresh : List Path} {g' : ModuleGraph}
    (hdispatched : ∀ k, k ∈ g'.dispatched ↔ k ∈ fresh.map Path.key ∨ k ∈ g.dispatched)
    (hnodup : (fresh.map Path.key).Nodup) (hnew : ∀ p ∈ fresh, p.key ∉ g.dispatched)
    (hreached : ∀ p ∈ fresh, l.Reaches files p.key) : Handed l files (handed ++ fresh) g' where
  nodup := by
    rw [List.map_append]
    refine h.nodup.append hnodup fun k hk hk' => ?_
    obtain ⟨p, hp, rfl⟩ := List.mem_map.mp hk'
    exact hnew p hp ((h.dispatched _).mpr hk)
  dispatched k := by rw [hdispatched, h.dispatched, List.map_append, List.mem_append, or_comm]
  reached p hp := (List.mem_append.mp hp).elim (h.reached p) (hreached p)

end Handed

/-! ### Problems and counts -/

/-- The problems and the counts of a run in which some modules were received and some
analyses done, of which some are not counted yet. -/
structure Tallied (received : List Path) (analyses : List Analysis)
    (uncounted : List AnalysisCounts) (s : RunState MemoryFiles) : Prop where
  emitted : s.emitted.Perm (received.flatMap (fun p => (l.module files p).diagnostics) ++
    analyses.flatMap Analysis.emitted)
  processed : s.counts.processed = received.length
  failed : s.counts.failed = received.countP fun p => (l.module files p).failed
  unsupported : s.counts.unsupported = received.countP fun p => !(l.module files p).isSupported
  analyzed : s.counts.analyzed + uncounted.length = analyses.length
  ruleFailures : s.counts.ruleFailures + (uncounted.map AnalysisCounts.ruleFailures).sum =
    (analyses.map fun a => a.counts.ruleFailures).sum
  fixesApplied : s.counts.fixesApplied + (uncounted.map AnalysisCounts.fixesApplied).sum =
    (analyses.map fun a => a.counts.fixesApplied).sum
  filesWritten : s.counts.filesWritten + uncounted.countP AnalysisCounts.written =
    analyses.countP fun a => a.counts.written

namespace Tallied

variable {l files} {received : List Path} {analyses : List Analysis}
  {uncounted : List AnalysisCounts} {s s' : RunState MemoryFiles}

theorem start (r : Resources MemoryFiles) : Tallied l files [] [] [] { resources := r } := by
  constructor <;> simp

/-- States that differ in other things have the same tallies. -/
theorem congr (h : Tallied l files received analyses uncounted s) (hemitted : s'.emitted = s.emitted)
    {batches dispatched : Nat} (hcounts : s'.counts = { s.counts with batches, dispatched }) :
    Tallied l files received analyses uncounted s' where
  emitted := hemitted ▸ h.emitted
  processed := by rw [hcounts]; exact h.processed
  failed := by rw [hcounts]; exact h.failed
  unsupported := by rw [hcounts]; exact h.unsupported
  analyzed := by rw [hcounts]; exact h.analyzed
  ruleFailures := by rw [hcounts]; exact h.ruleFailures
  fixesApplied := by rw [hcounts]; exact h.fixesApplied
  filesWritten := by rw [hcounts]; exact h.filesWritten

theorem receive (h : Tallied l files received analyses uncounted s) {m : Module}
    (hm : m.unleased = l.module files m.path) (hemitted : s'.emitted = s.emitted ++ m.diagnostics)
    {dispatched : Nat} (hcounts : s'.counts = Closing.count m { s.counts with dispatched }) :
    Tallied l files (received ++ [m.path]) analyses uncounted s' where
  emitted := by
    have hdiagnostics : (l.module files m.path).diagnostics = m.diagnostics := by rw [← hm]; rfl
    rw [hemitted, List.flatMap_append, List.flatMap_singleton, hdiagnostics]
    refine (h.emitted.append_right _).trans ?_
    rw [List.append_assoc, List.append_assoc]
    exact List.perm_append_comm.append_left _
  processed := by rw [hcounts, List.length_append]; simp [Closing.count, h.processed]
  failed := by
    have hfailed : (l.module files m.path).failed = m.failed := by rw [← hm]; rfl
    rw [hcounts, List.countP_append, List.countP_singleton, hfailed, ← h.failed]
    simp only [Closing.count]
    split <;> rfl
  unsupported := by
    have hsupported : (l.module files m.path).isSupported = m.isSupported := by rw [← hm]; rfl
    rw [hcounts, List.countP_append, List.countP_singleton, hsupported, ← h.unsupported]
    simp only [Closing.count]
    cases m.isSupported <;> rfl
  analyzed := by rw [hcounts]; exact h.analyzed
  ruleFailures := by rw [hcounts]; exact h.ruleFailures
  fixesApplied := by rw [hcounts]; exact h.fixesApplied
  filesWritten := by rw [hcounts]; exact h.filesWritten

theorem analyze (h : Tallied l files received analyses uncounted s) {a : Analysis}
    (hemitted : s'.emitted = s.emitted ++ a.emitted) (hcounts : s'.counts = s.counts) :
    Tallied l files received (analyses ++ [a]) (uncounted ++ [a.counts]) s' where
  emitted := by
    rw [hemitted, List.flatMap_append, List.flatMap_singleton, ← List.append_assoc]
    exact h.emitted.append_right _
  processed := by rw [hcounts]; exact h.processed
  failed := by rw [hcounts]; exact h.failed
  unsupported := by rw [hcounts]; exact h.unsupported
  analyzed := by
    have := h.analyzed
    simp only [hcounts, List.length_append, List.length_singleton]
    omega
  ruleFailures := by
    have := h.ruleFailures
    simp only [hcounts, List.map_append, List.sum_append, List.map_singleton, List.sum_singleton]
    omega
  fixesApplied := by
    have := h.fixesApplied
    simp only [hcounts, List.map_append, List.sum_append, List.map_singleton, List.sum_singleton]
    omega
  filesWritten := by
    have := h.filesWritten
    simp only [hcounts, List.countP_append, List.countP_singleton]
    omega

theorem count {a : AnalysisCounts} (h : Tallied l files received analyses (a :: uncounted) s)
    (hemitted : s'.emitted = s.emitted) (hcounts : s'.counts = Analyzing.count a s.counts) :
    Tallied l files received analyses uncounted s' where
  emitted := hemitted ▸ h.emitted
  processed := by rw [hcounts]; exact h.processed
  failed := by rw [hcounts]; exact h.failed
  unsupported := by rw [hcounts]; exact h.unsupported
  analyzed := by
    have := h.analyzed
    simp only [hcounts, Analyzing.count, List.length_cons] at this ⊢
    omega
  ruleFailures := by
    have := h.ruleFailures
    simp only [hcounts, Analyzing.count, List.map_cons, List.sum_cons] at this ⊢
    omega
  fixesApplied := by
    have := h.fixesApplied
    simp only [hcounts, Analyzing.count, List.map_cons, List.sum_cons] at this ⊢
    omega
  filesWritten := by
    have := h.filesWritten
    simp only [hcounts, Analyzing.count, List.countP_cons] at this ⊢
    cases hw : a.written with
    | false => simpa [hw] using this
    | true =>
      simp only [hw, if_true] at this ⊢
      omega

end Tallied

end Linter

end ScriptLint
