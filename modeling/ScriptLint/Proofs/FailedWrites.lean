/-
What is reported when fixes cannot be written.

A write can fail with an error or break off.  After an error the analysis goes on and
reports what it would have reported without fixing, and the error.  When the write breaks
off, so does the analysis: what was said about the module until then is reported, but none
of the messages is, and the rules that failed are not counted:

* **`Linter.attempt?`** — what becomes of the write of an analysis, if there is one;
* **`Linter.analyze_attempt`** — what the analysis comes to in each case;
* **`LintSession.KeepsReports`** — the report of a run with fixing, next to that of the
  same run without;
* **`LintSession.run_keeps_reports`** — every run is like that.
-/
import Mathlib
import ScriptLint.Proofs.Composition
import ScriptLint.Proofs.Lockstep
import ScriptLint.Proofs.Records
import ScriptLint.Proofs.Reporting

namespace ScriptLint

theorem sum_map_filter {α : Type} (xs : List α) (p : α → Bool) (f : α → Nat) :
    (xs.map fun x => if p x then f x else 0).sum = ((xs.filter p).map f).sum := by
  rw [List.sum_map_ite]
  simp

namespace AnalysisSettings

variable {settings : AnalysisSettings} {links : Nat → Table Interface}
  {graph : Option ModuleGraph} {m : Module}

/-- The inspections of a module have its messages. -/
theorem messages_inspections (g : ModuleGraph) (cross : Bool) :
    (settings.inspections g cross m).flatMap (fun i => i.1.messages) =
      settings.messages (Analyzing.links g m.path) (if cross then some g else none) m := by
  rw [inspections, List.flatMap_map]
  exact List.flatMap_congr fun x _ => messages_inspectPart x.2 x.1

/-- Each rule that fails on a segment is reported early once. -/
theorem countP_early : (settings.early links graph m).countP (fun d => d.code = Code.ruleFailure) =
    (settings.failures links graph m).length := by
  have hresolve : Code.resolve ≠ Code.ruleFailure := by decide
  rw [early, failures, List.countP_flatMap, List.length_flatMap]
  refine congrArg List.sum (List.map_congr_left fun x _ => ?_)
  rw [Function.comp_apply, List.countP_append, List.countP_eq_length.mpr, List.countP_eq_zero.mpr,
    Nat.add_zero]
  · intro d hd
    rw [code_unresolved hd]
    simpa using hresolve
  · intro d hd
    simpa using code_failures hd

/-- Messages are under the names of rules. -/
theorem code_messages {message : Message} (h : message ∈ settings.messages links graph m) :
    ∃ setting ∈ settings.rules, message.code = setting.rule.name := by
  obtain ⟨⟨part, index⟩, _, hsaid⟩ := List.mem_flatMap.mp h
  obtain ⟨_, _, setting, hsetting, _, _, rfl⟩ := finding_of_mem_saidOf hsaid
  exact ⟨setting, hsetting, rfl⟩

end AnalysisSettings

/-! ### Analyses -/

namespace Linter

section

variable (l : Linter) (files : MemoryFiles) (x : ModuleGraph × Path)

/-- What becomes of the write of an analysis, if there is something to write. -/
def attempt? : Option (Attempt Unit) :=
  (l.analysisSettings.written x.1 l.options.crossModule (l.module files x.2)).map fun text =>
    (files.attemptWrite x.2 text).1

/-- The messages of an analysis. -/
def messagesOf : List Message :=
  l.analysisSettings.messages (Analyzing.links x.1 x.2)
    (if l.options.crossModule then some x.1 else none) (l.module files x.2)

/-- The reports of an analysis on rules that fail. -/
def failuresOf : List Diagnostic :=
  l.analysisSettings.failures (Analyzing.links x.1 x.2)
    (if l.options.crossModule then some x.1 else none) (l.module files x.2)

/-- What an analysis reports before anything is fixed. -/
def earlyOf : List Diagnostic :=
  l.analysisSettings.early (Analyzing.links x.1 x.2)
    (if l.options.crossModule then some x.1 else none) (l.module files x.2)

/-- The positions of the messages that an analysis fixes. -/
def ownersOf : List Nat :=
  AnalysisSettings.owners (((l.module files x.2).content.map Module.Content.text).getD [])
    (l.messagesOf files x)

/-- What an analysis reports and counts, when the write has come to this. -/
def concluded (m : Module) : Option (Attempt Unit) → AnalysisResult
  | none => AnalysisSettings.finish m (l.messagesOf files x) (l.earlyOf files x) [] []
      { ruleFailures := (l.failuresOf files x).length }
  | some (.error (.failed e)) =>
    AnalysisSettings.finish m (l.messagesOf files x) (l.earlyOf files x)
      [AnalysisSettings.writeDiagnostic m e] [] { ruleFailures := (l.failuresOf files x).length }
  | some (.error (.brokenOff reason)) => ⟨l.earlyOf files x, .error (.brokenOff reason)⟩
  | some (.ok ()) =>
    AnalysisSettings.finish m (l.messagesOf files x) (l.earlyOf files x) [] (l.ownersOf files x)
      { ruleFailures := (l.failuresOf files x).length
        fixesApplied := (l.ownersOf files x).length, written := true }

end

variable {l : Linter} {files : MemoryFiles} {x : ModuleGraph × Path}

/-- **What an analysis comes to**, by what became of its write. -/
theorem analyze_attempt :
    (l.analysisSettings.analyze (Analyzing.links x.1 x.2)
        (if l.options.crossModule then some x.1 else none) (l.module files x.2) files).1 =
      l.concluded files x (l.module files x.2) (l.attempt? files x) := by
  have hpath : (l.module files x.2).path = x.2 := l.path_module files x.2
  cases hcontent : (l.module files x.2).content with
  | none =>
    have hkept : (l.module files x.2).kept = [] := by rw [Module.kept, hcontent]
    have hnone : l.attempt? files x = none := by
      rw [attempt?, AnalysisSettings.written, hcontent]
      rfl
    rw [hnone, AnalysisSettings.analyze]
    simp only [hcontent, concluded, messagesOf, earlyOf, failuresOf, AnalysisSettings.messages,
      AnalysisSettings.early, AnalysisSettings.failures, hkept]
    rfl
  | some content =>
    have hmessages : (l.analysisSettings.inspections x.1 l.options.crossModule
        (l.module files x.2)).flatMap (fun i => i.1.messages) = l.messagesOf files x := by
      rw [AnalysisSettings.messages_inspections, hpath]
      rfl
    have howners : l.ownersOf files x =
        AnalysisSettings.owners content.text (l.messagesOf files x) := by
      rw [ownersOf, hcontent]
      rfl
    have hlength : (AnalysisSettings.fixed content.text (l.messagesOf files x)).applied.length =
        (AnalysisSettings.owners content.text (l.messagesOf files x)).length := by
      obtain ⟨row, hrow⟩ := AnalysisSettings.applied_fixed content.text (l.messagesOf files x)
      rw [hrow.length, hrow.owners.length_eq, List.length_map]
    have hwrite (text : Bytes) : FileStore.write (l.module files x.2).path text files =
        files.attemptWrite x.2 text := by
      rw [hpath]
      rfl
    rw [AnalysisSettings.analyze_content hcontent]
    unfold attempt? AnalysisSettings.written AnalysisSettings.fixedText
    simp only [hcontent, Option.bind_some, hmessages, hwrite]
    change Prod.fst (if l.analysisSettings.fix &&
      (AnalysisSettings.fixed content.text (l.messagesOf files x)).changed then _ else _) = _
    split
    · rw [Option.map_some]
      unfold messagesOf
      generalize (files.attemptWrite x.2 _).1 = outcome
      cases outcome with
      | error mishap => cases mishap <;> rfl
      | ok _ =>
        simp only [concluded, howners, ← hlength]
        rfl
    · rfl

theorem emitted_analysis : (l.analysis files x.1 x.2).emitted =
    (l.concluded files x (l.module files x.2) (l.attempt? files x)).emitted ++
      (mishaps (l.module files x.2)
        (l.concluded files x (l.module files x.2) (l.attempt? files x))).2 := by
  rw [← analyze_attempt]
  rfl

theorem counts_analysis : (l.analysis files x.1 x.2).counts =
    (mishaps (l.module files x.2)
      (l.concluded files x (l.module files x.2) (l.attempt? files x))).1 := by
  rw [← analyze_attempt]
  rfl

/-- Without a write everything is reported. -/
theorem emitted_of_untried (h : l.attempt? files x = none) :
    (l.analysis files x.1 x.2).emitted = l.earlyOf files x ++
      (l.messagesOf files x).map (Message.diagnostic (l.module files x.2)) := by
  rw [emitted_analysis, h, concluded, AnalysisSettings.finish, AnalysisSettings.report_nil]
  simp only [mishaps, List.append_nil]

/-- After an error everything is reported, and the error. -/
theorem emitted_of_failed {e : Error} (h : l.attempt? files x = some (.error (.failed e))) :
    (l.analysis files x.1 x.2).emitted = l.earlyOf files x ++
      [AnalysisSettings.writeDiagnostic (l.module files x.2) e] ++
      (l.messagesOf files x).map (Message.diagnostic (l.module files x.2)) := by
  rw [emitted_analysis, h, concluded, AnalysisSettings.finish, AnalysisSettings.report_nil]
  simp only [mishaps, List.append_nil]

/-- When the write breaks off, no message is reported. -/
theorem emitted_of_brokenOff {reason : Option Bytes}
    (h : l.attempt? files x = some (.error (.brokenOff reason))) :
    (l.analysis files x.1 x.2).emitted = l.earlyOf files x ++
      [internalDiagnostic x.2 ("Analysis failed: " ++ (Mishap.brokenOff reason).message)] := by
  rw [emitted_analysis, h, concluded, mishaps, path_module]

/-- The write succeeds. -/
def wrote (l : Linter) (files : MemoryFiles) (x : ModuleGraph × Path) : Bool :=
  match l.attempt? files x with
  | some (.ok ()) => true
  | _ => false

/-- The write breaks off. -/
def brokeOff (l : Linter) (files : MemoryFiles) (x : ModuleGraph × Path) : Bool :=
  match l.attempt? files x with
  | some (.error (.brokenOff _)) => true
  | _ => false

/-- What an analysis counts: rules that fail, unless the write breaks off, and fixes and a
file, if it succeeds. -/
theorem counts_of_attempt :
    (l.analysis files x.1 x.2).counts.ruleFailures =
        (if l.brokeOff files x then 0 else (l.failuresOf files x).length) ∧
      (l.analysis files x.1 x.2).counts.fixesApplied =
        (if l.wrote files x then (l.ownersOf files x).length else 0) ∧
      (l.analysis files x.1 x.2).counts.written = l.wrote files x := by
  rw [counts_analysis, brokeOff, wrote]
  match l.attempt? files x with
  | none => exact ⟨rfl, rfl, rfl⟩
  | some (.ok ()) => exact ⟨rfl, rfl, rfl⟩
  | some (.error (.failed e)) => exact ⟨rfl, rfl, rfl⟩
  | some (.error (.brokenOff reason)) => exact ⟨rfl, rfl, rfl⟩

/-- An analysis reports each rule that fails once, also when its write fails. -/
theorem countP_analysis (hnames : ∀ r ∈ l.rules, r.rule.name ≠ Code.ruleFailure) :
    (l.analysis files x.1 x.2).emitted.countP (fun d => d.code = Code.ruleFailure) =
      (l.failuresOf files x).length := by
  have hearly : (l.earlyOf files x).countP (fun d => d.code = Code.ruleFailure) =
      (l.failuresOf files x).length := AnalysisSettings.countP_early
  have hreport (owners : List Nat) :
      (AnalysisSettings.report (l.module files x.2) (l.messagesOf files x) owners).countP
        (fun d => d.code = Code.ruleFailure) = 0 := by
    refine List.countP_eq_zero.mpr fun d hd => ?_
    obtain ⟨y, hy, rfl⟩ := List.mem_map.mp hd
    have hmessage := List.fst_mem_of_mem_zipIdx (List.mem_of_mem_filter hy)
    obtain ⟨setting, hsetting, hcode⟩ := AnalysisSettings.code_messages hmessage
    have hname := hnames setting hsetting
    rw [← hcode] at hname
    simpa [Message.diagnostic, Diagnostic.shifted] using hname
  have hdisk : Code.disk ≠ Code.ruleFailure := by decide
  have hinternal : Code.internal ≠ Code.ruleFailure := by decide
  rw [emitted_analysis]
  cases l.attempt? files x with
  | none =>
    simp only [concluded, AnalysisSettings.finish, mishaps, List.countP_append, hearly, hreport,
      List.countP_nil, Nat.add_zero]
  | some outcome =>
    cases outcome with
    | ok _ =>
      simp only [concluded, AnalysisSettings.finish, mishaps, List.countP_append, hearly, hreport,
        List.countP_nil, Nat.add_zero]
    | error mishap =>
      cases mishap with
      | failed e =>
        simp only [concluded, AnalysisSettings.finish, mishaps, List.countP_append, hearly,
          hreport, List.countP_nil, List.countP_singleton, AnalysisSettings.writeDiagnostic, hdisk,
          decide_false, Bool.false_eq_true, if_false, Nat.add_zero]
      | brokenOff reason =>
        simp only [concluded, mishaps, List.countP_append, hearly, List.countP_singleton,
          internalDiagnostic, hinternal, decide_false, Bool.false_eq_true, if_false, Nat.add_zero]

/-! ### Runs -/

/-- The problems with loading the module of a key, if it was loaded. -/
def loadProblems (l : Linter) (files : MemoryFiles) (loaded : List Path) (k : Path.Key) :
    List Diagnostic :=
  ((loaded.find? fun p => p.key = k).map fun p => (l.module files p).diagnostics).getD []

/-- All that there is to report about a module: the problems with loading it, what is reported
early, and the messages. -/
def allOf (l : Linter) (files : MemoryFiles) (loaded : List Path) (x : ModuleGraph × Path) :
    List Diagnostic :=
  l.loadProblems files loaded x.2.key ++ (l.earlyOf files x ++
    (l.messagesOf files x).map (Message.diagnostic (l.module files x.2)))

namespace Between

variable {loaded : List Path} {log : List (ModuleGraph × Path)} {s : RunState MemoryFiles}

theorem nodup_log (h : Between l files loaded (l.analysesOf files log) [] s) :
    (log.map fun x => x.2.key).Nodup := by
  have hnodup := h.nodup_analyses
  rwa [analysesOf, List.map_map] at hnodup

/-- On a module that was analyzed, a run reports the problems with loading it and those
that the analysis finds. -/
theorem about_of_mem (h : Between l files loaded (l.analysesOf files log) [] s)
    (hx : x ∈ log) : (Diagnostic.about x.2.key s.emitted).Perm
      (l.loadProblems files loaded x.2.key ++ (l.analysis files x.1 x.2).emitted) := by
  have hfind : log.find? (fun y => y.2.key = x.2.key) = some x :=
    ModuleGraph.find?_of_nodup (fun y : ModuleGraph × Path => y.2.key) h.nodup_log hx
  have hanalysis : (l.analysesOf files log).find? (fun a => a.path.key = x.2.key) =
      some (l.analysis files x.1 x.2) := by
    rw [analysesOf, List.find?_map]
    exact congrArg (Option.map _) hfind
  have habout := h.about_emitted x.2.key
  rwa [hanalysis] at habout

/-- On a module that was not analyzed, a run reports the problems with loading it. -/
theorem about_of_not_mem (h : Between l files loaded (l.analysesOf files log) [] s) {k : Path.Key}
    (hk : ∀ x ∈ log, x.2.key ≠ k) :
    (Diagnostic.about k s.emitted).Perm (l.loadProblems files loaded k) := by
  have hnone : (l.analysesOf files log).find? (fun a => a.path.key = k) = none := by
    rw [find?_key_eq_none, analysesOf, List.map_map]
    simpa [analysis] using hk
  have habout := h.about_emitted k
  rwa [hnone, Option.map_none, Option.getD_none, List.append_nil] at habout

/-- Without a write all is reported. -/
theorem about_untried (h : Between l files loaded (l.analysesOf files log) [] s) (hx : x ∈ log)
    (hattempt : l.attempt? files x = none) :
    (Diagnostic.about x.2.key s.emitted).Perm (l.allOf files loaded x) := by
  have habout := h.about_of_mem hx
  rwa [emitted_of_untried hattempt] at habout

/-- After an error all is reported, and the error. -/
theorem about_failed (h : Between l files loaded (l.analysesOf files log) [] s) (hx : x ∈ log)
    {e : Error} (hattempt : l.attempt? files x = some (.error (.failed e))) :
    (Diagnostic.about x.2.key s.emitted).Perm (l.allOf files loaded x ++
      [AnalysisSettings.writeDiagnostic (l.module files x.2) e]) := by
  have habout := h.about_of_mem hx
  rw [emitted_of_failed hattempt] at habout
  refine habout.trans ?_
  simp only [allOf, List.append_assoc]
  exact (List.perm_append_comm.append_left _).append_left _

/-- When the write breaks off, that is reported in the place of all messages. -/
theorem about_brokenOff (h : Between l files loaded (l.analysesOf files log) [] s) (hx : x ∈ log)
    {reason : Option Bytes} (hattempt : l.attempt? files x = some (.error (.brokenOff reason))) :
    (Diagnostic.about x.2.key s.emitted ++
        (l.messagesOf files x).map (Message.diagnostic (l.module files x.2))).Perm
      (l.allOf files loaded x ++
        [internalDiagnostic x.2 ("Analysis failed: " ++ (Mishap.brokenOff reason).message)]) := by
  have habout := h.about_of_mem hx
  rw [emitted_of_brokenOff hattempt] at habout
  refine (habout.append_right _).trans ?_
  simp only [allOf, List.append_assoc]
  exact (List.perm_append_comm.append_left _).append_left _

/-- Fixes count where the write succeeded. -/
theorem fixesApplied_eq (h : Between l files loaded (l.analysesOf files log) [] s) :
    s.counts.fixesApplied =
      ((log.filter (l.wrote files)).map fun x => (l.ownersOf files x).length).sum := by
  have htallied := h.tallied.fixesApplied
  simp only [List.map_nil, List.sum_nil, Nat.add_zero, analysesOf, List.map_map] at htallied
  rw [htallied, ← sum_map_filter]
  exact congrArg List.sum (List.map_congr_left fun x _ => counts_of_attempt.2.1)

/-- Files count where the write succeeded. -/
theorem filesWritten_eq (h : Between l files loaded (l.analysesOf files log) [] s) :
    s.counts.filesWritten = log.countP (l.wrote files) := by
  have htallied := h.tallied.filesWritten
  simp only [List.countP_nil, Nat.add_zero, analysesOf, List.countP_map] at htallied
  rw [htallied]
  exact List.countP_congr fun x _ => by rw [Function.comp_apply, counts_of_attempt.2.2]

/-- Rules that failed count, but where the write broke off. -/
theorem ruleFailures_add (h : Between l files loaded (l.analysesOf files log) [] s) :
    s.counts.ruleFailures + ((log.filter (l.brokeOff files)).map fun x =>
        (l.failuresOf files x).length).sum =
      (log.map fun x => (l.failuresOf files x).length).sum := by
  have htallied := h.tallied.ruleFailures
  simp only [List.map_nil, List.sum_nil, Nat.add_zero, analysesOf, List.map_map] at htallied
  rw [htallied, ← sum_map_filter, ← List.sum_map_add]
  refine congrArg List.sum (List.map_congr_left fun x _ => ?_)
  rw [Function.comp_apply, counts_of_attempt.1]
  cases l.brokeOff files x <;> simp

/-- Each rule that failed is reported once. -/
theorem countP_emitted (h : Between l files loaded (l.analysesOf files log) [] s)
    (hnames : ∀ r ∈ l.rules, r.rule.name ≠ Code.ruleFailure) :
    s.emitted.countP (fun d => d.code = Code.ruleFailure) =
      (log.map fun x => (l.failuresOf files x).length).sum := by
  have hloaded : (loaded.flatMap fun p => (l.module files p).diagnostics).countP
      (fun d => d.code = Code.ruleFailure) = 0 := by
    refine List.countP_eq_zero.mpr fun d hd => ?_
    obtain ⟨p, _, hd⟩ := List.mem_flatMap.mp hd
    have hcode := (l.diagnostics_module files hd).2
    have hother : Code.ruleFailure ∉ loadCodes := by decide
    rw [decide_eq_true_eq]
    exact fun heq => hother (heq ▸ hcode)
  rw [h.tallied.emitted.countP_eq, List.countP_append, hloaded, Nat.zero_add, List.countP_flatMap,
    analysesOf, List.map_map]
  exact congrArg List.sum (List.map_congr_left fun x _ => countP_analysis hnames)

end Between

end Linter

namespace LintSession

/-- The settings without fixing. -/
def unfixed (s : LintSession) : LintSession :=
  { s with options := { s.options with fix := false } }

/-- The report of a run with fixing next to that of a run without, for the analyses that
both have done. -/
structure KeepsReports (s : LintSession) (paths : List Path) (files : MemoryFiles)
    (loaded : List Path) (log : List (ModuleGraph × Path)) (state state' : RunState MemoryFiles) :
    Prop where
  analyzed : (log.map Prod.snd).Perm (loaded.filter ((s.linterOf paths).Kept files))
  shown : (s.linterOf paths).ShownIn files log
  /-- Where nothing had to be written, the reports are the same. -/
  untried : ∀ p : Path,
    (∀ x ∈ log, x.2.key = p.key → (s.linterOf paths).attempt? files x = none) →
    (Diagnostic.about p.key (s.report (s.entries paths) state).diagnostics).Perm
      (Diagnostic.about p.key (s.report (s.entries paths) state').diagnostics)
  /-- Where the write failed with an error, everything is reported, and the error. -/
  failed : ∀ x ∈ log, ∀ e, (s.linterOf paths).attempt? files x = some (.error (.failed e)) →
    (Diagnostic.about x.2.key (s.report (s.entries paths) state).diagnostics).Perm
      (Diagnostic.about x.2.key (s.report (s.entries paths) state').diagnostics ++
        [AnalysisSettings.writeDiagnostic ((s.linterOf paths).module files x.2) e])
  /-- Where the write broke off, that is reported in the place of all messages. -/
  brokenOff : ∀ x ∈ log, ∀ reason,
    (s.linterOf paths).attempt? files x = some (.error (.brokenOff reason)) →
    (Diagnostic.about x.2.key (s.report (s.entries paths) state).diagnostics ++
        ((s.linterOf paths).messagesOf files x).map
          (Message.diagnostic ((s.linterOf paths).module files x.2))).Perm
      (Diagnostic.about x.2.key (s.report (s.entries paths) state').diagnostics ++
        [internalDiagnostic x.2 ("Analysis failed: " ++ (Mishap.brokenOff reason).message)])
  /-- Fixes and files count where the write succeeded. -/
  fixesApplied : state.counts.fixesApplied =
    ((log.filter ((s.linterOf paths).wrote files)).map fun x =>
      ((s.linterOf paths).ownersOf files x).length).sum
  filesWritten : state.counts.filesWritten = log.countP ((s.linterOf paths).wrote files)
  /-- All rules that failed count, but those of modules whose write broke off. -/
  ruleFailures : (∀ r ∈ s.rules, r.rule.name ≠ Code.ruleFailure) →
    state.counts.ruleFailures + ((log.filter ((s.linterOf paths).brokeOff files)).map fun x =>
        ((s.linterOf paths).failuresOf files x).length).sum =
      (s.report (s.entries paths) state).diagnostics.countP fun d => d.code = Code.ruleFailure

variable {s : LintSession} {paths : List Path} {r : Resources MemoryFiles} {loaded : List Path}
  {state : RunState MemoryFiles}

/-- **What a run with fixing reports** where it could not write: to every run there is one
without fixing that takes the same steps, and the reports differ as said. -/
theorem run_keeps_reports (h : s.Finishes paths r loaded state) :
    ∃ log state', s.unfixed.Finishes paths r loaded state' ∧ state.Like state' ∧
      s.KeepsReports paths r.files loaded log state state' := by
  obtain ⟨log, state', hfinishes', hlike, hshown, hb, hb'⟩ :=
    @exists_paired s s.unfixed paths loaded state ⟨rfl, rfl, rfl⟩ rfl r h
  refine ⟨log, state', hfinishes', hlike, ?_⟩
  have hsort (state : RunState MemoryFiles) :
      (s.report (s.entries paths) state).diagnostics.Perm state.emitted := List.mergeSort_perm _ _
  have hreport {k : Path.Key} {ds : List Diagnostic} {state : RunState MemoryFiles}
      (h : (Diagnostic.about k state.emitted).Perm ds) :
      (Diagnostic.about k (s.report (s.entries paths) state).diagnostics).Perm ds :=
    ((hsort state).filter _).trans h
  -- without fixing nothing is written, and everything is reported
  have hnone (x : ModuleGraph × Path) : (s.unfixed.linterOf paths).attempt? r.files x = none := by
    rw [Linter.attempt?, AnalysisSettings.written]
    cases ((s.unfixed.linterOf paths).module r.files x.2).content <;> rfl
  have hoff {x : ModuleGraph × Path} (hx : x ∈ log) :
      (Diagnostic.about x.2.key (s.report (s.entries paths) state').diagnostics).Perm
        ((s.linterOf paths).allOf r.files loaded x) := hreport (hb'.about_untried hx (hnone x))
  refine ⟨?_, hshown, fun p hp => ?_, fun x hx e he => ?_, fun x hx reason he => ?_,
    hb.fixesApplied_eq, hb.filesWritten_eq, fun hnames => ?_⟩
  · have hwork := hb.work
    rwa [Linter.analysesOf, List.map_map] at hwork
  · by_cases hmem : ∃ x ∈ log, x.2.key = p.key
    · obtain ⟨x, hx, hkey⟩ := hmem
      rw [← hkey]
      exact (hreport (hb.about_untried hx (hp x hx hkey))).trans (hoff hx).symm
    · have hout : ∀ x ∈ log, x.2.key ≠ p.key := fun x hx hkey => hmem ⟨x, hx, hkey⟩
      exact (hreport (hb.about_of_not_mem hout)).trans
        (hreport (hb'.about_of_not_mem hout)).symm
  · exact (hreport (hb.about_failed hx he)).trans ((hoff hx).append_right _).symm
  · have hon := hb.about_brokenOff hx he
    exact (((hsort state).filter _).append_right _).trans
      (hon.trans ((hoff hx).append_right _).symm)
  · rw [(hsort state).countP_eq, hb.countP_emitted hnames, hb.ruleFailures_add]

/-- A rule that always fails. -/
def failing : Rule where
  name := "failing"
  description := "Fails"
  severity := .error
  check _ := ⟨[], some (.failed ⟨.disk, "no luck", none⟩)⟩

/-- All rules and one that fails, and fixing. -/
def unlucky : LintSession := { fixing with rules := ⟨failing, .error⟩ :: fixing.rules }

/-- The codes of the problems that a run reports. -/
def codes (s : LintSession) (files : MemoryFiles) : Option (List Bytes) :=
  ((s.run [⟨"/a.js"⟩] ⟨files, s.pool⟩).1.toOption.map
    fun x => x.1.diagnostics.map Diagnostic.code)

/-- A file that cannot be written: what the run without fixing reports, and the error. -/
theorem run_keeps_reports_unwritable :
    (∃ loaded state log state',
      unlucky.Finishes [⟨"/a.js"⟩] ⟨(oneFile "debugger;\n").plan ⟨"/a.js"⟩
        { failWrite := some "disk full" }, unlucky.pool⟩ loaded state ∧
      unlucky.unfixed.Finishes [⟨"/a.js"⟩] ⟨(oneFile "debugger;\n").plan ⟨"/a.js"⟩
        { failWrite := some "disk full" }, unlucky.pool⟩ loaded state' ∧
      unlucky.KeepsReports [⟨"/a.js"⟩] ((oneFile "debugger;\n").plan ⟨"/a.js"⟩
        { failWrite := some "disk full" }) loaded log state state') ∧
      codes unlucky ((oneFile "debugger;\n").plan ⟨"/a.js"⟩ { failWrite := some "disk full" }) =
        some [Code.disk, Code.ruleFailure, Rule.noDebugger.name] := by
  refine ⟨?_, by cbv⟩
  obtain ⟨loaded, state, hfinishes, _⟩ := unlucky.exists_finishes
    (List.cons_ne_nil (⟨"/a.js"⟩ : Path) []) ⟨(oneFile "debugger;\n").plan ⟨"/a.js"⟩
      { failWrite := some "disk full" }, unlucky.pool⟩
  obtain ⟨log, state', hfinishes', _, hkeeps⟩ := run_keeps_reports hfinishes
  exact ⟨loaded, state, log, state', hfinishes, hfinishes', hkeeps⟩

/-- When the write breaks off, the messages are lost, and the rule that failed is reported
but not counted. -/
theorem run_loses_messages :
    codes unlucky ((oneFile "debugger;\n").plan ⟨"/a.js"⟩ { breakWrite := some "disk gone" }) =
        some [Code.internal, Code.ruleFailure] ∧
      codes unlucky.unfixed
          ((oneFile "debugger;\n").plan ⟨"/a.js"⟩ { breakWrite := some "disk gone" }) =
        some [Code.ruleFailure, Rule.noDebugger.name] ∧
      (unlucky.run [⟨"/a.js"⟩] ⟨(oneFile "debugger;\n").plan ⟨"/a.js"⟩
        { breakWrite := some "disk gone" }, unlucky.pool⟩).1.toOption.map
          (fun x => x.1.counts.ruleFailures) = some 0 := by
  refine ⟨?_, ?_, ?_⟩
  · cbv
  · cbv
  · decide +kernel

end LintSession

end ScriptLint
