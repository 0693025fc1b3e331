/-
What the messages of an execution over files in memory say.

A path is loaded once, and only a module that was sent is analyzed.  So a file is as it was
at the beginning until its module is sent, although analyses replace the texts of files in
the meantime, and what a message says is what the files said at first:

* **`Moment.Reflects`** — the messages so far, and the files that no message is about yet;
* **`Moment.Reflects.move`** — every move keeps this;
* **`LintSession.reflects`** — so it holds wherever a run can come;
* **`LintSession.imports_of_sent`** — and what modules import in an execution they import
  in the files.
-/
import ScriptLint.Proofs.Ledger
import ScriptLint.Proofs.Linking

namespace ScriptLint

/-- The messages say what the files said at first, and so do the files that no message is
about. -/
structure Moment.Reflects (l : Linter) (files : MemoryFiles) (history : History)
    (x : Moment MemoryFiles) : Prop where
  plans : x.state.resources.files.plans = files.plans
  mem : ∀ k, k ∈ x.state.resources.files.files ↔ k ∈ files.files
  untouched : ∀ q : Path, q.key ∉ history.sent.map (fun m => m.path.key) →
    x.state.resources.files.find? q = files.find? q
  sent : ∀ m ∈ history.sent, m.unleased = l.module files m.path

namespace Moment.Reflects

variable {l : Linter} {files : MemoryFiles} {history : History} {x y : Moment MemoryFiles}

/-- Where no message is sent and the files are left alone, nothing changes. -/
theorem congr {history' : History} (h : x.Reflects l files history)
    (hfiles : y.state.resources.files = x.state.resources.files)
    (hsent : history'.sent = history.sent) : y.Reflects l files history' where
  plans := hfiles ▸ h.plans
  mem := hfiles ▸ h.mem
  untouched := by rw [hfiles, hsent]; exact h.untouched
  sent := by rw [hsent]; exact h.sent

/-- A module is loaded that was not loaded before. -/
theorem load {p : Path} (h : x.Reflects l files history)
    (hnew : p.key ∉ history.sent.map fun m => m.path.key)
    (hfiles : y.state.resources.files = (Closing.loaded l p x.state.resources).2.files) :
    y.Reflects l files (history.after (.sent (Closing.loaded l p x.state.resources).1)) := by
  have hmodule : (Closing.loaded l p x.state.resources).1.unleased = l.module files p :=
    l.unleased_loaded h.plans (h.untouched p hnew) (MemoryFiles.isFile_congr h.mem)
  -- loading leaves the files alone or reads the one
  have hloaded : y.state.resources.files.plans = x.state.resources.files.plans ∧
      (∀ k, k ∈ y.state.resources.files.files ↔ k ∈ x.state.resources.files.files) ∧
      ∀ q : Path, p.key ≠ q.key →
        y.state.resources.files.find? q = x.state.resources.files.find? q := by
    rw [hfiles]
    rcases l.files_loaded p x.state.resources with hsame | hread
    · rw [hsame]
      exact ⟨rfl, fun k => Iff.rfl, fun q hq => rfl⟩
    · rw [hread]
      exact ⟨MemoryFiles.plans_attemptRead _ p, MemoryFiles.mem_attemptRead _ p, fun q hq =>
        MemoryFiles.find?_attemptRead_of_ne _ hq⟩
  obtain ⟨hplans, hmem, hfind⟩ := hloaded
  refine ⟨hplans.trans h.plans, fun k => (hmem k).trans (h.mem k), fun q hq => ?_, fun m hm => ?_⟩
  · have hq : q.key ∉ (history.sent ++ [(Closing.loaded l p x.state.resources).1]).map
        fun m => m.path.key := hq
    rw [List.map_append, List.mem_append, not_or, List.map_singleton, List.mem_singleton,
      Closing.path_loaded] at hq
    exact (hfind q (Ne.symm hq.2)).trans (h.untouched q hq.1)
  · rcases List.mem_append.mp hm with hm | hm
    · exact h.sent m hm
    · rw [List.mem_singleton.mp hm, hmodule, Closing.path_loaded]

/-- A module that was sent is analyzed. -/
theorem analyze {m : Module} (h : x.Reflects l files history) (hsent : m ∈ history.sent)
    (hfiles : y.state.resources.files = (Analyzing.analyzed l m x.state).2.resources.files) :
    y.Reflects l files history := by
  have hmodule := h.sent m hsent
  have hafter := (Linter.analyzed_eq hmodule h.plans).2.2.2.2.2
  rw [← hfiles] at hafter
  cases hwritten : l.analysisSettings.written x.state.graph l.options.crossModule
      (l.module files m.path) with
  | none =>
    rw [hwritten] at hafter
    exact h.congr hafter rfl
  | some text =>
    rw [hwritten] at hafter
    have hfile : FileStore.isFile x.state.resources.files m.path = true := by
      rw [MemoryFiles.isFile_congr h.mem]
      exact Linter.isFile_of_written hwritten
    refine ⟨?_, fun k => ?_, fun q hq => ?_, h.sent⟩
    · rw [hafter, MemoryFiles.plans_attemptWrite, h.plans]
    · rw [hafter, MemoryFiles.mem_attemptWrite _ hfile, h.mem]
    · have hne : m.path.key ≠ q.key := fun heq =>
        hq (heq ▸ List.mem_map_of_mem (f := fun m : Module => m.path.key) hsent)
      rw [hafter, MemoryFiles.find?_attemptWrite_of_ne _ hne, h.untouched q hq]

end Moment.Reflects

/-- **Every move keeps what the messages say.** -/
theorem Moment.Reflects.move {l : Linter} {files : MemoryFiles} {workers : Nat}
    {x y : Moment MemoryFiles} {signal : Signal} {history : History}
    (h : x.Reflects l files history) (hdelivers : x.Delivers history)
    (hknows : x.Knows history.received) (hmove : l.Move workers x signal y) :
    y.Reflects l files (history.after signal) := by
  -- what is analyzed was sent before
  have hsent {m : Module} (hm : m ∈ history.received) : m ∈ history.sent := by
    rw [hdelivers.delivered, List.append_assoc]
    exact List.mem_append_left _ hm
  cases hmove with
  | @hands batch rest p left c =>
    obtain ⟨fresh, hhands⟩ := Closing.hands_dispatch c p
    exact h.congr (congrArg Resources.files hhands.resources) rfl
  | @loads batch rest control c hne hfree =>
    obtain ⟨p, more, hp⟩ := List.exists_cons_of_ne_nil hne
    rw [Closing.step_start l hp]
    exact h.congr rfl rfl
  | helps hp =>
    rw [Closing.step_start l hp]
    exact h.congr rfl rfl
  | @sends batch rest control c index p hp hother =>
    rw [Closing.step_finish l hp]
    exact h.load (hdelivers.new_of_running (List.mem_of_getElem? hp)) rfl
  | @helped batch rest c index p hp =>
    rw [Closing.step_finish l hp]
    exact h.load (hdelivers.new_of_running (List.mem_of_getElem? hp)) rfl
  | @performs batch rest m act left c =>
    obtain ⟨fresh, hhands⟩ := act.hands_perform c
    exact h.congr (congrArg Resources.files hhands.resources) rfl
  | @inspects batch rest received control a hne hfree =>
    obtain ⟨m, more, hm⟩ := List.exists_cons_of_ne_nil hne
    rw [Analyzing.step_start l hm]
    exact h.congr rfl rfl
  | assists hm =>
    rw [Analyzing.step_start l hm]
    exact h.congr rfl rfl
  | @reports batch rest received control a index m hm hother =>
    rw [Analyzing.step_finish l hm]
    have hreceived := (Analyzing.Knows.links hknows m
      (List.mem_append_right _ (List.mem_of_getElem? hm))).1
    exact h.analyze (hsent hreceived) rfl
  | @assisted batch rest received a index m hm =>
    rw [Analyzing.step_finish l hm]
    have hreceived := (Analyzing.Knows.links hknows m
      (List.mem_append_right _ (List.mem_of_getElem? hm))).1
    exact h.analyze (hsent hreceived) rfl
  | @counts batch rest received a hne =>
    obtain ⟨counts, more, hcounts⟩ := List.exists_cons_of_ne_nil hne
    rw [Analyzing.step_receive l hcounts]
    exact h.congr rfl rfl
  | opens | drains | takes | settles | closes | links | turns | posts | posted | counted | releases
    | ends => exact h.congr rfl rfl

namespace LintSession

variable {s : LintSession} {paths : List Path} {r : Resources MemoryFiles} {workers : Nat}
  {x : Scene MemoryFiles}

/-- **The messages of an execution say what the files said at first**, for any number of
workers and order of moves. -/
theorem reflects (h : (s.linterOf paths).Advances workers (s.opening paths r) x) :
    x.moment.Reflects (s.linterOf paths) r.files x.history := by
  have hinvariant : x.moment.Accounted (s.linterOf paths) x.history ∧
      x.moment.Knows x.history.received ∧
      x.moment.Reflects (s.linterOf paths) r.files x.history := by
    refine h.induct (motive := fun history moment =>
      moment.Accounted (s.linterOf paths) history ∧ moment.Knows history.received ∧
      moment.Reflects (s.linterOf paths) r.files history) ?_ ?_
    · refine ⟨s.accounted_opening paths r, ⟨by simp [opening], fun k _ => ?_⟩,
        ⟨rfl, fun k => Iff.rfl, fun q hq => rfl, by simp [opening]⟩⟩
      exact ModuleGraph.core_of_not_mem _ Std.TreeMap.not_mem_emptyc
    · rintro history moment signal moment' ⟨haccounted, hknows, hreflects⟩ hmove
      exact ⟨haccounted.move hmove,
        hknows.move haccounted.counted haccounted.delivers haccounted.answers hmove,
        hreflects.move haccounted.delivers hknows hmove⟩
  exact hinvariant.2.2

/-- A module that was sent imports what the files say. -/
theorem imports_of_sent (h : (s.linterOf paths).Advances workers (s.opening paths r) x)
    {m : Module} (hm : m ∈ x.history.sent) {t : Path} (ht : t ∈ m.targets) :
    (s.linterOf paths).Imports r.files m.path.key t.key := by
  have hmodule := (reflects h).sent m hm
  rw [← Module.targets_unleased, hmodule] at ht
  exact Linter.imports_of_mem ht

end LintSession

end ScriptLint
