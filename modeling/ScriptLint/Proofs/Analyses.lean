/-
What the analysis of a module amounts to.

`Linter.analysis` is the analysis of the module that a linter loads for a path, from
the files as they are at the beginning of a run and in a graph.  In a run the files
have been read and partly rewritten meanwhile, and the content lies in some arena;
neither makes a difference:

* **`Linter.analyzed_eq`** — an analysis in a run is the analysis of the path;
* **`Linter.analysis_congr`** — graphs that show a module what the files say have the
  same analysis of it, up to the spelling of its path;
* **`Linter.analysis_congr_unmarked`** — it does not matter for this whether the module is
  an entry.
-/
import ScriptLint.Proofs.Verdicts

namespace ScriptLint

/-- What an analysis amounts to: its counts, what it reports, and the text of the file
afterwards. -/
structure Analysis where
  path : Path
  counts : AnalysisCounts
  emitted : List Diagnostic
  after : Option Bytes

namespace Analysis

/-- An analysis with keys in the place of paths. -/
def keyed (a : Analysis) :
    Path.Key × AnalysisCounts × List (Path.Key × Diagnostic) × Option Bytes :=
  (a.path.key, a.counts, a.emitted.map Diagnostic.keyed, a.after)

end Analysis

/-! ### Problems are about the module that is analyzed -/

namespace AnalysisSettings

theorem path_inspectPart {settings : AnalysisSettings} {links : Nat → Table Interface}
    {graph : Option ModuleGraph} {m : Module} {index : Nat} {part : Part} {d : Diagnostic}
    (h : d ∈ (settings.inspectPart links graph m index part).1.failures ++
      (settings.inspectPart links graph m index part).2) : d.path = m.path := by
  unfold inspectPart at h
  cases hout : part.outcome with
  | error _ => simp [hout] at h
  | ok e =>
    simp only [hout] at h
    rcases List.mem_append.mp h with h | h
    · simp only [inspect, List.mem_flatMap, List.mem_map, exists_exists_and_eq_and] at h
      obtain ⟨setting, _, hd⟩ := h
      unfold inspectWith at hd
      split at hd
      · dsimp only at hd
        split at hd
        · rw [List.mem_singleton.mp hd, failureDiagnostic]
        · exact absurd hd List.not_mem_nil
      · exact absurd hd List.not_mem_nil
    · obtain ⟨r, _, hd⟩ := List.mem_filterMap.mp h
      cases hr : r.outcome with
      | ok _ => simp [hr] at hd
      | error e =>
        simp only [hr, Option.some.injEq] at hd
        rw [← hd]

theorem path_finish {m : Module} {messages : List Message} {early more : List Diagnostic}
    {owners : List Nat} {counts : AnalysisCounts} (hearly : ∀ d ∈ early, d.path = m.path)
    (hmore : ∀ d ∈ more, d.path = m.path) {d : Diagnostic}
    (h : d ∈ (finish m messages early more owners counts).emitted) : d.path = m.path := by
  rcases List.mem_append.mp h with h | h
  · exact (List.mem_append.mp h).elim (hearly d) (hmore d)
  · obtain ⟨x, _, rfl⟩ := List.mem_map.mp h
    rfl

theorem path_analyze {settings : AnalysisSettings} {g : ModuleGraph} {cross : Bool} {m : Module}
    {store : MemoryFiles} {d : Diagnostic}
    (h : d ∈ (settings.analyze (Analyzing.links g m.path) (if cross then some g else none) m
      store).1.emitted) : d.path = m.path := by
  cases hc : m.content with
  | none =>
    unfold analyze at h
    rw [hc] at h
    exact absurd h List.not_mem_nil
  | some c =>
    have hearly : ∀ d ∈ (settings.inspections g cross m).flatMap fun i => i.1.failures ++ i.2,
        d.path = m.path := by
      intro d hd
      obtain ⟨i, hi, hd⟩ := List.mem_flatMap.mp hd
      obtain ⟨x, _, rfl⟩ := List.mem_map.mp hi
      exact path_inspectPart hd
    rw [analyze_eq hc, conclude] at h
    split at h
    · split at h
      · exact hearly d h
      · exact path_finish hearly (by simp [writeDiagnostic]) h
      · exact path_finish hearly (by simp) h
    · exact path_finish hearly (by simp) h

end AnalysisSettings

/-! ### Nothing depends on the arena of a content -/

namespace AnalysisSettings

variable (settings : AnalysisSettings)

theorem analyze_unleased (links : Nat → Table Interface) (graph : Option ModuleGraph) (m : Module)
    (store : MemoryFiles) :
    settings.analyze links graph m store = settings.analyze links graph m.unleased store := by
  obtain ⟨path, entry, composite, body, content⟩ := m
  cases content with
  | none => rfl
  | some c => cases body <;> rfl

theorem written_unleased (g : ModuleGraph) (cross : Bool) (m : Module) :
    settings.written g cross m = settings.written g cross m.unleased := by
  obtain ⟨path, entry, composite, body, content⟩ := m
  cases content with
  | none => rfl
  | some c => cases body <;> rfl

theorem analyze_unmarked (links : Nat → Table Interface) (graph : Option ModuleGraph) (m : Module)
    (store : MemoryFiles) :
    settings.analyze links graph m store = settings.analyze links graph m.unmarked store := by
  obtain ⟨path, entry, composite, body, content⟩ := m
  cases content with
  | none => rfl
  | some c => cases body <;> rfl

theorem written_unmarked (g : ModuleGraph) (cross : Bool) (m : Module) :
    settings.written g cross m = settings.written g cross m.unmarked := by
  obtain ⟨path, entry, composite, body, content⟩ := m
  cases content with
  | none => rfl
  | some c => cases body <;> rfl

/-- What an analysis reports depends on the plans of the store alone. -/
theorem analyze_fst (g : ModuleGraph) (cross : Bool) (m : Module) {store store' : MemoryFiles}
    (hplans : store.plans = store'.plans) :
    (settings.analyze (Analyzing.links g m.path) (if cross then some g else none) m store).1 =
      (settings.analyze (Analyzing.links g m.path) (if cross then some g else none) m
        store').1 := by
  cases hc : m.content with
  | none =>
    unfold analyze
    simp only [hc]
  | some c =>
    rw [analyze_eq hc, analyze_eq hc]
    unfold conclude
    rw [MemoryFiles.attemptWrite_fst hplans rfl]
    split <;> rfl

theorem changed_fixed_nil (text : Bytes) : (fixed text []).changed = false := by
  simp [fixed, proposals, Fix.apply, Fix.tryOrder, Fix.applyFrom, FixResult.changed]

end AnalysisSettings

namespace Module

theorem mem_kept {m : Module} {part : Part} (h : part ∈ m.kept) :
    ∃ parts, m.body = .parts parts ∧ part ∈ parts := by
  unfold kept at h
  split at h
  · rename_i parts _ hbody
    exact ⟨parts, hbody, h⟩
  · cases h

theorem text_of_keeping {m : Module} {keep : Bool} {text : Bytes} {c : Content}
    (hm : m.content = none) (h : (m.keeping keep text).content = some c) : c.text = text := by
  unfold keeping at h
  split at h
  · obtain rfl := Option.some.inj h
    rfl
  · rw [hm] at h
    cases h

end Module

theorem LoadSettings.parse_of_part {σ : Type} [FileStore σ] {loading : LoadSettings} {files : σ}
    {path : Path} {entry composite : Bool} {index : Nat} {segment : Segment} {e : Extract}
    (h : (loading.part files path entry composite index segment).outcome = .ok e) :
    segment.parse = .ok e.script := by
  simp only [part] at h
  split at h
  · cases h
  · rename_i hparse
    obtain rfl := Except.ok.inj h
    exact hparse

namespace Linter

variable (l : Linter) (files : MemoryFiles)

/-- The settings of the analyses of a linter. -/
def analysisSettings : AnalysisSettings := { rules := l.rules, fix := l.options.fix }

/-- What the analysis of a module reports besides what the rules say. -/
def mishaps (m : Module) (result : AnalysisResult) : AnalysisCounts × List Diagnostic :=
  match result.counts with
  | .ok counts => (counts, [])
  | .error mishap =>
    ({ diagnostics := 1 }, [internalDiagnostic m.path ("Analysis failed: " ++ mishap.message)])

/-- The text of a file after something was written to it, or nothing. -/
def textAfter (p : Path) (written : Option Bytes) : Option Bytes :=
  match written with
  | none => files.content p
  | some text => (files.attemptWrite p text).2.content p

/-- The analysis of a path in a graph. -/
def analysis (g : ModuleGraph) (p : Path) : Analysis :=
  let m := l.module files p
  let result := (l.analysisSettings.analyze (Analyzing.links g p)
    (if l.options.crossModule then some g else none) m files).1
  { path := p
    counts := (mishaps m result).1
    emitted := result.emitted ++ (mishaps m result).2
    after := textAfter files p (l.analysisSettings.written g l.options.crossModule m) }

variable {l files}

/-- What an analysis reports is about its module. -/
theorem path_analysis {g : ModuleGraph} {p : Path} {d : Diagnostic}
    (h : d ∈ (l.analysis files g p).emitted) : d.path = p := by
  have hpath : (l.module files p).path = p := l.path_module files p
  have hanalyze := @AnalysisSettings.path_analyze l.analysisSettings g l.options.crossModule
    (l.module files p) files d
  rw [hpath] at hanalyze
  rcases List.mem_append.mp h with h | h
  · exact hanalyze h
  · unfold mishaps at h
    split at h
    · exact absurd h List.not_mem_nil
    · rw [List.mem_singleton.mp h, internalDiagnostic, hpath]

/-- What is analyzed of a module: the segments that its file is cut into, with what they
are read as, and the text of the file. -/
theorem mem_kept_module {p : Path} {part : Part} (h : part ∈ (l.module files p).kept) :
    ∃ form text segments, l.loading.loaders.find? p.extension = some form ∧
      (FileStore.read p files).1 = .ok text ∧ form.split p.extension text = .ok segments ∧
      (∀ c, (l.module files p).content = some c → c.text = text) ∧ part.segment ∈ segments ∧
      ∀ e, part.outcome = .ok e → part.segment.parse = .ok e.script := by
  obtain ⟨parts, hbody, hpart⟩ := Module.mem_kept h
  unfold Linter.module at hbody ⊢
  cases hform : l.loading.loaders.find? p.extension with
  | none => simp [hform, Module.body_keeping] at hbody
  | some form =>
    simp only [hform] at hbody ⊢
    cases hread : (FileStore.read p files).1 with
    | error mishap =>
      cases mishap with
      | brokenOff reason => simp [hread, Closing.brokenModule] at hbody
      | failed e => simp [hread, Module.body_keeping, LoadSettings.ofUnreadable] at hbody
    | ok text =>
      simp only [hread, Module.body_keeping, LoadSettings.ofText] at hbody
      cases hsplit : form.split p.extension text with
      | error f => simp [hsplit] at hbody
      | ok segments =>
        simp only [hsplit, Module.Body.parts.injEq] at hbody
        refine ⟨form, text, segments, rfl, rfl, hsplit, fun c hc => ?_, ?_⟩
        · exact Module.text_of_keeping (LoadSettings.content_ofText _ _ _ _ _ _) hc
        · obtain ⟨x, hx, rfl⟩ := List.mem_map.mp (hbody ▸ hpart)
          exact ⟨List.mem_of_getElem? (List.mem_zipIdx_iff_getElem?.mp hx),
            fun e he => LoadSettings.parse_of_part he⟩

/-- A module whose file was not read has no segments to analyze. -/
theorem kept_of_unread {p : Path} (h : ∀ text, (FileStore.read p files).1 ≠ .ok text) :
    (l.module files p).kept = [] := by
  refine List.eq_nil_iff_forall_not_mem.mpr fun part hpart => ?_
  obtain ⟨_, text, _, _, hread, _⟩ := mem_kept_module hpart
  exact h text hread

/-- Only the text of a file that is there is ever replaced. -/
theorem isFile_of_written {g : ModuleGraph} {cross : Bool} {settings : AnalysisSettings} {p : Path}
    {text : Bytes} (h : settings.written g cross (l.module files p) = some text) :
    FileStore.isFile files p = true := by
  by_contra hfile
  have hunread (text : Bytes) : (FileStore.read p files).1 ≠ .ok text := fun hread =>
    hfile ((MemoryFiles.isFile_iff files p).mpr (MemoryFiles.isSome_of_attemptRead files hread))
  have hnone : settings.inspections g cross (l.module files p) = [] := by
    rw [AnalysisSettings.inspections, kept_of_unread hunread]
    rfl
  unfold AnalysisSettings.written at h
  obtain ⟨c, _, hc⟩ := Option.bind_eq_some_iff.mp h
  rw [hnone] at hc
  simp [AnalysisSettings.changed_fixed_nil] at hc

/-- An analysis counts as written if it has a text to write and succeeds in it. -/
theorem written_analysis {g : ModuleGraph} {p : Path} :
    (l.analysis files g p).counts.written = true ↔
      ∃ text, l.analysisSettings.written g l.options.crossModule (l.module files p) = some text ∧
        (files.attemptWrite p text).1 = .ok () := by
  have hpath : (l.module files p).path = p := l.path_module files p
  have hanalysis : (l.analysis files g p).counts =
      (mishaps (l.module files p) (l.analysisSettings.analyze
        (Analyzing.links g (l.module files p).path)
        (if l.options.crossModule then some g else none) (l.module files p) files).1).1 := by
    rw [hpath]
    rfl
  rw [hanalysis, AnalysisSettings.written]
  cases hc : (l.module files p).content with
  | none =>
    unfold AnalysisSettings.analyze mishaps
    simp [hc]
  | some c =>
    rw [AnalysisSettings.analyze_eq hc, AnalysisSettings.conclude, Option.bind_some, hpath]
    dsimp only
    split
    · simp only [Option.some.injEq, exists_eq_left']
      generalize (files.attemptWrite p _).1 = outcome
      cases outcome with
      | ok _ => simp [mishaps, AnalysisSettings.finish]
      | error mishap => cases mishap <;> simp [mishaps, AnalysisSettings.finish]
    · simp [mishaps, AnalysisSettings.finish]

/-- **An analysis in a run** adds what the analysis of the path reports, and replaces
the text of its own file if that of any. -/
theorem analyzed_eq {m : Module} (hm : m.unleased = l.module files m.path)
    {s : RunState MemoryFiles} (hplans : s.resources.files.plans = files.plans) :
    (Analyzing.analyzed l m s).1 = (l.analysis files s.graph m.path).counts ∧
      (Analyzing.analyzed l m s).2.emitted =
        s.emitted ++ (l.analysis files s.graph m.path).emitted ∧
      (Analyzing.analyzed l m s).2.graph = s.graph ∧
      (Analyzing.analyzed l m s).2.counts = s.counts ∧
      (Analyzing.analyzed l m s).2.stages = s.stages ∧
      (Analyzing.analyzed l m s).2.resources.files =
        match l.analysisSettings.written s.graph l.options.crossModule
          (l.module files m.path) with
        | none => s.resources.files
        | some text => (s.resources.files.attemptWrite m.path text).2 := by
  have hfst : (l.analysisSettings.analyze (Analyzing.links s.graph m.path)
        (if l.options.crossModule then some s.graph else none) m s.resources.files).1 =
      (l.analysisSettings.analyze (Analyzing.links s.graph m.path)
        (if l.options.crossModule then some s.graph else none) (l.module files m.path) files).1 := by
    rw [AnalysisSettings.analyze_fst _ _ _ _ hplans, AnalysisSettings.analyze_unleased, hm]
  have hsnd := @AnalysisSettings.analyze_snd l.analysisSettings s.graph l.options.crossModule m
    s.resources.files
  rw [AnalysisSettings.written_unleased, hm] at hsnd
  have hmishaps (result : AnalysisResult) :
      mishaps m result = mishaps (l.module files m.path) result := by
    unfold mishaps
    rw [path_module]
  have hemitted : (Analyzing.analyzed l m s).2.emitted = s.emitted ++
      ((l.analysisSettings.analyze (Analyzing.links s.graph m.path)
          (if l.options.crossModule then some s.graph else none) m s.resources.files).1.emitted ++
        (mishaps m (l.analysisSettings.analyze (Analyzing.links s.graph m.path)
          (if l.options.crossModule then some s.graph else none) m s.resources.files).1).2) :=
    List.append_assoc _ _ _
  have hcounts : (Analyzing.analyzed l m s).1 =
      (mishaps m (l.analysisSettings.analyze (Analyzing.links s.graph m.path)
        (if l.options.crossModule then some s.graph else none) m s.resources.files).1).1 := rfl
  refine ⟨?_, ?_, rfl, rfl, rfl, hsnd⟩
  · rw [hcounts, hfst, hmishaps]
    rfl
  · rw [hemitted, hfst, hmishaps]
    rfl

theorem textAfter_congr {p q : Path} (h : p.key = q.key) (written : Option Bytes) :
    textAfter files p written = textAfter files q written := by
  have hcontent (m : MemoryFiles) : m.content p = m.content q := by
    rw [MemoryFiles.content_eq, MemoryFiles.find?_congr m h, MemoryFiles.content_eq]
  unfold textAfter
  cases written with
  | none => exact hcontent files
  | some text =>
    have hfst := MemoryFiles.attemptWrite_fst (rfl : files.plans = files.plans) h text
    cases hout : (files.attemptWrite q text).1 with
    | error e =>
      rw [hout] at hfst
      simp only [MemoryFiles.attemptWrite_snd_of_error files hfst,
        MemoryFiles.attemptWrite_snd_of_error files hout, hcontent]
    | ok _ =>
      rw [hout] at hfst
      simp only [MemoryFiles.content_attemptWrite_self files rfl hfst,
        MemoryFiles.content_attemptWrite_self files rfl hout]

/-- **Graphs that show a module what the files say have the same analysis of it**, whether
it is an entry or not. -/
theorem analysis_congr_unmarked {l l' : Linter} (hrules : ∀ r ∈ l.rules, r.rule ∈ Rule.builtin)
    (hsettings : l.analysisSettings = l'.analysisSettings)
    (hcross : l.options.crossModule = l'.options.crossModule)
    (hbody : ∀ p q : Path, p.key = q.key →
      (l.module files p).keyed.body = (l'.module files q).keyed.body)
    {g g' : ModuleGraph} {p p' : Path} (h : g.Shows l files p) (h' : g'.Shows l' files p')
    (hm : (l.module files p).unmarked.keyed = (l'.module files p').unmarked.keyed) :
    (l.analysis files g p).keyed = (l'.analysis files g' p').keyed := by
  have hp : (l.module files p).path = p := l.path_module files p
  have hp' : (l'.module files p').path = p' := l'.path_module files p'
  have hpu : (l.module files p).unmarked.path = p := hp
  have hpu' : (l'.module files p').unmarked.path = p' := hp'
  have hpath : p.key = p'.key := by
    have hkey : (l.module files p).path.key = (l'.module files p').path.key :=
      congrArg Module.Keyed.key hm
    rwa [hp, hp'] at hkey
  have hshows : g.Shows l files (l.module files p).unmarked.path := hpu.symm ▸ h
  have hshows' : g'.Shows l' files (l'.module files p').unmarked.path := hpu'.symm ▸ h'
  have hrules' : ∀ r ∈ l.analysisSettings.rules, r.rule ∈ Rule.builtin := hrules
  have hanalyze := AnalysisSettings.analyze_congr hrules' hbody hshows hshows' hm
    l.options.crossModule (rfl : files.plans = files.plans)
  have hwritten := AnalysisSettings.written_congr hrules' hbody hshows hshows' hm
    l.options.crossModule
  rw [hpu, hpu', ← AnalysisSettings.analyze_unmarked, ← AnalysisSettings.analyze_unmarked]
    at hanalyze
  rw [← AnalysisSettings.written_unmarked, ← AnalysisSettings.written_unmarked] at hwritten
  obtain ⟨hemitted, hcounts⟩ := hanalyze
  have hmishaps (result result' : AnalysisResult) (hr : result.counts = result'.counts) :
      (mishaps (l.module files p) result).1 = (mishaps (l'.module files p') result').1 ∧
        (mishaps (l.module files p) result).2.map Diagnostic.keyed =
          (mishaps (l'.module files p') result').2.map Diagnostic.keyed := by
    unfold mishaps
    rw [hr, hp, hp']
    cases result'.counts with
    | ok counts => exact ⟨rfl, rfl⟩
    | error mishap => simp [internalDiagnostic, Diagnostic.keyed, hpath]
  obtain ⟨hmcounts, hmore⟩ := hmishaps _ _ hcounts
  unfold analysis Analysis.keyed
  simp only [← hsettings, ← hcross, List.map_append, hemitted, hmcounts, hmore, hwritten, hpath,
    textAfter_congr hpath]

theorem analysis_congr {l l' : Linter} (hrules : ∀ r ∈ l.rules, r.rule ∈ Rule.builtin)
    (hsettings : l.analysisSettings = l'.analysisSettings)
    (hcross : l.options.crossModule = l'.options.crossModule)
    (hbody : ∀ p q : Path, p.key = q.key →
      (l.module files p).keyed.body = (l'.module files q).keyed.body)
    {g g' : ModuleGraph} {p p' : Path} (h : g.Shows l files p) (h' : g'.Shows l' files p')
    (hm : (l.module files p).keyed = (l'.module files p').keyed) :
    (l.analysis files g p).keyed = (l'.analysis files g' p').keyed :=
  analysis_congr_unmarked hrules hsettings hcross hbody h h' (Module.unmarked_congr hm)

end Linter

end ScriptLint
