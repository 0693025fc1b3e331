/-
Composite files, segment by segment.

A file with several segments is told about each of them what the script alone is told, at the
place of the segment: faults and messages are moved by its offset and get its number, and
nothing else changes.  In particular nothing is reported outside of the segment.

* **`LoadSettings.alone`** — the module of a segment as a file of its own;
* **`LintsAsAlone`** — a segment of a module is linted as the script alone;
* **`LoadSettings.lints_as_alone`** — every segment of a composite file is.
-/
import ScriptLint.Proofs.Findings

namespace ScriptLint

/-! ### Modules and their segments -/

/-- The module with its text for its analysis. -/
def Module.holding (m : Module) (lease : Arena.Lease) (text : Bytes) : Module :=
  { m with content := some ⟨lease, text⟩ }

/-- The module of a segment that is a file of its own. -/
def LoadSettings.alone {σ : Type} [FileStore σ] (s : LoadSettings) (files : σ) (path : Path)
    (entry : Bool) (segment : Segment) : Module where
  path := path
  entry := entry
  body := .parts [s.part files path entry false 0 segment.atStart]

/-- A script file is loaded as its only segment. -/
theorem LoadSettings.ofText_script {σ : Type} [FileStore σ] {s : LoadSettings} {files : σ}
    {path : Path} {entry : Bool} {segment : Segment}
    (hdialect : Dialect.ofExtension? path.extension = some segment.dialect) :
    s.ofText files path entry .script segment.text = s.alone files path entry segment := by
  simp [ofText, FileForm.split, Segment.ofScript, hdialect, isWhole, alone, Segment.atStart]

/-- What is wrong with a part. -/
def Part.faults (part : Part) : List Diagnostic :=
  match part.outcome with
  | .error d => [d]
  | .ok _ => []

theorem Module.diagnostics_of_parts {m : Module} {parts : List Part}
    (hbody : m.body = .parts parts) : m.diagnostics = parts.flatMap Part.faults := by
  rw [diagnostics, records, hbody]
  simp only [List.filterMap_eq_flatMap_toList, List.flatMap_map]
  refine List.flatMap_congr fun part _ => ?_
  unfold Part.faults
  cases hpart : part.outcome <;> simp

/-! ### Composite files -/

/-- A segment of a module is linted as the module that the script alone is: it has the same
tree or the same fault, and the same is said about it, at the place of the segment and inside
of it. -/
structure LintsAsAlone {σ : Type} [FileStore σ] (settings : AnalysisSettings)
    (links links' : Nat → Table Interface) (graph : Option ModuleGraph) (m alone : Module)
    (files files' : σ) (segment : Segment) (index : Nat) : Prop where
  parse : segment.parse = segment.atStart.parse.mapError (Failure.shifted segment.offset)
  faults : Diagnostic.ofSegment index m.diagnostics =
    alone.diagnostics.map (Diagnostic.moved segment.offset index)
  findings : Diagnostic.ofSegment index (settings.findings links graph m) =
    (settings.findings links' graph alone).map (Diagnostic.moved segment.offset index)
  /-- Without fixing, or if no fix can be written, all findings are reported. -/
  unwritten : (settings.fix = true → FileStore.Refuses files m.path ∧
      FileStore.Refuses files' alone.path) →
    Diagnostic.ofSegment index
        (Diagnostic.known (settings.analyze links graph m files).1.emitted) =
      (Diagnostic.known (settings.analyze links' graph alone files').1.emitted).map
        (Diagnostic.moved segment.offset index)
  /-- With fixing, the same findings are left when the fixes have been written. -/
  written : settings.fix = true → (∀ setting ∈ settings.rules, setting.rule ∈ Rule.builtin) →
    FileStore.Accepts files m.path → FileStore.Accepts files' alone.path →
    Diagnostic.ofSegment index
        (Diagnostic.known (settings.analyze links graph m files).1.emitted) =
      (Diagnostic.known (settings.analyze links' graph alone files').1.emitted).map
        (Diagnostic.moved segment.offset index)
  /-- In any case nothing but findings is reported. -/
  reported : (Diagnostic.known (settings.analyze links graph m files).1.emitted).Sublist
    (settings.findings links graph m)
  inside : ∀ d ∈ Diagnostic.ofSegment index (m.diagnostics ++ settings.findings links graph m),
    d.LiesIn segment
  /-- The places in the record of the segment are found again after the move into it. -/
  record : ∀ e, m.records[index]? = some (.ok e) → e.interface.RoundTrips segment

namespace LoadSettings

variable {σ : Type} [FileStore σ] {s : LoadSettings} {files : σ} {path : Path} {entry : Bool}
  {form : FileForm} {text : Bytes} {segments : List Segment} {segment : Segment} {index : Nat}

/-- The parts of a composite file are its segments. -/
theorem body_of_composite (hsplit : form.split path.extension text = .ok segments)
    (hcomposite : (s.ofText files path entry form text).composite = true) :
    (s.ofText files path entry form text).body =
      .parts (segments.zipIdx.map fun x => s.part files path entry true x.2 x.1) := by
  simp only [ofText, hsplit] at hcomposite ⊢
  rw [hcomposite]

/-- The fault of a segment is that of the script alone, at the place of the segment. -/
theorem faults_part :
    (s.part files path entry true index segment).faults =
      (s.part files path entry false 0 segment.atStart).faults.map
        (Diagnostic.moved segment.offset index) := by
  unfold Part.faults
  cases hparse : segment.parse with
  | error f =>
    obtain ⟨own, hparse', rfl⟩ := Segment.parse_atStart_error hparse
    simp only [outcome_of_error hparse, outcome_of_error hparse']
    rfl
  | ok script =>
    simp only [outcome_of_ok hparse, outcome_of_ok (Segment.parse_atStart hparse)]
    rfl

theorem segment_of_mem_faults {d : Diagnostic}
    (h : d ∈ (s.part files path entry true index segment).faults) : d.segment = some index := by
  unfold Part.faults at h
  cases hparse : segment.parse with
  | error f =>
    simp only [outcome_of_error hparse, List.mem_singleton] at h
    rw [h]
    rfl
  | ok script => simp [outcome_of_ok hparse] at h

/-- The fault of a segment lies inside of it. -/
theorem within_faults (hfits : segment.Fits) :
    ∀ d ∈ (s.part files path entry true index segment).faults, d.LiesIn segment := by
  intro d hd
  unfold Part.faults at hd
  cases hparse : segment.parse with
  | error f =>
    simp only [outcome_of_error hparse, List.mem_singleton] at hd
    unfold Segment.parse at hparse
    split at hparse
    · cases hparse
    · rename_i own hown
      cases hparse
      rw [hd]
      exact ⟨_, rfl, (Script.within_of_parse hfits.length hown).shifted hfits⟩
  | ok script => simp [outcome_of_ok hparse] at hd

/-- The places in the record of a segment are found again after the move into it. -/
theorem roundTrips_part {e : Extract} (hfits : segment.Fits)
    (he : (s.part files path entry true index segment).outcome = .ok e) :
    e.interface.RoundTrips segment := by
  cases hparse : segment.parse with
  | error f => simp [outcome_of_error hparse] at he
  | ok script =>
    rw [outcome_of_ok hparse] at he
    obtain rfl := Except.ok.inj he
    exact roundTrips_interfaceOf hfits hparse index

/-! ### Modules -/

/-- The module of a script alone is cut from the script. -/
theorem cutFrom_alone {m : Module} {content : Module.Content}
    (hbody : m.body = .parts [s.part files path entry false 0 segment.atStart])
    (hcontent : m.content = some content) : m.CutFrom segment.text := by
  have hkept : m.kept = [s.part files path entry false 0 segment.atStart] := by
    simp only [Module.kept, hcontent, hbody]
  have hlies : segment.atStart.LiesIn segment.text :=
    ⟨by simp [Segment.atStart], by simp [Segment.atStart, Bytes.slice]⟩
  refine ⟨?_, fun part hpart e he => ?_⟩
  · rw [hkept]
    refine ⟨?_, List.pairwise_singleton _ _⟩
    exact List.forall_mem_singleton.mpr ⟨hlies, Nat.zero_le _⟩
  · rw [hkept] at hpart
    obtain rfl := List.mem_singleton.mp hpart
    exact parse_of_part he

section

variable {m : Module}
  (hbody : m.body = .parts (segments.zipIdx.map fun x => s.part files path entry true x.2 x.1))
include hbody

theorem kept_of_body {content : Module.Content} (hcontent : m.content = some content) :
    m.kept = segments.zipIdx.map fun x => s.part files path entry true x.2 x.1 := by
  simp only [Module.kept, hcontent, hbody]

theorem cutFrom_of_body {content : Module.Content} (hcontent : m.content = some content)
    (hlaid : LaidFrom text 0 segments) : m.CutFrom text := by
  have hsegments : m.kept.map Part.segment = segments := by
    rw [kept_of_body hbody hcontent, List.map_map]
    exact List.zipIdx_map_fst 0 segments
  refine ⟨hsegments ▸ hlaid, fun part hpart e he => ?_⟩
  rw [kept_of_body hbody hcontent] at hpart
  obtain ⟨x, _, rfl⟩ := List.mem_map.mp hpart
  exact parse_of_part he

section

variable (hsegment : segments[index]? = some segment)
include hsegment

theorem records_of_body :
    m.records[index]? = some (s.part files path entry true index segment).outcome := by
  simp [Module.records, hbody, hsegment]

theorem kept_getElem? {content : Module.Content} (hcontent : m.content = some content) :
    m.kept[index]? = some (s.part files path entry true index segment) := by
  simp [kept_of_body hbody hcontent, hsegment]

/-- The fault of a segment, among those of a composite module. -/
theorem ofSegment_diagnostics :
    Diagnostic.ofSegment index m.diagnostics =
      (s.part files path entry true index segment).faults := by
  rw [Module.diagnostics_of_parts hbody, List.flatMap_map]
  exact Diagnostic.ofSegment_flatMap hsegment fun x d hd => segment_of_mem_faults hd

/-- A module with the parts of a composite file, and one with a segment of it alone. -/
theorem lints_of_body {settings : AnalysisSettings} {links links' : Nat → Table Interface}
    {graph : Option ModuleGraph} {alone : Module} {content content' : Module.Content}
    {store store' : σ} (hlaid : LaidFrom content.text 0 segments)
    (hlength : content.text.length < 2 ^ 32) (hknown : settings.rules.Genuine)
    (hparts : alone.body = .parts [s.part files path entry false 0 segment.atStart])
    (hcontent : m.content = some content) (hcontent' : alone.content = some content')
    (htext : content'.text = segment.text) (hpath : m.path = alone.path)
    (hcomposite : m.composite = true) (hlinks : links index = links' 0) :
    LintsAsAlone settings links links' graph m alone store store' segment index := by
  have hinside := (hlaid.liesIn segment (List.mem_of_getElem? hsegment)).1.inside
  have hfits : segment.Fits := Nat.lt_of_le_of_lt hinside hlength
  have hpart := kept_getElem? hbody hsegment hcontent
  have hkept : alone.kept = [s.part files path entry false 0 segment.atStart] := by
    simp only [Module.kept, hcontent', hparts]
  have hfaults := ofSegment_diagnostics hbody hsegment
  have hown : Diagnostic.ofSegment index (settings.findings links graph m) =
      settings.findingsOf links graph m index (s.part files path entry true index segment) := by
    rw [AnalysisSettings.findings_eq]
    exact Diagnostic.ofSegment_flatMap hpart fun x =>
      AnalysisSettings.segment_findingsOf hcomposite
  have hfindings : Diagnostic.ofSegment index (settings.findings links graph m) =
      (settings.findings links' graph alone).map (Diagnostic.moved segment.offset index) := by
    rw [hown, AnalysisSettings.findings_eq, hkept]
    exact (AnalysisSettings.findingsOf_eq hknown hfits hpath hcomposite hlinks).trans
      (congrArg _ (List.flatMap_singleton ..).symm)
  refine ⟨segment.parse_eq, ?_, hfindings, fun hwrite => ?_, fun hfix hrules hwrite hwrite' => ?_,
    AnalysisSettings.known_analyze_sublist hcontent store, fun d hd => ?_, fun e he => ?_⟩
  · rw [hfaults, Module.diagnostics_of_parts hparts, List.flatMap_singleton]
    exact faults_part
  · rw [AnalysisSettings.known_unwritten hcontent fun hfix => (hwrite hfix).1,
      AnalysisSettings.known_unwritten hcontent' fun hfix => (hwrite hfix).2]
    exact hfindings
  · have hcut := cutFrom_of_body hbody hcontent hlaid
    have hcut' := cutFrom_alone hparts hcontent'
    rw [← htext] at hcut'
    rw [AnalysisSettings.known_written hcontent hfix hrules hcut hlength hwrite,
      AnalysisSettings.known_written hcontent' hfix hrules hcut' (htext ▸ hfits.length) hwrite',
      hkept]
    refine (Diagnostic.ofSegment_flatMap hpart fun x d hd => ?_).trans ?_
    · exact AnalysisSettings.segment_findingsOf hcomposite d
        (AnalysisSettings.remainingOf_sublist.subset hd)
    · exact (AnalysisSettings.remainingOf_eq hrules hfits hpath hcomposite hlinks).trans
        (congrArg _ (List.flatMap_singleton ..).symm)
  · have hd : d ∈ Diagnostic.ofSegment index m.diagnostics ∨
        d ∈ Diagnostic.ofSegment index (settings.findings links graph m) := by
      rwa [Diagnostic.ofSegment, List.filter_append, List.mem_append] at hd
    rw [hfaults, hown] at hd
    exact hd.elim (within_faults hfits d) (AnalysisSettings.within_findingsOf hknown hfits d)
  · rw [records_of_body hbody hsegment] at he
    exact roundTrips_part hfits (Option.some.inj he)

end

end

/-- **Composite and plain linting agree.**  Every segment of a composite file whose offsets fit
into spans is linted as the script alone, if the same interfaces are known to both and the same
graph: the tree or the fault is the same, and so is what the known rules say, at the place of the
segment and never outside of it.  With fixing on, the same is left of that when the fixes of the
file have been written, if only known rules could propose some. -/
theorem lints_as_alone {settings : AnalysisSettings} {links links' : Nat → Table Interface}
    {graph : Option ModuleGraph} {lease lease' : Arena.Lease} {store store' : σ}
    (hknown : settings.rules.Genuine) (hlength : text.length < 2 ^ 32)
    (hsplit : form.split path.extension text = .ok segments)
    (hcomposite : (s.ofText files path entry form text).composite = true)
    (hsegment : segments[index]? = some segment) (hlinks : links index = links' 0) :
    LintsAsAlone settings links links' graph
      ((s.ofText files path entry form text).holding lease text)
      ((s.alone files path entry segment).holding lease' segment.text) store store' segment
      index := by
  have hlaid := FileForm.laid_split hlength hsplit
  have hbody : ((s.ofText files path entry form text).holding lease text).body = _ :=
    body_of_composite hsplit hcomposite
  have hparts : ((s.alone files path entry segment).holding lease' segment.text).body = _ := rfl
  have hpath : ((s.ofText files path entry form text).holding lease text).path = path :=
    s.path_ofText files path entry form text
  exact lints_of_body hbody hsegment hlaid hlength hknown hparts rfl rfl rfl hpath hcomposite
    hlinks

end LoadSettings

/-! ### A file with two scripts -/

namespace TwoScripts

/-- The second script, in which each rule has something to report. -/
def second : Bytes :=
  "\nimport \x7b y \x7d from './b.js';\nimport './a.vue';\nimport './a.vue';\ndebugger;\n"

/-- A file with two scripts.  In the first one a bracket is open. -/
def text : Bytes :=
  "<script>\nf(;\n</script>\n<script lang=\"ts\">" ++ second ++ "</script>\n"

/-- All rules that are known, as errors, with fixing. -/
def settings : AnalysisSettings where
  rules := Rule.builtin.map fun rule => ⟨rule, .error⟩
  fix := true

/-- The other module exports one name, which is not imported. -/
def links : Nat → Table Interface := fun _ =>
  [("./a.vue", { path := ⟨"/a.vue"⟩, segment := 0 }),
    ("./b.js", { path := ⟨"/b.js"⟩, segment := 0, exports := ["z"] })]

/-- The other module imports the file. -/
def graph : ModuleGraph := ModuleGraph.empty.addEdge ⟨"/b.js"⟩ "./a.vue" ⟨"/a.vue"⟩

/-- Script files and markup files, and no resolver. -/
def loading : LoadSettings := { loaders := .standard, resolver := none }

/-- The module of the file. -/
def module : Module :=
  (loading.ofText MemoryFiles.empty ⟨"/a.vue"⟩ true .markup text).holding default text

/-- The module of a segment of the file alone. -/
def alone (segment : Segment) : Module :=
  (loading.alone MemoryFiles.empty ⟨"/a.vue"⟩ true segment).holding default segment.text

/-- Both scripts are linted as they are alone.  The fault of the first one is at its bracket in
the file, and what the rules say about the second one is said at places behind it.  The fix of
the `debugger` is written, and everything else is reported. -/
theorem lints_as_alone_both :
    ∃ first second : Segment, FileForm.markup.split ".vue" text = .ok [first, second] ∧
      LintsAsAlone settings links links (some graph) module (alone first)
        MemoryFiles.empty MemoryFiles.empty first 0 ∧
      LintsAsAlone settings links links (some graph) module (alone second)
        MemoryFiles.empty MemoryFiles.empty second 1 ∧
      (module.diagnostics.map fun d => (d.segment, d.span)) = [(some 0, some ⟨10, 11⟩)] ∧
      ((settings.findings links (some graph) module).map fun d => (d.code, d.segment, d.span)) =
        ([("no-debugger", some 1, some ⟨106, 115⟩),
          ("no-duplicate-imports", some 1, some ⟨95, 104⟩),
          ("no-unused-imports", some 1, some ⟨51, 52⟩),
          ("no-self-import", some 1, some ⟨77, 86⟩), ("no-self-import", some 1, some ⟨95, 104⟩),
          ("import/no-cycle", some 1, some ⟨60, 68⟩), ("import/named", some 1, some ⟨51, 52⟩)] :
            List (Bytes × Option Nat × Option Span)) ∧
      FileStore.Accepts MemoryFiles.empty ⟨"/a.vue"⟩ ∧
      (settings.analyze links (some graph) module MemoryFiles.empty).1.emitted =
        (settings.findings links (some graph) module).tail := by
  have hknown : settings.rules.Genuine := by
    intro setting hsetting _
    obtain ⟨rule, hrule, rfl⟩ := List.mem_map.mp hsetting
    exact hrule
  have hlength : List.length text < 2 ^ 32 := by decide +kernel
  have hsplit : FileForm.markup.split ".vue" text =
      .ok [⟨"\nf(;\n", 8, ⟨false, false⟩⟩, ⟨second, 41, ⟨true, false⟩⟩] := by decide +kernel
  have hcomposite : (loading.ofText MemoryFiles.empty ⟨"/a.vue"⟩ true .markup text).composite =
      true := by decide +kernel
  exact ⟨_, _, hsplit, LoadSettings.lints_as_alone hknown hlength hsplit hcomposite rfl rfl,
    LoadSettings.lints_as_alone hknown hlength hsplit hcomposite rfl rfl, by decide +kernel,
    by decide +kernel, fun _ => rfl, by decide +kernel⟩

end TwoScripts

end ScriptLint
