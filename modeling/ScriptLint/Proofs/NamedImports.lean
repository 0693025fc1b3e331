/-
Imports of names that are not exported.

A module stands for its importers as one record, that of its last segment.  So `import/named`
is exact about that segment: it finds the imports whose specifier resolves to a module that
could be read as a whole and whose last segment exports something, but not the name and not
everything of another module.  About the segments before the last one nothing follows.

* **`Linter.Lacks`** — the last segment of a module does not export a name;
* **`ModuleGraph.Shows.isMissing_iff`** — the imports that the rule finds;
* **`LintSession.run_finds_missing_names`** — they are what a run reports of it.
-/
import ScriptLint.Proofs.Cycles

namespace ScriptLint

/-- A module failed if something is wrong with one of its segments. -/
theorem Module.failed_eq_false {m : Module} :
    m.failed = false ↔ ∀ record ∈ m.records, ∃ e, record = .ok e := by
  rw [Module.failed, Bool.not_eq_false', List.isEmpty_iff, Module.diagnostics,
    List.filterMap_eq_nil_iff]
  refine forall₂_congr fun record _ => ?_
  cases record <;> simp

namespace Linter

variable (l : Linter) (files : MemoryFiles)

/-! ### What the importers of a module see -/

/-- A module lacks a name.  All of its segments could be read, and the last one, which is the one
that importers see, exports something, but neither the name nor everything of another module. -/
def Lacks (t : Path) (name : Bytes) : Prop :=
  ∃ earlier last script, l.Cut files t (earlier ++ [last]) ∧
    (∀ segment ∈ earlier, ∃ script, segment.parse = .ok script) ∧ last.parse = .ok script ∧
    (l.entries.contains t || l.loading.extractDependencies) = true ∧
    (Interface.ofScript t earlier.length last.offset script).exportsAll = false ∧
    (Interface.ofScript t earlier.length last.offset script).exports ≠ [] ∧
    (Interface.ofScript t earlier.length last.offset script).exportsName name = false

/-- An import asks for a name that the module it resolves to lacks. -/
structure Misses (p : Path) (entry : ImportedName) : Prop where
  values : entry.typeOnly = false
  named : entry.outer ≠ "default" ∧ entry.outer ≠ "*"
  lacks : ∃ t, l.Resolves files p entry.specifier t ∧ l.Lacks files t entry.outer

variable {l files} {p t : Path} {segments earlier : List Segment} {last : Segment}

/-- A file that was cut failed if one of its segments cannot be read. -/
theorem failed_eq_false_iff (hcut : l.Cut files t segments) : (l.module files t).failed = false ↔
    ∀ segment ∈ segments, ∃ script, segment.parse = .ok script := by
  obtain ⟨composite, hrecords⟩ := l.records_of_cut files hcut
  have hpart (x : Segment × Nat) : (∃ e, (l.loading.part files t (l.entries.contains t) composite
      x.2 x.1).outcome = .ok e) ↔ ∃ script, x.1.parse = .ok script := by
    unfold LoadSettings.part
    cases x.1.parse <;> simp
  rw [Module.failed_eq_false, hrecords, List.forall_mem_map]
  constructor
  · intro h segment hsegment
    obtain ⟨n, hn⟩ := List.mem_iff_getElem?.mp hsegment
    exact (hpart _).mp (h (segment, n) (List.mk_mem_zipIdx_iff_getElem?.mpr hn))
  · intro h x hx
    exact (hpart _).mpr (h x.1 (List.fst_mem_of_mem_zipIdx hx))

/-- The interface that a module takes from a script. -/
def interfaceOf (l : Linter) (p : Path) (index : Nat) (segment : Segment) (script : Script) :
    Interface :=
  if l.entries.contains p || l.loading.extractDependencies then
    .ofScript p index segment.offset script
  else { path := p, segment := index }

/-- The last interface of a file is that of the last segment, if this one can be read. -/
theorem getLast?_interfaces (hcut : l.Cut files t (earlier ++ [last])) {script : Script}
    (hlast : last.parse = .ok script) :
    (l.module files t).interfaces.getLast? = some (l.interfaceOf t earlier.length last script) := by
  obtain ⟨composite, hrecords⟩ := l.records_of_cut files hcut
  have houtcome : recordInterface? (l.loading.part files t (l.entries.contains t) composite
      earlier.length last).outcome = some (l.interfaceOf t earlier.length last script) := by
    simp only [LoadSettings.part, hlast]
    rfl
  rw [Module.interfaces, hrecords, List.zipIdx_append, List.map_append, List.filterMap_append,
    Nat.zero_add, List.zipIdx_singleton, List.map_singleton, List.filterMap_cons_some houtcome,
    List.filterMap_nil, List.getLast?_concat]

/-- A module that shows an interface, and did not fail, was cut into some segments. -/
theorem exists_cut {i : Interface} (hlast : (l.module files t).interfaces.getLast? = some i)
    (hintact : (l.module files t).failed = false) :
    ∃ earlier last, l.Cut files t (earlier ++ [last]) := by
  have hmem := List.mem_of_getLast? hlast
  rcases l.records_module files t with hnone | ⟨d, herror, _⟩ | ⟨segments, composite, hcut, hrecords⟩
  · rw [Module.interfaces, hnone] at hmem
    exact absurd hmem List.not_mem_nil
  · rw [Module.failed, Module.diagnostics, herror] at hintact
    exact absurd hintact (by simp)
  · have hne : segments ≠ [] := by
      rintro rfl
      rw [Module.interfaces, hrecords] at hmem
      exact absurd hmem List.not_mem_nil
    refine ⟨segments.dropLast, segments.getLast hne, ?_⟩
    rwa [List.dropLast_append_getLast]

/-- **What a module lacks** is told by the interface that its importers see. -/
theorem lacks_iff {name : Bytes} : l.Lacks files t name ↔ (l.module files t).failed = false ∧
    ∃ i, (l.module files t).interfaces.getLast? = some i ∧ i.exportsAll = false ∧
      i.exports ≠ [] ∧ i.exportsName name = false := by
  constructor
  · rintro ⟨earlier, last, script, hcut, hearlier, hlast, hknown, hlacks⟩
    have hall : ∀ segment ∈ earlier ++ [last], ∃ script, segment.parse = .ok script :=
      List.forall_mem_append.mpr ⟨hearlier, List.forall_mem_singleton.mpr ⟨script, hlast⟩⟩
    refine ⟨(failed_eq_false_iff hcut).mpr hall, _, getLast?_interfaces hcut hlast, ?_⟩
    rwa [interfaceOf, if_pos hknown]
  · rintro ⟨hintact, i, hi, hlacks⟩
    obtain ⟨earlier, last, hcut⟩ := exists_cut hi hintact
    obtain ⟨hearlier, hlast⟩ := List.forall_mem_append.mp ((failed_eq_false_iff hcut).mp hintact)
    obtain ⟨script, hlast⟩ := List.forall_mem_singleton.mp hlast
    obtain rfl := Option.some.inj ((getLast?_interfaces hcut hlast).symm.trans hi)
    unfold interfaceOf at hlacks
    split at hlacks
    case isTrue hknown => exact ⟨earlier, last, script, hcut, hearlier, hlast, hknown, hlacks⟩
    case isFalse => exact absurd rfl hlacks.2.1

/-- What is imported is requested. -/
theorem mem_requests_of_mem_imports {i : Interface} (hi : i ∈ (l.module files p).interfaces)
    {entry : ImportedName} (hentry : entry ∈ i.imports) :
    entry.specifier ∈ i.requests.map Request.specifier := by
  have himported {offset : UInt32} {s : Statement} (h : entry ∈ Interface.importsOf offset s) :
      ∃ r, Interface.requestOf offset s = some r ∧ r.specifier = entry.specifier := by
    unfold Interface.importsOf at h
    split at h
    case h_1 source hkind hsource =>
      obtain ⟨b, _, rfl⟩ := List.mem_map.mp h
      exact ⟨_, by rw [Interface.requestOf, hkind, hsource], rfl⟩
    case h_2 => exact absurd h List.not_mem_nil
  obtain ⟨o, ho, hinterface⟩ := List.mem_filterMap.mp hi
  cases o with
  | error d => simp [recordInterface?] at hinterface
  | ok e =>
    obtain ⟨_, _, _, _, _, _, _, rfl⟩ := l.extract_module files ho
    obtain rfl := Option.some.inj hinterface
    dsimp only at hentry ⊢
    split at hentry
    case isTrue hknown =>
      rw [if_pos hknown]
      obtain ⟨s, hs, hentry⟩ := List.mem_flatMap.mp hentry
      obtain ⟨r, hr, hspecifier⟩ := himported hentry
      exact hspecifier ▸ List.mem_map_of_mem (List.mem_filterMap.mpr ⟨s, hs, hr⟩)
    case isFalse => exact absurd hentry List.not_mem_nil

end Linter

/-! ### What the rule finds -/

namespace ModuleGraph.Shows

variable {l : Linter} {files : MemoryFiles} {g : ModuleGraph} {p : Path}

/-- **The imports that the rule finds**, in a graph that shows the module what the files say, are
those of names which the other module lacks. -/
theorem isMissing_iff (h : g.Shows l files p) {i : Interface}
    (hi : i ∈ (l.module files p).interfaces) {entry : ImportedName} (hentry : entry ∈ i.imports) :
    Rule.isMissing ⟨i, Analyzing.links g p i.segment⟩ g entry = true ↔
      l.Misses files p entry := by
  have hrequested := Linter.mem_requests_of_mem_imports hi hentry
  have htarget : (Table.find? entry.specifier (Analyzing.links g p i.segment)).map
      Interface.keyed = ((l.module files p).target? entry.specifier).bind (l.shown files) := by
    rw [← Table.find?_map, h.links]
    exact Linter.find?_links hi hrequested
  have hresolves {t : Path} := @Linter.target?_eq_some_iff l files p i hi _ hrequested t
  unfold Rule.isMissing Rule.target?
  cases hfind : Table.find? entry.specifier (Analyzing.links g p i.segment) with
  | none =>
    rw [hfind] at htarget
    refine iff_of_false (by simp) fun hmisses => ?_
    -- a module that lacks a name shows an interface
    obtain ⟨t, ht, hlacks⟩ := hmisses.lacks
    obtain ⟨_, k, hk, _⟩ := Linter.lacks_iff.mp hlacks
    rw [hresolves.mpr ht, Option.bind_some, Linter.shown, List.getLast?_map, hk] at htarget
    cases htarget
  | some j =>
    rw [hfind, Option.map_some] at htarget
    obtain ⟨t, ht, hshown⟩ := Option.bind_eq_some_iff.mp htarget.symm
    rw [Linter.shown, List.getLast?_map] at hshown
    obtain ⟨k, hk, hkeyed⟩ := Option.map_eq_some_iff.mp hshown
    obtain ⟨hpath, hrest⟩ := Prod.ext_iff.mp hkeyed
    have hrest : ({ k with path := ⟨[]⟩ } : Interface) = { j with path := ⟨[]⟩ } := hrest
    have hall : k.exportsAll = j.exportsAll := by simpa using congrArg Interface.exportsAll hrest
    have hexports : k.exports = j.exports := by simpa using congrArg Interface.exports hrest
    have hkey : j.path.key = t.key := by
      rw [← l.path_interface files (List.mem_of_getLast? hk)]
      exact hpath.symm
    have hfailed : (g.find? j.path).any Node.failed = (l.module files t).failed := by
      rw [any_failed, hkey, h.failed t (Module.target?_mem ht)]
    have hlacks (name : Bytes) : l.Lacks files t name ↔ (l.module files t).failed = false ∧
        j.exportsAll = false ∧ j.exports ≠ [] ∧ j.exportsName name = false := by
      rw [Linter.lacks_iff]
      simp only [hk, Option.some.injEq, exists_eq_left', Interface.exportsName, hall, hexports]
    simp only [Option.any_some, hfailed, Bool.and_eq_true, Bool.not_eq_true', bne_iff_ne,
      List.isEmpty_eq_false_iff]
    constructor
    · rintro ⟨⟨⟨hvalues, hdefault⟩, hstar⟩, ⟨⟨hintact, hall⟩, hexports⟩, hname⟩
      exact ⟨hvalues, ⟨hdefault, hstar⟩, t, hresolves.mp ht,
        (hlacks _).mpr ⟨hintact, hall, hexports, hname⟩⟩
    · rintro ⟨hvalues, ⟨hdefault, hstar⟩, t', ht', hmisses⟩
      obtain rfl : t = t' := (hresolves.mp ht).unique ht'
      obtain ⟨hintact, hall, hexports, hname⟩ := (hlacks _).mp hmisses
      exact ⟨⟨⟨hvalues, hdefault⟩, hstar⟩, ⟨⟨hintact, hall⟩, hexports⟩, hname⟩

end ModuleGraph.Shows

/-! ### What an analysis says -/

namespace AnalysisSettings

variable {σ : Type} [FileStore σ] {settings : AnalysisSettings} {links : Nat → Table Interface}
  {graph : Option ModuleGraph} {m : Module}

/-- What an analysis reports is one of its messages, unless it is about failures. -/
theorem message_of_mem_analyze {files : σ} {d : Diagnostic}
    (hd : d ∈ (settings.analyze links graph m files).1.emitted)
    (hcode : d.code ∉ [Code.disk, Code.resolve, Code.ruleFailure]) :
    ∃ message ∈ settings.messages links graph m, d = message.diagnostic m := by
  have hearly : d ∉ settings.early links graph m := by
    intro hearly
    rcases code_early hearly with h | h <;> simp [h] at hcode
  have hfinish {more : List Diagnostic} {owners : List Nat} {counts : AnalysisCounts}
      (hmore : d ∉ more) (h : d ∈ (finish m (settings.messages links graph m)
        (settings.early links graph m) more owners counts).emitted) :
      ∃ message ∈ settings.messages links graph m, d = message.diagnostic m := by
    have hreport := (List.mem_append.mp h).resolve_left fun h =>
      (List.mem_append.mp h).elim hearly hmore
    obtain ⟨message, hmessage, heq⟩ := List.mem_map.mp ((report_sublist m _ owners).subset hreport)
    exact ⟨message, hmessage, heq.symm⟩
  cases hcontent : m.content with
  | none =>
    unfold analyze at hd
    rw [hcontent] at hd
    exact absurd hd List.not_mem_nil
  | some content =>
    rw [analyze_content hcontent] at hd
    dsimp only at hd
    split at hd
    · split at hd
      · exact absurd hd hearly
      · refine hfinish (fun hmem => ?_) hd
        rw [List.mem_singleton.mp hmem] at hcode
        simp [writeDiagnostic] at hcode
      · exact hfinish List.not_mem_nil hd
    · exact hfinish List.not_mem_nil hd

end AnalysisSettings

namespace Linter

variable {l : Linter} {files : MemoryFiles} {g : ModuleGraph} {p : Path}
  {settings : AnalysisSettings} {severity : Severity}

/-- The message about an import of a name that is missing, in a script of a module. -/
def missing (severity : Severity) (x : Segment × Nat × Script) (entry : ImportedName) : Message :=
  ⟨x.2.1, x.1.offset, Rule.named.name, severity,
    { span := x.1.toLocal entry.span,
      message := "'" ++ entry.outer ++ "' is not exported by '" ++ entry.specifier ++ "'" }⟩

/-- A segment that a module keeps, and that could be read, is a script of its file. -/
theorem script_of_kept (hkeeps : l.loading.keeps (l.entries.contains p) = true) {part : Part}
    {index : Nat} {e : Extract} (hpart : (l.module files p).kept[index]? = some part)
    (he : part.outcome = .ok e) :
    (part.segment, index, e.script) ∈ l.scripts files p ∧
      e.interface = l.interfaceOf p index part.segment e.script ∧
      e.interface ∈ (l.module files p).interfaces := by
  have hrecord : .ok e ∈ (l.module files p).records := by
    obtain ⟨parts, hbody, hin⟩ := Module.mem_kept (List.mem_of_getElem? hpart)
    rw [Module.records, hbody, ← he]
    exact List.mem_map_of_mem hin
  have hinterfaces : e.interface ∈ (l.module files p).interfaces :=
    List.mem_filterMap.mpr ⟨.ok e, hrecord, rfl⟩
  rw [kept_module hkeeps, List.getElem?_map, Option.map_eq_some_iff] at hpart
  obtain ⟨x, hx, rfl⟩ := hpart
  obtain ⟨segment, hsegment, rfl⟩ : ∃ segment, (l.segments files p)[index]? = some segment ∧
      (segment, index) = x := by
    simpa [List.getElem?_zipIdx] using hx
  unfold LoadSettings.part at he
  cases hparse : segment.parse with
  | error f => simp [hparse] at he
  | ok script =>
    simp only [hparse, Except.ok.injEq] at he
    subst he
    refine ⟨List.mem_filterMap.mpr ⟨(segment, index), List.mem_of_getElem? hx, ?_⟩, rfl,
      hinterfaces⟩
    simp only [hparse, Except.toOption, Option.map_some]
    rfl

/-- A script of a file is a segment that its module keeps. -/
theorem exists_kept_of_script (hkeeps : l.loading.keeps (l.entries.contains p) = true)
    {x : Segment × Nat × Script} (hx : x ∈ l.scripts files p) :
    ∃ part e, (l.module files p).kept[x.2.1]? = some part ∧ part.segment = x.1 ∧
      part.outcome = .ok e ∧ e.script = x.2.2 := by
  obtain ⟨⟨segment, index⟩, hsegment, hparse⟩ := List.mem_filterMap.mp hx
  obtain ⟨script, hscript, rfl⟩ := Option.map_eq_some_iff.mp hparse
  have hparse : segment.parse = .ok script := by
    cases hresult : segment.parse with
    | error f => simp [hresult, Except.toOption] at hscript
    | ok script' => simpa [hresult, Except.toOption] using hscript
  have hget := List.mk_mem_zipIdx_iff_getElem?.mp hsegment
  refine ⟨l.loading.part files p (l.entries.contains p) (l.module files p).composite index segment,
    ⟨script, l.interfaceOf p index segment script,
      l.loading.resolutions files (l.interfaceOf p index segment script)⟩,
    ?_, rfl, by simp only [LoadSettings.part, hparse]; rfl, rfl⟩
  rw [kept_module hkeeps, List.getElem?_map, List.getElem?_zipIdx, hget]
  simp

/-- **What the rule says about a module** that keeps its content. -/
theorem mem_messages_named (hshows : g.Shows l files p)
    (hkeeps : l.loading.keeps (l.entries.contains p) = true)
    (honly : (settings.rules.filter fun r => r.rule.name = Rule.named.name) =
      [⟨Rule.named, severity⟩])
    {graph : Option ModuleGraph} (hgraph : ∀ g' ∈ graph, g' = g) {message : Message}
    (h : message ∈ settings.messages (Analyzing.links g p) graph (l.module files p))
    (hcode : message.code = Rule.named.name) :
    ∃ x ∈ l.scripts files p, ∃ entry ∈ (Interface.ofScript p x.2.1 x.1.offset x.2.2).imports,
      l.Misses files p entry ∧ message = missing severity x entry := by
  have hmem := List.mem_filter (p := fun message : Message =>
    message.code = Rule.named.name).mpr ⟨h, decide_eq_true hcode⟩
  rw [AnalysisSettings.filter_messages honly] at hmem
  obtain ⟨⟨part, index⟩, hpart, hmem⟩ := List.mem_flatMap.mp hmem
  have hpart := List.mk_mem_zipIdx_iff_getElem?.mp hpart
  dsimp only at hmem
  cases he : part.outcome with
  | error d => simp [he] at hmem
  | ok e =>
    rw [he] at hmem
    obtain ⟨hscript, hinterface, hmodule⟩ := script_of_kept hkeeps hpart he
    obtain ⟨finding, hfinding, rfl⟩ := AnalysisSettings.finding_of_mem_said hmem
    have hlinks : e.interface.segment = index := by
      rw [hinterface, interfaceOf]
      split <;> rfl
    cases graph with
    | none => simp [AnalysisSettings.said, AnalysisSettings.applies, Rule.named,
        AnalysisSettings.subject] at hmem
    | some g' =>
      obtain rfl := hgraph g' rfl
      obtain ⟨entry, hentry, rfl⟩ := List.mem_map.mp hfinding
      obtain ⟨hentry, hmissing⟩ := List.mem_filter.mp hentry
      have hmisses : l.Misses files p entry := by
        refine (hshows.isMissing_iff hmodule hentry).mp ?_
        rw [hlinks]
        exact hmissing
      refine ⟨_, hscript, entry, ?_, hmisses, rfl⟩
      rw [hinterface, interfaceOf] at hentry
      split at hentry
      · exact hentry
      · exact absurd hentry List.not_mem_nil

/-- Of a module whose interfaces are extracted, the rule says whatever there is to say. -/
theorem missing_mem_messages (hshows : g.Shows l files p)
    (hkeeps : l.loading.keeps (l.entries.contains p) = true)
    (hknown : (l.entries.contains p || l.loading.extractDependencies) = true)
    (hseverity : severity ≠ .off) (hrule : ⟨Rule.named, severity⟩ ∈ settings.rules)
    {x : Segment × Nat × Script} (hx : x ∈ l.scripts files p) {entry : ImportedName}
    (hentry : entry ∈ (Interface.ofScript p x.2.1 x.1.offset x.2.2).imports)
    (hmisses : l.Misses files p entry) :
    missing severity x entry ∈
      settings.messages (Analyzing.links g p) (some g) (l.module files p) := by
  obtain ⟨part, e, hpart, hsegment, he, hscript⟩ := exists_kept_of_script hkeeps hx
  obtain ⟨-, hinterface, hmodule⟩ := script_of_kept hkeeps hpart he
  rw [interfaceOf, if_pos hknown, hsegment, hscript] at hinterface
  have hlinks : e.interface.segment = x.2.1 := congrArg Interface.segment hinterface
  have hentry : entry ∈ e.interface.imports := by rwa [hinterface]
  have hmissing := (hshows.isMissing_iff hmodule hentry).mpr hmisses
  rw [hlinks] at hmissing
  refine List.mem_flatMap.mpr ⟨(part, x.2.1), List.mk_mem_zipIdx_iff_getElem?.mpr hpart, ?_⟩
  simp only [AnalysisSettings.saidOf, he]
  refine List.mem_flatMap.mpr ⟨_, hrule, ?_⟩
  have happlies : AnalysisSettings.applies ⟨Rule.named, severity⟩ (AnalysisSettings.subject
      (Analyzing.links g p) (some g) (l.module files p) x.2.1 part.segment e) = true := by
    simpa [AnalysisSettings.applies, AnalysisSettings.subject] using hseverity
  rw [AnalysisSettings.said, happlies, hsegment]
  exact List.mem_map_of_mem (List.mem_map_of_mem (List.mem_filter.mpr ⟨hentry, hmissing⟩))

theorem named_not_mem_loadCodes : Rule.named.name ∉ loadCodes := by decide

theorem named_not_failure : Rule.named.name ∉ [Code.disk, Code.resolve, Code.ruleFailure] := by
  decide

namespace Between

variable {loaded : List Path} {analyses : List Analysis} {s : RunState MemoryFiles} {a : Analysis}

theorem keeps (h : Between l files loaded analyses [] s) (ha : a ∈ analyses) :
    l.loading.keeps (l.entries.contains a.path) = true :=
  keeps_of_kept (List.mem_filter.mp (h.work.mem_iff.mp (List.mem_map_of_mem ha))).2

/-- What an analysis reports of the rule is about an import of a missing name. -/
theorem missing_of_mem_emitted (h : Between l files loaded analyses [] s)
    (honly : (l.analysisSettings.rules.filter fun r => r.rule.name = Rule.named.name) =
      [⟨Rule.named, severity⟩]) (ha : a ∈ analyses) {d : Diagnostic} (hd : d ∈ a.emitted)
    (hcode : d.code = Rule.named.name) :
    ∃ x ∈ l.scripts files d.path,
      ∃ entry ∈ (Interface.ofScript d.path x.2.1 x.1.offset x.2.2).imports,
        l.Misses files d.path entry ∧
        d = (missing severity x entry).diagnostic (l.module files d.path) := by
  obtain ⟨g, hshows, hanalysis⟩ := h.analyzed a ha
  rw [hanalysis] at hd
  have hpath : d.path = a.path := path_analysis hd
  have hresult := (List.mem_append.mp hd).resolve_right fun hmishap => by
    unfold mishaps at hmishap
    split at hmishap
    · exact absurd hmishap List.not_mem_nil
    · rw [List.mem_singleton.mp hmishap] at hcode
      have hinternal : Code.internal = Rule.named.name := hcode
      exact absurd hinternal (by decide)
  obtain ⟨message, hmessage, hdiagnostic⟩ := AnalysisSettings.message_of_mem_analyze hresult
    (hcode ▸ named_not_failure)
  have hgraph : ∀ g' ∈ (if l.options.crossModule then some g else none), g' = g := by
    split <;> simp
  have hname : message.code = Rule.named.name := by rw [← hcode, hdiagnostic]; rfl
  obtain ⟨x, hx, entry, hentry, hmisses, rfl⟩ :=
    mem_messages_named hshows (h.keeps ha) honly hgraph hmessage hname
  rw [hpath]
  exact ⟨x, hx, entry, hentry, hmisses, hdiagnostic⟩

/-- Whatever there is to say about an entry that was analyzed is reported, unless writing the
fixes of other rules breaks off. -/
theorem missing_mem_emitted (h : Between l files loaded analyses [] s)
    (honly : (l.analysisSettings.rules.filter fun r => r.rule.name = Rule.named.name) =
      [⟨Rule.named, severity⟩]) (hseverity : severity ≠ .off)
    (hcross : l.options.crossModule = true) (ha : a ∈ analyses)
    (hentry : l.entries.contains a.path = true)
    (hwrite : l.options.fix = true → ∀ text reason,
      (files.attemptWrite a.path text).1 ≠ .error (.brokenOff reason))
    {x : Segment × Nat × Script} (hx : x ∈ l.scripts files a.path) {entry : ImportedName}
    (hentries : entry ∈ (Interface.ofScript a.path x.2.1 x.1.offset x.2.2).imports)
    (hmisses : l.Misses files a.path entry) :
    (missing severity x entry).diagnostic (l.module files a.path) ∈ s.emitted := by
  obtain ⟨g, hshows, hanalysis⟩ := h.analyzed a ha
  have hgraph : (if l.options.crossModule then some g else none) = some g := if_pos hcross
  have hnofix : ∀ message ∈ l.analysisSettings.messages (Analyzing.links g a.path)
      (if l.options.crossModule then some g else none) (l.module files a.path),
      message.code = Rule.named.name → message.finding.fix = none := by
    rw [hgraph]
    intro message hmessage hname
    obtain ⟨x, _, entry, _, _, rfl⟩ :=
      mem_messages_named hshows (h.keeps ha) honly (by simp) hmessage hname
    rfl
  have hrule : ⟨Rule.named, severity⟩ ∈ l.analysisSettings.rules :=
    (List.mem_filter.mp (honly ▸ List.mem_singleton_self _)).1
  have hsaid : missing severity x entry ∈ l.analysisSettings.messages
      (Analyzing.links g a.path) (some g) (l.module files a.path) :=
    missing_mem_messages hshows (h.keeps ha) (by rw [hentry]; rfl) hseverity hrule hx hentries
      hmisses
  have hreported := h.filter_about_analyzed ha hanalysis named_not_mem_loadCodes
    (by decide) (by decide) hnofix hwrite
  rw [hgraph] at hreported
  have hmem := hreported.mem_iff.mpr (List.mem_map_of_mem
    (List.mem_filter.mpr ⟨hsaid, decide_eq_true rfl⟩))
  exact (List.mem_filter.mp (List.mem_filter.mp hmem).1).1

end Between

end Linter

/-! ### What a run reports -/

namespace LintSession

variable {s : LintSession} {paths : List Path} {r : Resources MemoryFiles}

/-- **`import/named` is exact about the last segments of modules.** Whatever a run reports of it
is about an import of a name that the last segment of the other module does not export, where all
segments of that module could be read; and on the entries, the run reports all such imports. -/
theorem run_finds_missing_names {severity : Severity}
    (honly : (s.rules.filter fun r => r.rule.name = Rule.named.name) =
      [⟨Rule.named, severity⟩]) :
    ∀ loaded state, s.Finishes paths r loaded state →
      (∀ d ∈ (s.report (s.entries paths) state).diagnostics, d.code = Rule.named.name →
        ∃ x ∈ (s.linterOf paths).scripts r.files d.path,
          ∃ entry ∈ (Interface.ofScript d.path x.2.1 x.1.offset x.2.2).imports,
            (s.linterOf paths).Misses r.files d.path entry ∧
            d = (Linter.missing severity x entry).diagnostic
              ((s.linterOf paths).module r.files d.path)) ∧
      (severity ≠ .off → s.options.crossModule = true → ∀ p ∈ paths,
        (s.options.fix = true → ∀ text reason,
          (r.files.attemptWrite (p.absoluteFrom s.options.directory) text).1 ≠
            .error (.brokenOff reason)) →
        ∃ q : Path, q.key = (p.absoluteFrom s.options.directory).key ∧
          ∀ x ∈ (s.linterOf paths).scripts r.files q,
            ∀ entry ∈ (Interface.ofScript q x.2.1 x.1.offset x.2.2).imports,
              (s.linterOf paths).Misses r.files q entry →
              (Linter.missing severity x entry).diagnostic ((s.linterOf paths).module r.files q) ∈
                (s.report (s.entries paths) state).diagnostics) := by
  intro loaded state hfinishes
  obtain ⟨analyses, h⟩ := hfinishes.between
  have hsort (d : Diagnostic) :
      d ∈ (s.report (s.entries paths) state).diagnostics ↔ d ∈ state.emitted :=
    (List.mergeSort_perm _ _).mem_iff
  refine ⟨fun d hd hcode => ?_, fun hseverity hcross p hp hwrite => ?_⟩
  · have habout : d ∈ (Diagnostic.about d.path.key state.emitted).filter
        fun d => d.code = Rule.named.name :=
      List.mem_filter.mpr ⟨List.mem_filter.mpr ⟨(hsort d).mp hd, decide_eq_true rfl⟩,
        decide_eq_true hcode⟩
    rw [(h.filter_about _ Linter.named_not_mem_loadCodes).mem_iff] at habout
    replace habout := (List.mem_filter.mp habout).1
    cases hfind : analyses.find? fun a => a.path.key = d.path.key with
    | none => simp [hfind] at habout
    | some a =>
      rw [hfind, Option.map_some, Option.getD_some] at habout
      exact h.missing_of_mem_emitted honly (List.mem_of_find?_eq_some hfind) habout hcode
  · cases hfind : analyses.find? fun a =>
        a.path.key = (p.absoluteFrom s.options.directory).key with
    | none =>
      obtain ⟨q, hq, hkey⟩ := h.exists_loaded ((reaches_iff _).mpr ⟨p, hp, .refl⟩)
      rw [← hkey] at hfind hq
      have hentry : (s.linterOf paths).entries.contains q = true :=
        (contains_entries q).mpr ⟨p, hp, hkey.symm⟩
      obtain ⟨hscripts, _⟩ := h.about_not_analyzed hq (by rw [hentry]; rfl) hfind
      exact ⟨q, hkey, by simp [hscripts]⟩
    | some a =>
      have hkey : a.path.key = (p.absoluteFrom s.options.directory).key := by
        simpa using List.find?_some hfind
      have hentry : (s.linterOf paths).entries.contains a.path = true :=
        (contains_entries a.path).mpr ⟨p, hp, hkey.symm⟩
      refine ⟨a.path, hkey, fun x hx entry himport hmisses => (hsort _).mpr ?_⟩
      refine h.missing_mem_emitted honly hseverity hcross (List.mem_of_find?_eq_some hfind) hentry
        (fun hfix text reason => ?_) hx himport hmisses
      rw [MemoryFiles.attemptWrite_fst rfl hkey]
      exact hwrite hfix text reason

/-- Only `import/named`, as an error. -/
def checkingNames : LintSession := { standard with rules := [⟨Rule.named, .error⟩] }

/-- A script that imports a name from another file. -/
def importing (text : Bytes) : MemoryFiles :=
  (MemoryFiles.empty.add "/a.js" "import { x } from './b.vue';\n").add "/b.vue" text

/-- The other file has two scripts, and none of them exports the name. -/
def notExported : MemoryFiles :=
  importing "<script>\nlet x;\n</script><script>\nexport let y;\n</script>"

/-- The other file has two scripts, and the first one exports the name. -/
def exportedFirst : MemoryFiles :=
  importing "<script>\nexport let x;\n</script><script>\nexport let y;\n</script>"

/-- An import of a name that the other file does not export is reported. -/
theorem run_finds_missing_names_vue :
    ∃ loaded state,
      checkingNames.Finishes [⟨"/a.js"⟩] ⟨notExported, checkingNames.pool⟩ loaded state ∧
      (∃ d ∈ (checkingNames.report (checkingNames.entries [⟨"/a.js"⟩]) state).diagnostics,
        d.code = Rule.named.name ∧
        ∃ x ∈ (checkingNames.linterOf [⟨"/a.js"⟩]).scripts notExported d.path,
          ∃ entry ∈ (Interface.ofScript d.path x.2.1 x.1.offset x.2.2).imports,
            (checkingNames.linterOf [⟨"/a.js"⟩]).Misses notExported d.path entry ∧
            d = (Linter.missing .error x entry).diagnostic
              ((checkingNames.linterOf [⟨"/a.js"⟩]).module notExported d.path)) ∧
      ∃ q : Path, q.key = Path.key ⟨"/a.js"⟩ ∧
        ∀ x ∈ (checkingNames.linterOf [⟨"/a.js"⟩]).scripts notExported q,
          ∀ entry ∈ (Interface.ofScript q x.2.1 x.1.offset x.2.2).imports,
            (checkingNames.linterOf [⟨"/a.js"⟩]).Misses notExported q entry →
            (Linter.missing .error x entry).diagnostic
                ((checkingNames.linterOf [⟨"/a.js"⟩]).module notExported q) ∈
              (checkingNames.report (checkingNames.entries [⟨"/a.js"⟩]) state).diagnostics := by
  obtain ⟨loaded, state, hfinishes, hrun⟩ := checkingNames.exists_finishes
    (List.cons_ne_nil (⟨"/a.js"⟩ : Path) []) ⟨notExported, checkingNames.pool⟩
  have hcodes : ((checkingNames.run [⟨"/a.js"⟩] ⟨notExported, checkingNames.pool⟩).1.toOption.map
      fun x => x.1.diagnostics.map Diagnostic.code) = some [Rule.named.name] := by decide +kernel
  rw [hrun] at hcodes
  obtain ⟨d, hd, hcode⟩ := List.map_eq_singleton_iff.mp (Option.some.inj hcodes)
  have hmem : d ∈ (checkingNames.report (checkingNames.entries [⟨"/a.js"⟩]) state).diagnostics :=
    hd ▸ List.mem_singleton_self d
  obtain ⟨hsound, hcomplete⟩ := run_finds_missing_names rfl loaded state hfinishes
  have hkey : (Path.absoluteFrom ⟨"/a.js"⟩ checkingNames.options.directory).key =
      Path.key ⟨"/a.js"⟩ := by decide
  obtain ⟨q, hq, hall⟩ := hcomplete (by decide) rfl _ (List.mem_singleton_self _)
    (by simp [checkingNames, standard])
  exact ⟨loaded, state, hfinishes, ⟨d, hmem, hcode, hsound d hmem hcode⟩, q, hq.trans hkey, hall⟩

/-- An import of a name that another segment than the last one exports is reported as well. -/
theorem run_reports_exported_name :
    (checkingNames.linterOf [⟨"/a.js"⟩]).Resolves exportedFirst ⟨"/a.js"⟩ "./b.vue" ⟨"/b.vue"⟩ ∧
      (((checkingNames.linterOf [⟨"/a.js"⟩]).segments exportedFirst ⟨"/b.vue"⟩).any fun segment =>
        segment.parse.toOption.any fun script =>
          (Interface.ofScript ⟨"/b.vue"⟩ 0 segment.offset script).exportsName "x") = true ∧
      ((checkingNames.run [⟨"/a.js"⟩] ⟨exportedFirst, checkingNames.pool⟩).1.toOption.map
        fun x => x.1.diagnostics.map fun d => (d.code, d.message)) =
        some [(Rule.named.name, ("'x' is not exported by './b.vue'" : Bytes))] :=
  ⟨⟨_, rfl, by decide +kernel, by decide +kernel⟩, by decide +kernel, by decide +kernel⟩

end LintSession

end ScriptLint
