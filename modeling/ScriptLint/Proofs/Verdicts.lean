/-
What the known rules say depends on little of the graph.

Two subjects are alike if a known rule cannot tell them apart: their segments are
the same, their requests lead to the same interfaces, and for every module that a
request leads to, both graphs know whether it failed and find the same way back from
it, by keys.  Analyses of alike subjects differ in nothing but the spelling of the
path they report:

* **`Rule.check_congr`** — a known rule says the same about alike subjects;
* **`AnalysisSettings.analyze_congr`** — analyses of two modules with the same keys,
  in graphs that show each of them what the files say, report the same problems and
  have the same counts.
-/
import ScriptLint.Analysis
import ScriptLint.Proofs.Links
import ScriptLint.Rule.Builtin

namespace ScriptLint

/-- A record with keys in the place of paths. -/
def Record.keyed (r : Record) : (Path.Key × Interface) × Table (Path.Key × Interface) :=
  (r.interface.keyed, Table.map Interface.keyed r.loaded)

namespace Subject

/-- A request of the subject leads to the interface. -/
def Sees (s : Subject) (i : Interface) : Prop :=
  ∃ r specifier, s.record = some r ∧ Rule.target? r specifier = some i

/-- No known rule tells the subjects apart. -/
structure Alike (s s' : Subject) : Prop where
  path : s.path.key = s'.path.key
  index : s.index = s'.index
  segment : s.segment = s'.segment
  script : s.script = s'.script
  scope : s.scope = s'.scope
  record : s.record.map Record.keyed = s'.record.map Record.keyed
  graph : s.graph.isSome = s'.graph.isSome
  failed : ∀ {g g' : ModuleGraph} {i i' : Interface}, s.graph = some g → s'.graph = some g' →
    s.Sees i → i.path.key = i'.path.key →
      (g.find? i.path).any Node.failed = (g'.find? i'.path).any Node.failed
  ways : ∀ {g g' : ModuleGraph} {i i' : Interface}, s.graph = some g → s'.graph = some g' →
    s.Sees i → i.path.key = i'.path.key →
      (g.findPath i.path s.path).map (List.map Path.key) =
        (g'.findPath i'.path s'.path).map (List.map Path.key)

variable {s s' : Subject}

/-- Alike subjects have records with the same keys, or none. -/
theorem Alike.records (h : s.Alike s') :
    (s.record = none ∧ s'.record = none) ∨
      ∃ r r', s.record = some r ∧ s'.record = some r' ∧ r.keyed = r'.keyed :=
  both_of_map_eq h.record

/-- Alike subjects both have a graph, or none has. -/
theorem Alike.graphs (h : s.Alike s') :
    (s.graph = none ∧ s'.graph = none) ∨ ∃ g g', s.graph = some g ∧ s'.graph = some g' := by
  have hgraph := h.graph
  cases hg : s.graph with
  | none =>
    rw [hg] at hgraph
    exact .inl ⟨rfl, Option.isNone_iff_eq_none.mp (Option.isSome_eq_false_iff.mp hgraph.symm)⟩
  | some g =>
    rw [hg] at hgraph
    obtain ⟨g', hg'⟩ := Option.isSome_iff_exists.mp hgraph.symm
    exact .inr ⟨g, g', rfl, hg'⟩

end Subject

/-! ### Rules -/

theorem Record.requests_congr {r r' : Record} (h : r.keyed = r'.keyed) :
    r.interface.requests = r'.interface.requests :=
  congrArg (fun k => k.1.2.requests) h

theorem Record.imports_congr {r r' : Record} (h : r.keyed = r'.keyed) :
    r.interface.imports = r'.interface.imports :=
  congrArg (fun k => k.1.2.imports) h

/-- Two interfaces with the same keys differ in the spelling of the path alone. -/
theorem Interface.exports_congr {i i' : Interface} (h : i.keyed = i'.keyed) :
    i.exportsAll = i'.exportsAll ∧ i.exports = i'.exports :=
  ⟨congrArg (fun k => k.2.exportsAll) h, congrArg (fun k => k.2.exports) h⟩

namespace Rule

theorem target?_congr {r r' : Record} (h : r.keyed = r'.keyed) (specifier : Bytes) :
    (target? r specifier).map Interface.keyed = (target? r' specifier).map Interface.keyed := by
  have hloaded : Table.map Interface.keyed r.loaded = Table.map Interface.keyed r'.loaded :=
    congrArg Prod.snd h
  rw [target?, target?, ← Table.find?_map, hloaded, Table.find?_map]

/-- The text of a chain depends on the keys of its paths. -/
theorem chainText_congr {p p' : Path} {way way' : List Path} (hp : p.key = p'.key)
    (hway : way.map Path.key = way'.map Path.key) : chainText p way = chainText p' way' := by
  have hread (way : List Path) : (way.flatMap fun step => (" -> " ++ step.fileName : Bytes)) =
      (way.map Path.key).flatMap fun k => (" -> " ++ k.names.getLast?.getD [] : Bytes) := by
    rw [List.flatMap_map]
    rfl
  rw [chainText, chainText, hread, hread, hway, Path.fileName_congr hp]

variable {s s' : Subject}

theorem noSelfImport_congr (h : s.Alike s') : noSelfImport.check s = noSelfImport.check s' := by
  rcases h.records with ⟨hr, hr'⟩ | ⟨r, r', hr, hr', hkeyed⟩
  · simp only [noSelfImport, hr, hr']
  simp only [noSelfImport, hr, hr', Record.requests_congr hkeyed, h.segment]
  refine congrArg (Verdict.mk · none) (congrArg (List.map _) (List.filter_congr fun q _ => ?_))
  rcases both_of_map_eq (target?_congr hkeyed q.specifier) with ⟨ht, ht'⟩ | ⟨i, i', ht, ht', hi⟩
  · rw [ht, ht']
    rfl
  · have hkey : i.path.key = i'.path.key := congrArg Prod.fst hi
    simp [ht, ht', Path.same, hkey, h.path]

theorem wayBack?_congr (h : s.Alike s') {r r' : Record} (hr : s.record = some r)
    (hkeyed : r.keyed = r'.keyed) {g g' : ModuleGraph} (hg : s.graph = some g)
    (hg' : s'.graph = some g') (q : Request) :
    (wayBack? s r g q).map (List.map Path.key) = (wayBack? s' r' g' q).map (List.map Path.key) := by
  unfold wayBack?
  split
  · rfl
  rcases both_of_map_eq (target?_congr hkeyed q.specifier) with ⟨ht, ht'⟩ | ⟨i, i', ht, ht', hi⟩
  · rw [ht, ht']
  · have hkey : i.path.key = i'.path.key := congrArg Prod.fst hi
    simp only [ht, ht', Path.same, hkey, h.path]
    by_cases hself : i'.path.key = s'.path.key
    · simp only [hself, beq_self_eq_true, if_true]
    · simp only [beq_eq_false_iff_ne.mpr hself, Bool.false_eq_true, if_false]
      exact h.ways hg hg' ⟨r, q.specifier, hr, ht⟩ hkey

theorem noCycle_congr (h : s.Alike s') : noCycle.check s = noCycle.check s' := by
  rcases h.records with ⟨hr, hr'⟩ | ⟨r, r', hr, hr', hkeyed⟩
  · simp only [noCycle, hr, hr']
  rcases h.graphs with ⟨hg, hg'⟩ | ⟨g, g', hg, hg'⟩
  · simp only [noCycle, hr, hr', hg, hg']
  simp only [noCycle, hr, hr', hg, hg', Record.requests_congr hkeyed, h.segment]
  refine congrArg (Verdict.mk · none) (List.filterMap_congr fun q _ => ?_)
  rcases both_of_map_eq (wayBack?_congr h hr hkeyed hg hg' q) with
    ⟨hway, hway'⟩ | ⟨way, way', hway, hway', hkeys⟩
  · rw [hway, hway']
    rfl
  · rw [hway, hway', Option.map_some, Option.map_some, chainText_congr h.path hkeys]

theorem isMissing_congr (h : s.Alike s') {r r' : Record} (hr : s.record = some r)
    (hkeyed : r.keyed = r'.keyed) {g g' : ModuleGraph} (hg : s.graph = some g)
    (hg' : s'.graph = some g') (n : ImportedName) : isMissing r g n = isMissing r' g' n := by
  unfold isMissing
  refine congrArg _ ?_
  rcases both_of_map_eq (target?_congr hkeyed n.specifier) with ⟨ht, ht'⟩ | ⟨i, i', ht, ht', hi⟩
  · rw [ht, ht']
    rfl
  · obtain ⟨hall, hexports⟩ := Interface.exports_congr hi
    have hkey : i.path.key = i'.path.key := congrArg Prod.fst hi
    have hfailed := h.failed hg hg' ⟨r, n.specifier, hr, ht⟩ hkey
    rw [ht, ht', Option.any_some, Option.any_some, hfailed, hall, hexports, Interface.exportsName,
      Interface.exportsName, hexports]

theorem named_congr (h : s.Alike s') : named.check s = named.check s' := by
  rcases h.records with ⟨hr, hr'⟩ | ⟨r, r', hr, hr', hkeyed⟩
  · simp only [named, hr, hr']
  rcases h.graphs with ⟨hg, hg'⟩ | ⟨g, g', hg, hg'⟩
  · simp only [named, hr, hr', hg, hg']
  simp only [named, hr, hr', hg, hg', Record.imports_congr hkeyed, h.segment]
  exact congrArg (Verdict.mk · none) (congrArg (List.map _)
    (List.filter_congr fun n _ => isMissing_congr h hr hkeyed hg hg' n))

/-- The rules that need no graph look at the script and its scope alone. -/
theorem check_eq_of_cross {rule : Rule} (hrule : rule ∈ builtin) (hscript : s.script = s'.script)
    (hscope : s.scope = s'.scope) (hself : noSelfImport.check s = noSelfImport.check s')
    (hcycle : noCycle.check s = noCycle.check s') (hnamed : named.check s = named.check s') :
    rule.check s = rule.check s' := by
  simp only [builtin, List.mem_cons, List.not_mem_nil, or_false] at hrule
  rcases hrule with rfl | rfl | rfl | rfl | rfl | rfl
  · simp only [noDebugger, hscript]
  · simp only [noDuplicateImports, hscript]
  · simp only [noUnusedImports, hscope]
  · exact hself
  · exact hcycle
  · exact hnamed

/-- **A known rule says the same about alike subjects.** -/
theorem check_congr {rule : Rule} (hrule : rule ∈ builtin) (h : s.Alike s') :
    rule.check s = rule.check s' :=
  check_eq_of_cross hrule h.script h.scope (noSelfImport_congr h) (noCycle_congr h) (named_congr h)

end Rule

/-! ### Inspections -/

theorem Module.shownSegment_congr {m m' : Module} (h : m.composite = m'.composite) (index : Nat) :
    m.shownSegment index = m'.shownSegment index := by
  rw [shownSegment, shownSegment, h]

theorem Message.keyed_diagnostic {m m' : Module} (hpath : m.path.key = m'.path.key)
    (hcomposite : m.composite = m'.composite) (message : Message) :
    (message.diagnostic m).keyed = (message.diagnostic m').keyed := by
  simp [diagnostic, Diagnostic.shifted, Diagnostic.keyed, hpath,
    Module.shownSegment_congr hcomposite]

namespace AnalysisSettings

variable {settings : AnalysisSettings} {m m' : Module} {s s' : Subject}

/-- Known rules have the same messages for alike subjects, and report the same
failures. -/
theorem inspect_congr (hrules : ∀ r ∈ settings.rules, r.rule ∈ Rule.builtin)
    (hpath : m.path.key = m'.path.key) (hcomposite : m.composite = m'.composite)
    (h : s.Alike s') :
    (settings.inspect m s).messages = (settings.inspect m' s').messages ∧
      (settings.inspect m s).failures.map Diagnostic.keyed =
        (settings.inspect m' s').failures.map Diagnostic.keyed := by
  have hwith (r : RuleSetting) (hr : r ∈ settings.rules) :
      (inspectWith m s r).messages = (inspectWith m' s' r).messages ∧
        (inspectWith m s r).failures.map Diagnostic.keyed =
          (inspectWith m' s' r).failures.map Diagnostic.keyed := by
    have happlies : applies r s = applies r s' := by rw [applies, applies, h.graph]
    unfold inspectWith
    simp only [happlies, Rule.check_congr (hrules r hr) h, h.index, h.segment]
    split
    · split
      · simp [failureDiagnostic, Diagnostic.keyed, hpath, Module.shownSegment_congr hcomposite]
      · simp
    · simp
  simp only [inspect, List.flatMap_map, List.map_flatMap]
  exact ⟨List.flatMap_congr fun r hr => (hwith r hr).1,
    List.flatMap_congr fun r hr => (hwith r hr).2⟩

theorem keyed_unresolved {e e' : Extract} (hpath : m.path.key = m'.path.key)
    (hcomposite : m.composite = m'.composite) (h : e.keyed = e'.keyed) (index : Nat) :
    (unresolvedDiagnostics m index e).map Diagnostic.keyed =
      (unresolvedDiagnostics m' index e').map Diagnostic.keyed := by
  have hread (m : Module) (e : Extract) :
      (unresolvedDiagnostics m index e).map Diagnostic.keyed =
        (e.resolutions.map Resolution.keyed).filterMap fun r =>
          match r.2.2 with
          | .ok _ => none
          | .error message => some (Diagnostic.keyed
              { path := m.path, segment := m.shownSegment index, span := some r.2.1,
                code := Code.resolve, message }) := by
    rw [unresolvedDiagnostics, List.map_filterMap, List.filterMap_map]
    refine List.filterMap_congr fun r _ => ?_
    rw [Function.comp_apply, Resolution.keyed]
    cases r.outcome <;> rfl
  have hresolutions : e.resolutions.map Resolution.keyed = e'.resolutions.map Resolution.keyed :=
    congrArg (fun k => k.2.2) h
  rw [hread, hread, hresolutions]
  simp [Diagnostic.keyed, hpath, Module.shownSegment_congr hcomposite]

variable {l l' : Linter} {files : MemoryFiles} {g g' : ModuleGraph}

/-- What a subject of the module sees belongs to a target of the module. -/
theorem target_of_sees (h : g.Shows l files m.path)
    {graph : Option ModuleGraph} {index : Nat} {segment : Segment} {e : Extract} {i : Interface}
    (hi : (subject (Analyzing.links g m.path) graph m index segment e).Sees i) :
    ∃ t ∈ (l.module files m.path).targets, t.key = i.path.key := by
  obtain ⟨r, specifier, hr, hfind⟩ := hi
  obtain rfl : (⟨e.interface, Analyzing.links g m.path index⟩ : Record) = r := by
    simpa [subject] using hr
  have hkeyed : Table.find? specifier (l.links files (l.module files m.path) index) =
      some i.keyed := by
    rw [← h.links, Table.find?_map]
    exact congrArg (Option.map Interface.keyed) hfind
  exact Linter.mem_links (Table.mem_of_find? hkeyed)

/-- Graphs that show a module what the files say make alike subjects of its
segments. -/
theorem subject_alike (hbody : ∀ p q : Path, p.key = q.key →
      (l.module files p).keyed.body = (l'.module files q).keyed.body)
    (h : g.Shows l files m.path) (h' : g'.Shows l' files m'.path)
    (hpath : m.path.key = m'.path.key) {e e' : Extract} (he : e.keyed = e'.keyed)
    (cross : Bool) (index : Nat) (segment : Segment) :
    (subject (Analyzing.links g m.path) (if cross then some g else none) m index segment e).Alike
      (subject (Analyzing.links g' m'.path) (if cross then some g' else none) m' index segment e')
    where
  path := hpath
  index := rfl
  segment := rfl
  script := congrArg Prod.fst he
  scope := by
    have hscript : e.script = e'.script := congrArg Prod.fst he
    simp only [subject, Extract.scope, hscript]
  record := by
    have hinterface : e.interface.keyed = e'.interface.keyed := congrArg (fun k => k.2.1) he
    have hlinks := Linter.links_congr hbody (hbody _ _ hpath) index
    simp only [subject, Option.map_some, Record.keyed, hinterface, h.links, h'.links, hlinks]
  graph := by cases cross <;> rfl
  failed {f f' i i'} hf hf' hi hkey := by
    obtain ⟨hcross, rfl⟩ : cross = true ∧ g = f := by simpa [subject] using hf
    obtain ⟨_, rfl⟩ : cross = true ∧ g' = f' := by simpa [subject] using hf'
    obtain ⟨t, ht, htkey⟩ := target_of_sees h hi
    obtain ⟨t', ht', htkey'⟩ : ∃ t' ∈ (l'.module files m'.path).targets, t'.key = t.key := by
      rw [← List.mem_map, ← Module.targets_congr (hbody _ _ hpath)]
      exact List.mem_map_of_mem ht
    rw [ModuleGraph.any_failed, ModuleGraph.any_failed, ← hkey, ← htkey, h.failed t ht, ← htkey',
      h'.failed t' ht', Module.failed_congr (hbody t t' htkey'.symm)]
  ways {f f' i i'} hf hf' hi hkey := by
    obtain ⟨hcross, rfl⟩ : cross = true ∧ g = f := by simpa [subject] using hf
    obtain ⟨_, rfl⟩ : cross = true ∧ g' = f' := by simpa [subject] using hf'
    exact h.findPath_congr hbody h' hpath (target_of_sees h hi) hkey

/-- What is said about a segment, with keys. -/
def keyedInspection (i : Inspection × List Diagnostic) :
    List Message × List (Path.Key × Diagnostic) × List (Path.Key × Diagnostic) :=
  (i.1.messages, i.1.failures.map Diagnostic.keyed, i.2.map Diagnostic.keyed)

theorem inspectPart_congr (hrules : ∀ r ∈ settings.rules, r.rule ∈ Rule.builtin)
    (hbody : ∀ p q : Path, p.key = q.key →
      (l.module files p).keyed.body = (l'.module files q).keyed.body)
    (h : g.Shows l files m.path) (h' : g'.Shows l' files m'.path)
    (hpath : m.path.key = m'.path.key) (hcomposite : m.composite = m'.composite) (cross : Bool)
    (index : Nat) {part part' : Part} (hsegment : part.segment = part'.segment)
    (houtcome : keyedOutcome part.outcome = keyedOutcome part'.outcome) :
    keyedInspection (settings.inspectPart (Analyzing.links g m.path)
        (if cross then some g else none) m index part) =
      keyedInspection (settings.inspectPart (Analyzing.links g' m'.path)
        (if cross then some g' else none) m' index part') := by
  unfold inspectPart
  cases ho : part.outcome with
  | error d =>
    cases ho' : part'.outcome with
    | error d' => rfl
    | ok e' =>
      rw [ho, ho'] at houtcome
      exact absurd houtcome (by simp [keyedOutcome, Except.map, Except.mapError])
  | ok e =>
    cases ho' : part'.outcome with
    | error d' =>
      rw [ho, ho'] at houtcome
      exact absurd houtcome (by simp [keyedOutcome, Except.map, Except.mapError])
    | ok e' =>
      rw [ho, ho'] at houtcome
      have he : e.keyed = e'.keyed := by
        simpa [keyedOutcome, Except.map, Except.mapError] using houtcome
      have hinspect := inspect_congr hrules hpath hcomposite
        (subject_alike hbody h h' hpath he cross index part'.segment)
      simp only [keyedInspection, hsegment, hinspect.1, hinspect.2,
        keyed_unresolved hpath hcomposite he]

/-- The inspections of a module's segments. -/
def inspections (settings : AnalysisSettings) (g : ModuleGraph) (cross : Bool) (m : Module) :
    List (Inspection × List Diagnostic) :=
  m.kept.zipIdx.map fun x => settings.inspectPart (Analyzing.links g m.path)
    (if cross then some g else none) m x.2 x.1

theorem inspections_congr (hrules : ∀ r ∈ settings.rules, r.rule ∈ Rule.builtin)
    (hbody : ∀ p q : Path, p.key = q.key →
      (l.module files p).keyed.body = (l'.module files q).keyed.body)
    (h : g.Shows l files m.path) (h' : g'.Shows l' files m'.path) (hm : m.keyed = m'.keyed)
    (cross : Bool) :
    (settings.inspections g cross m).map keyedInspection =
      (settings.inspections g' cross m').map keyedInspection := by
  have hbody' : m.keyed.body = m'.keyed.body := congrArg Module.Keyed.body hm
  have hpath : m.path.key = m'.path.key := congrArg Module.Keyed.key hm
  have hkept : m.kept.map (fun p => (p.segment, keyedOutcome p.outcome)) =
      m'.kept.map (fun p => (p.segment, keyedOutcome p.outcome)) := by
    have hread (m : Module) : m.kept.map (fun p => (p.segment, keyedOutcome p.outcome)) =
        (m.content.map Module.Content.text).elim [] fun _ =>
          (m.parts.map (List.map fun p => (p.segment, keyedOutcome p.outcome))).getD [] := by
      unfold Module.kept Module.parts
      cases m.content <;> cases m.body <;> rfl
    have hcontent : m.content.map Module.Content.text = m'.content.map Module.Content.text :=
      congrArg Module.Keyed.content hm
    rw [hread, hread, hcontent, Module.parts_congr hbody']
  -- the segments of both modules are compared one by one
  unfold inspections
  rw [List.map_map, List.map_map]
  refine List.ext_getElem ?_ fun n hn hn' => ?_
  · have := congrArg List.length hkept
    simpa using this
  · simp only [List.getElem_map, List.getElem_zipIdx, Function.comp_apply, Nat.zero_add]
    have hn : n < m.kept.length := by simpa using hn
    have hn' : n < m'.kept.length := by simpa using hn'
    have hpart : (m.kept[n].segment, keyedOutcome m.kept[n].outcome) =
        (m'.kept[n].segment, keyedOutcome m'.kept[n].outcome) := by
      have := List.getElem_of_eq hkept (i := n) (by simpa using hn)
      simpa using this
    exact inspectPart_congr hrules hbody h h' hpath (Module.composite_congr hbody') cross n
      (congrArg Prod.fst hpart) (congrArg Prod.snd hpart)

/-! ### Analyses -/

theorem keyed_report (hpath : m.path.key = m'.path.key) (hcomposite : m.composite = m'.composite)
    (messages : List Message) (fixed : List Nat) :
    (report m messages fixed).map Diagnostic.keyed =
      (report m' messages fixed).map Diagnostic.keyed := by
  rw [report, report, List.map_map, List.map_map]
  exact List.map_congr_left fun x _ => Message.keyed_diagnostic hpath hcomposite x.1

theorem keyed_writeDiagnostic (hpath : m.path.key = m'.path.key) (e : Error) :
    (writeDiagnostic m e).keyed = (writeDiagnostic m' e).keyed := by
  simp [writeDiagnostic, Diagnostic.keyed, hpath]

/-- The fixes of messages applied to a text. -/
def fixed (text : Bytes) (messages : List Message) : FixResult :=
  Fix.apply text ((proposals messages).map Prod.fst)

/-- The report on messages, after what was said early and some more. -/
def finish (m : Module) (messages : List Message) (early more : List Diagnostic)
    (owners : List Nat) (counts : AnalysisCounts) : AnalysisResult :=
  ⟨early ++ more ++ report m messages owners,
    .ok { counts with diagnostics := (early ++ more ++ report m messages owners).length }⟩

/-- What is left of an analysis when the segments have been inspected. -/
def conclude (settings : AnalysisSettings) (m : Module) (text : Bytes) (messages : List Message)
    (early : List Diagnostic) (ruleFailures : Nat) (store : MemoryFiles) :
    AnalysisResult × MemoryFiles :=
  if settings.fix && (fixed text messages).changed then
    (match (store.attemptWrite m.path (fixed text messages).output).1 with
      | .error (.brokenOff reason) => ⟨early, .error (.brokenOff reason)⟩
      | .error (.failed e) => finish m messages early [writeDiagnostic m e] [] { ruleFailures }
      | .ok () => finish m messages early []
        ((fixed text messages).applied.filterMap fun i => ((proposals messages)[i]?).map Prod.snd)
        { ruleFailures, fixesApplied := (fixed text messages).applied.length, written := true },
      (store.attemptWrite m.path (fixed text messages).output).2)
  else (finish m messages early [] [] { ruleFailures }, store)

theorem analyze_eq {c : Module.Content} (hc : m.content = some c) (g : ModuleGraph) (cross : Bool)
    (store : MemoryFiles) :
    settings.analyze (Analyzing.links g m.path) (if cross then some g else none) m store =
      settings.conclude m c.text
        ((settings.inspections g cross m).flatMap fun i => i.1.messages)
        ((settings.inspections g cross m).flatMap fun i => i.1.failures ++ i.2)
        ((settings.inspections g cross m).flatMap fun i => i.1.failures).length store := by
  have hxs : (m.kept.zipIdx.map fun x => settings.inspectPart (Analyzing.links g m.path)
      (if cross then some g else none) m x.2 x.1) = settings.inspections g cross m := rfl
  have hwrite (text : Bytes) : FileStore.write m.path text store = store.attemptWrite m.path text :=
    rfl
  unfold analyze conclude fixed finish
  simp only [hc, hxs, hwrite]
  refine ite_congr rfl (fun _ => ?_) fun _ => rfl
  generalize store.attemptWrite m.path _ = w
  obtain ⟨outcome, after⟩ := w
  cases outcome with
  | ok _ => rfl
  | error mishap => cases mishap <;> rfl

theorem finish_congr (hpath : m.path.key = m'.path.key) (hcomposite : m.composite = m'.composite)
    (messages : List Message) {early early' more more' : List Diagnostic}
    (hearly : early.map Diagnostic.keyed = early'.map Diagnostic.keyed)
    (hmore : more.map Diagnostic.keyed = more'.map Diagnostic.keyed) (owners : List Nat)
    (counts : AnalysisCounts) :
    (finish m messages early more owners counts).emitted.map Diagnostic.keyed =
        (finish m' messages early' more' owners counts).emitted.map Diagnostic.keyed ∧
      (finish m messages early more owners counts).counts =
        (finish m' messages early' more' owners counts).counts := by
  have hemitted : (early ++ more ++ report m messages owners).map Diagnostic.keyed =
      (early' ++ more' ++ report m' messages owners).map Diagnostic.keyed := by
    simp only [List.map_append, hearly, hmore, keyed_report hpath hcomposite]
  refine ⟨hemitted, ?_⟩
  have hlength := congrArg List.length hemitted
  rw [List.length_map, List.length_map] at hlength
  rw [finish, finish, hlength]

theorem conclude_congr (hpath : m.path.key = m'.path.key) (hcomposite : m.composite = m'.composite)
    (text : Bytes) (messages : List Message) {early early' : List Diagnostic}
    (hearly : early.map Diagnostic.keyed = early'.map Diagnostic.keyed) (ruleFailures : Nat)
    {store store' : MemoryFiles} (hplans : store.plans = store'.plans) :
    (settings.conclude m text messages early ruleFailures store).1.emitted.map Diagnostic.keyed =
        (settings.conclude m' text messages early' ruleFailures store').1.emitted.map
          Diagnostic.keyed ∧
      (settings.conclude m text messages early ruleFailures store).1.counts =
        (settings.conclude m' text messages early' ruleFailures store').1.counts := by
  have hwrite := MemoryFiles.attemptWrite_fst hplans hpath (fixed text messages).output
  have hnil : ([] : List Diagnostic).map Diagnostic.keyed = [].map Diagnostic.keyed := rfl
  unfold conclude
  split
  · rw [hwrite]
    cases (store'.attemptWrite m'.path (fixed text messages).output).1 with
    | ok _ => exact finish_congr hpath hcomposite messages hearly hnil _ _
    | error mishap =>
      cases mishap with
      | brokenOff reason => exact ⟨hearly, rfl⟩
      | failed e =>
        refine finish_congr hpath hcomposite messages hearly ?_ _ _
        rw [List.map_singleton, List.map_singleton, keyed_writeDiagnostic hpath]
  · exact finish_congr hpath hcomposite messages hearly hnil _ _

/-- The text that an analysis of a module tries to write. -/
def written (settings : AnalysisSettings) (g : ModuleGraph) (cross : Bool) (m : Module) :
    Option Bytes :=
  m.content.bind fun c =>
    let result := fixed c.text ((settings.inspections g cross m).flatMap fun i => i.1.messages)
    if settings.fix && result.changed then some result.output else none

/-- The files after an analysis. -/
theorem analyze_snd (g : ModuleGraph) (cross : Bool) (m : Module) (store : MemoryFiles) :
    (settings.analyze (Analyzing.links g m.path) (if cross then some g else none) m store).2 =
      match settings.written g cross m with
      | none => store
      | some text => (store.attemptWrite m.path text).2 := by
  unfold written
  cases hc : m.content with
  | none =>
    unfold analyze
    rw [hc]
    rfl
  | some c =>
    rw [analyze_eq hc, conclude]
    simp only [Option.bind_some]
    split <;> rfl

theorem messages_congr (hrules : ∀ r ∈ settings.rules, r.rule ∈ Rule.builtin)
    (hbody : ∀ p q : Path, p.key = q.key →
      (l.module files p).keyed.body = (l'.module files q).keyed.body)
    (h : g.Shows l files m.path) (h' : g'.Shows l' files m'.path) (hm : m.keyed = m'.keyed)
    (cross : Bool) :
    (settings.inspections g cross m).flatMap (fun i => i.1.messages) =
      (settings.inspections g' cross m').flatMap (fun i => i.1.messages) := by
  have hflat := congrArg (List.flatMap fun k => k.1)
    (inspections_congr hrules hbody h h' hm cross)
  simpa [List.flatMap_map, keyedInspection] using hflat

/-- Analyses of a module in graphs that show it what the files say try to write the
same text or none. -/
theorem written_congr (hrules : ∀ r ∈ settings.rules, r.rule ∈ Rule.builtin)
    (hbody : ∀ p q : Path, p.key = q.key →
      (l.module files p).keyed.body = (l'.module files q).keyed.body)
    (h : g.Shows l files m.path) (h' : g'.Shows l' files m'.path) (hm : m.keyed = m'.keyed)
    (cross : Bool) : settings.written g cross m = settings.written g' cross m' := by
  have hcontent : m.content.map Module.Content.text = m'.content.map Module.Content.text :=
    congrArg Module.Keyed.content hm
  unfold written
  rw [messages_congr hrules hbody h h' hm cross]
  rcases both_of_map_eq hcontent with ⟨hc, hc'⟩ | ⟨c, c', hc, hc', htext⟩
  · rw [hc, hc']
  · rw [hc, hc', Option.bind_some, Option.bind_some, htext]

/-- **Analyses of a module in graphs that show it what the files say** report the
same and count the same. -/
theorem analyze_congr (hrules : ∀ r ∈ settings.rules, r.rule ∈ Rule.builtin)
    (hbody : ∀ p q : Path, p.key = q.key →
      (l.module files p).keyed.body = (l'.module files q).keyed.body)
    (h : g.Shows l files m.path) (h' : g'.Shows l' files m'.path) (hm : m.keyed = m'.keyed)
    (cross : Bool) {store store' : MemoryFiles} (hplans : store.plans = store'.plans) :
    (settings.analyze (Analyzing.links g m.path) (if cross then some g else none) m
        store).1.emitted.map Diagnostic.keyed =
      (settings.analyze (Analyzing.links g' m'.path) (if cross then some g' else none) m'
        store').1.emitted.map Diagnostic.keyed ∧
    (settings.analyze (Analyzing.links g m.path) (if cross then some g else none) m
        store).1.counts =
      (settings.analyze (Analyzing.links g' m'.path) (if cross then some g' else none) m'
        store').1.counts := by
  have hpath : m.path.key = m'.path.key := congrArg Module.Keyed.key hm
  have hcomposite : m.composite = m'.composite := congrArg Module.Keyed.composite hm
  have hcontent : m.content.map Module.Content.text = m'.content.map Module.Content.text :=
    congrArg Module.Keyed.content hm
  have hinspections := inspections_congr hrules hbody h h' hm cross
  have hearly : ((settings.inspections g cross m).flatMap fun i => i.1.failures ++ i.2).map
        Diagnostic.keyed =
      ((settings.inspections g' cross m').flatMap fun i => i.1.failures ++ i.2).map
        Diagnostic.keyed := by
    have := congrArg (List.flatMap fun k => k.2.1 ++ k.2.2) hinspections
    simpa [List.flatMap_map, List.map_flatMap, keyedInspection] using this
  have hfailures : ((settings.inspections g cross m).flatMap fun i => i.1.failures).length =
      ((settings.inspections g' cross m').flatMap fun i => i.1.failures).length := by
    have := congrArg (fun ks => (List.flatMap (fun k => k.2.1) ks).length) hinspections
    simpa [List.flatMap_map, ← List.map_flatMap, keyedInspection] using this
  rcases both_of_map_eq hcontent with ⟨hc, hc'⟩ | ⟨c, c', hc, hc', htext⟩
  · unfold analyze
    simp only [hc, hc', and_self]
  · rw [analyze_eq hc, analyze_eq hc', htext, messages_congr hrules hbody h h' hm cross, hfailures]
    exact conclude_congr hpath hcomposite _ _ hearly _ hplans

end AnalysisSettings

end ScriptLint
