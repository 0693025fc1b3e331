/-
A second run with fixing.

A run with fixing deletes the `debugger` statements of the files that it analyzes.  If the
`debugger` words of a file can be deleted, the segments of what is left have none, so another
run over the same paths has nothing to fix there:

* **`Linter.written_eq`** — what is written for a file;
* **`FileForm.Settles`** — a text is cut in the same way without its `debugger` statements;
* **`Linter.Between.content_without`** — what is in a file after a run;
* **`LintSession.run_settles`** — fixes leave scripts that can be read and in which nothing is to
  be fixed, and a second run does not write to a file that the first one has read.
-/
import ScriptLint.Proofs.Cycles
import ScriptLint.Proofs.FailedWrites
import ScriptLint.Proofs.Findings
import ScriptLint.Proofs.Recutting

namespace ScriptLint

/-- Fixes whose places are the same or apart change the text if there are any: the first one is
applied. -/
theorem Fix.changed_iff {source : Bytes} {fixes : List Fix}
    (h : Span.Separate source.length (fixes.map Fix.span)) :
    (apply source fixes).changed = true ↔ fixes ≠ [] := by
  rw [FixResult.changed, Bool.not_eq_true', List.isEmpty_eq_false_iff]
  constructor
  · rintro happlied rfl
    obtain ⟨i, hi⟩ := List.exists_mem_of_ne_nil _ happlied
    obtain ⟨f, hf, _⟩ := (mem_applied_iff h).mp hi
    cases hf
  · intro hfixes
    obtain ⟨f, rest, rfl⟩ := List.exists_cons_of_ne_nil hfixes
    exact List.ne_nil_of_mem ((mem_applied_iff (i := 0) h).mpr ⟨f, rfl, List.not_mem_nil⟩)

namespace AnalysisSettings

variable {settings : AnalysisSettings} {links : Nat → Table Interface}
  {graph : Option ModuleGraph} {m : Module}

/-! ### The fixes of a module -/

/-- `no-debugger` is one of the rules, and is not off. -/
def ForbidsDebuggers (settings : AnalysisSettings) : Prop :=
  ∃ setting ∈ settings.rules, setting.rule = Rule.noDebugger ∧ setting.severity ≠ .off

theorem applies_of_mem_said {subject : Subject} {setting : RuleSetting} {message : Message}
    (h : message ∈ said subject setting) : applies setting subject = true := by
  unfold said at h
  split at h
  case isTrue happlies => exact (Bool.and_eq_true_iff.mp happlies).1
  case isFalse => cases h

/-- **A fix** deletes a `debugger` statement of a segment. -/
theorem fix_of_mem_messages (hrules : ∀ setting ∈ settings.rules, setting.rule ∈ Rule.builtin)
    {message : Message} {f : Fix} (h : message ∈ settings.messages links graph m)
    (hf : message.fix? = some f) :
    settings.ForbidsDebuggers ∧ ∃ part ∈ m.kept, ∃ e, part.outcome = .ok e ∧
      ∃ statement ∈ e.script.debuggers, f = ⟨statement.span.shifted part.segment.offset, []⟩ := by
  obtain ⟨⟨part, index⟩, hpart, h⟩ := List.mem_flatMap.mp h
  have hpart := List.mem_of_getElem? (List.mem_zipIdx_iff_getElem?.mp hpart)
  obtain ⟨e, houtcome, setting, hsetting, h⟩ := mem_saidOf.mp h
  obtain ⟨finding, hfinding, rfl⟩ := finding_of_mem_said h
  obtain ⟨fix, hfix, rfl⟩ := Option.map_eq_some_iff.mp hf
  have hrule := Rule.eq_noDebugger_of_fix (hrules setting hsetting) hfinding hfix
  have happlies := applies_of_mem_said h
  rw [hrule] at hfinding
  obtain ⟨statement, hstatement, rfl⟩ := List.mem_map.mp hfinding
  obtain rfl := Option.some.inj hfix
  refine ⟨⟨setting, hsetting, hrule, fun hoff => ?_⟩, part, hpart, e, houtcome, statement,
    hstatement, rfl⟩
  simp [applies, hoff] at happlies

/-- All `debugger` statements have a fix. -/
theorem mem_places_messages (hforbids : settings.ForbidsDebuggers) {part : Part} {e : Extract}
    {statement : Statement} (hpart : part ∈ m.kept) (houtcome : part.outcome = .ok e)
    (h : statement ∈ e.script.debuggers) :
    statement.span.shifted part.segment.offset ∈ places (settings.messages links graph m) := by
  obtain ⟨setting, hsetting, hrule, hseverity⟩ := hforbids
  obtain ⟨index, hindex⟩ := List.mem_iff_getElem?.mp hpart
  refine List.mem_filterMap.mpr ⟨⟨index, part.segment.offset, setting.rule.name,
    setting.severity, Rule.debuggerFinding statement⟩, ?_, rfl⟩
  refine List.mem_flatMap.mpr ⟨(part, index), List.mk_mem_zipIdx_iff_getElem?.mpr hindex, ?_⟩
  refine mem_saidOf.mpr ⟨e, houtcome, setting, hsetting, ?_⟩
  have hfinding : Rule.debuggerFinding statement ∈
      (setting.rule.check (subject links graph m index part.segment e)).findings := by
    rw [hrule]
    exact List.mem_map_of_mem h
  have hruns (subject : Subject) :
      (applies setting subject && (setting.rule.check subject).failure?.isNone) = true := by
    have hoff : (setting.severity != .off) = true := by simpa using hseverity
    rw [applies, hoff, hrule]
    rfl
  rw [said, if_pos (hruns _)]
  exact List.mem_map_of_mem hfinding

end AnalysisSettings

namespace Linter

variable {l : Linter} {files : MemoryFiles} {p : Path} {form : FileForm} {text : Bytes}
  {settings : AnalysisSettings} {links : Nat → Table Interface} {graph : Option ModuleGraph}

/-- The segments of a file that was read. -/
theorem segments_of_read (hform : l.loading.loaders.find? p.extension = some form)
    (hread : (files.attemptRead p).1 = .ok text) :
    l.segments files p = (form.split p.extension text).toOption.getD [] := by
  have hread : (FileStore.read p files).1 = .ok text := hread
  simp only [Linter.segments, hform, hread]

theorem laid_segments (hform : l.loading.loaders.find? p.extension = some form)
    (hread : (files.attemptRead p).1 = .ok text) (hlength : text.length < 2 ^ 32) :
    LaidFrom text 0 (l.segments files p) := by
  rw [segments_of_read hform hread]
  cases hsplit : form.split p.extension text with
  | error f => exact ⟨fun _ hs => absurd hs List.not_mem_nil, .nil⟩
  | ok segments => exact FileForm.laid_split hlength hsplit

theorem content_of_read (hkeeps : l.loading.keeps (l.entries.contains p) = true)
    (hform : l.loading.loaders.find? p.extension = some form)
    (hread : (files.attemptRead p).1 = .ok text) :
    (l.module files p).content = some ⟨default, text⟩ := by
  have hread : (FileStore.read p files).1 = .ok text := hread
  simp only [Linter.module, hform, hread, Module.keeping, hkeeps, if_true]

/-- **The places of the fixes** are those of the `debugger` statements. -/
theorem mem_places_module (hrules : ∀ setting ∈ settings.rules, setting.rule ∈ Rule.builtin)
    (hforbids : settings.ForbidsDebuggers)
    (hkeeps : l.loading.keeps (l.entries.contains p) = true) (place : Span) :
    place ∈ AnalysisSettings.places (settings.messages links graph (l.module files p)) ↔
      place ∈ (l.segments files p).flatMap Segment.debuggers := by
  have hkept : (l.module files p).kept = _ := kept_module hkeeps
  constructor
  · intro h
    obtain ⟨message, hmessage, hplace⟩ := List.mem_filterMap.mp h
    obtain ⟨f, hf, rfl⟩ := Option.map_eq_some_iff.mp hplace
    obtain ⟨_, part, hpart, e, houtcome, statement, hstatement, rfl⟩ :=
      AnalysisSettings.fix_of_mem_messages hrules hmessage hf
    rw [hkept] at hpart
    obtain ⟨⟨segment, index⟩, hsegment, rfl⟩ := List.mem_map.mp hpart
    have hsegment := List.mem_of_getElem? (List.mem_zipIdx_iff_getElem?.mp hsegment)
    refine List.mem_flatMap.mpr ⟨segment, hsegment, ?_⟩
    rw [Segment.debuggers, LoadSettings.parse_of_part houtcome]
    exact List.mem_map_of_mem hstatement
  · intro h
    obtain ⟨segment, hsegment, hplace⟩ := List.mem_flatMap.mp h
    unfold Segment.debuggers at hplace
    split at hplace
    case h_2 => cases hplace
    case h_1 script hparse =>
      obtain ⟨statement, hstatement, rfl⟩ := List.mem_map.mp hplace
      obtain ⟨index, hindex⟩ := List.mem_iff_getElem?.mp hsegment
      have hpart : l.loading.part files p (l.entries.contains p) (l.module files p).composite index
          segment ∈ (l.module files p).kept := by
        rw [hkept]
        exact List.mem_map.mpr ⟨(segment, index),
          List.mk_mem_zipIdx_iff_getElem?.mpr hindex, rfl⟩
      exact AnalysisSettings.mem_places_messages hforbids hpart
        (LoadSettings.outcome_of_ok hparse) hstatement

/-- **What is written for a file** is its text without the `debugger` statements, if there are
any. -/
theorem written_eq {g : ModuleGraph} {cross : Bool}
    (hrules : ∀ setting ∈ settings.rules, setting.rule ∈ Rule.builtin)
    (hforbids : settings.ForbidsDebuggers) (hfix : settings.fix = true)
    (hkeeps : l.loading.keeps (l.entries.contains p) = true)
    (hform : l.loading.loaders.find? p.extension = some form)
    (hread : (files.attemptRead p).1 = .ok text) (hlength : text.length < 2 ^ 32) :
    settings.written g cross (l.module files p) =
      if (l.segments files p).flatMap Segment.debuggers = [] then none
      else some (Bytes.without ((l.segments files p).flatMap Segment.debuggers) 0 text) := by
  have hpath : (l.module files p).path = p := l.path_module files p
  have hplaces (place : Span) : place ∈ AnalysisSettings.places (settings.messages
        (Analyzing.links g p) (if cross then some g else none) (l.module files p)) ↔
      place ∈ (l.segments files p).flatMap Segment.debuggers :=
    mem_places_module hrules hforbids hkeeps place
  unfold AnalysisSettings.written
  rw [content_of_read hkeeps hform hread, AnalysisSettings.messages_inspections, hpath]
  simp only [Option.bind_some, hfix, Bool.true_and]
  generalize hmessages : settings.messages (Analyzing.links g p) (if cross then some g else none)
    (l.module files p) = messages at hplaces ⊢
  rw [AnalysisSettings.fixed]
  generalize hproposed : (AnalysisSettings.proposals messages).map Prod.fst = fixes
  have hspans : fixes.map Fix.span = AnalysisSettings.places messages :=
    hproposed ▸ AnalysisSettings.places_eq messages
  have hdeletes : ∀ f ∈ fixes, f.content = [] := by
    intro f hf
    rw [← hproposed] at hf
    obtain ⟨⟨_, owner⟩, hproposal, rfl⟩ := List.mem_map.mp hf
    obtain ⟨message, hmessage, hfix⟩ := AnalysisSettings.mem_proposals.mp hproposal
    have hmessage := List.mem_of_getElem? hmessage
    rw [← hmessages] at hmessage
    obtain ⟨_, _, _, _, _, _, _, rfl⟩ :=
      AnalysisSettings.fix_of_mem_messages hrules hmessage hfix
    rfl
  have hseparate : Span.Separate text.length (fixes.map Fix.span) :=
    ((laid_segments hform hread hlength).separate hlength).mono fun place hplace =>
      (hplaces place).mp (hspans ▸ hplace)
  have houtput : (Fix.apply text fixes).output =
      Bytes.without ((l.segments files p).flatMap Segment.debuggers) 0 text := by
    rw [Fix.output_apply hseparate hdeletes, hspans]
    exact Bytes.without_congr fun i _ => Span.covered_congr hplaces
  have hnone : fixes = [] ↔ (l.segments files p).flatMap Segment.debuggers = [] := by
    rw [← List.map_eq_nil_iff (f := Fix.span), hspans, List.eq_nil_iff_forall_not_mem,
      List.eq_nil_iff_forall_not_mem]
    exact forall_congr' fun place => not_congr (hplaces place)
  have hchanged := Fix.changed_iff hseparate
  rw [houtput]
  split
  case isTrue h => rw [if_neg fun hempty => hchanged.mp h (hnone.mpr hempty)]
  case isFalse h => rw [if_pos (hnone.mp (by_contra fun hne => h (hchanged.mpr hne)))]

/-- What is written for a file deletes a `debugger` statement of one of its segments. -/
theorem exists_debugger_of_written {g : ModuleGraph} {cross : Bool} {out : Bytes}
    (hrules : ∀ setting ∈ settings.rules, setting.rule ∈ Rule.builtin)
    (h : settings.written g cross (l.module files p) = some out) :
    settings.fix = true ∧ settings.ForbidsDebuggers ∧
      ∃ part ∈ (l.module files p).kept, ∃ e, part.outcome = .ok e ∧ e.script.debuggers ≠ [] := by
  unfold AnalysisSettings.written at h
  obtain ⟨c, hc, h⟩ := Option.bind_eq_some_iff.mp h
  rw [AnalysisSettings.messages_inspections] at h
  generalize (if cross then some g else none) = graph at h
  generalize hmessages : settings.messages (Analyzing.links g (l.module files p).path) graph
    (l.module files p) = messages at h
  simp only at h
  split at h
  case isFalse => cases h
  case isTrue hchanged =>
    obtain ⟨hfix, hchanged⟩ := Bool.and_eq_true_iff.mp hchanged
    -- something is proposed, as nothing changes otherwise
    obtain ⟨message, hmessage, f, hf⟩ : ∃ message ∈ messages, ∃ f, message.fix? = some f := by
      by_contra hnone
      have hproposals : AnalysisSettings.proposals messages = [] := by
        refine List.eq_nil_iff_forall_not_mem.mpr fun x hx => hnone ?_
        obtain ⟨message, hmessage, hf⟩ := AnalysisSettings.mem_proposals.mp hx
        exact ⟨message, List.mem_of_getElem? hmessage, x.1, hf⟩
      rw [AnalysisSettings.fixed, hproposals] at hchanged
      exact (Fix.changed_iff (Span.separate_of_pairwise (by simp) .nil)).mp hchanged rfl
    rw [← hmessages] at hmessage
    obtain ⟨hforbids, part, hpart, e, houtcome, statement, hstatement, _⟩ :=
      AnalysisSettings.fix_of_mem_messages hrules hmessage hf
    exact ⟨hfix, hforbids, part, hpart, e, houtcome, List.ne_nil_of_mem hstatement⟩

end Linter

/-! ### Texts without their `debugger` statements -/

/-- The `debugger` words of all segments can be deleted, and the text is cut into what is left of
the segments when they are. -/
def FileForm.Settles (form : FileForm) (extension text : Bytes) : Prop :=
  ∀ segments, form.split extension text = .ok segments →
    (∀ s ∈ segments, s.DebuggersLoose) ∧
      ∃ segments', form.split extension
          (Bytes.without (segments.flatMap Segment.debuggers) 0 text) = .ok segments' ∧
        segments'.map Segment.atStart = segments.map fun s => s.fixed.atStart

/-- A script settles if its `debugger` words can be deleted. -/
theorem FileForm.settles_script {extension text : Bytes} {dialect : Dialect}
    (hdialect : Dialect.ofExtension? extension = some dialect)
    (h : Segment.DebuggersLoose ⟨text, 0, dialect⟩) : FileForm.script.Settles extension text := by
  have hsplit (text : Bytes) : FileForm.script.split extension text = .ok [⟨text, 0, dialect⟩] := by
    simp [FileForm.split, Segment.ofScript, hdialect]
  intro segments hsegments
  obtain rfl := Except.ok.inj ((hsplit text).symm.trans hsegments)
  refine ⟨List.forall_mem_singleton.mpr h, _, hsplit _, ?_⟩
  simp only [List.map_cons, List.map_nil, List.flatMap_singleton, List.cons.injEq, and_true]
  unfold Segment.debuggers Segment.fixed
  cases (⟨text, 0, dialect⟩ : Segment).parse with
  | error f => simp [Segment.atStart, Bytes.without_eq_self, Span.covered]
  | ok script => simp [Segment.atStart]

/-- **A markup file settles** if its `debugger` words can be deleted, and no script comes to hold a
closing tag when they are. -/
theorem FileForm.settles_markup {extension text : Bytes} (hlength : text.length < 2 ^ 32)
    (h : ∀ segments, Segment.ofMarkup text = .ok segments → ∀ s ∈ segments, s.DebuggersLoose ∧
      ¬ ("</script" : Bytes) <:+: s.fixed.text.map Bytes.toLower) :
    FileForm.markup.Settles extension text := by
  intro segments hsegments
  refine ⟨fun s hs => (h segments hsegments s hs).1, ?_⟩
  exact (Segment.ofMarkupFrom_without hlength hsegments
    (fun s hs => (h segments hsegments s hs).2) 0).2

/-- A `<` comes to stand before `/script/` when the `debugger` between them is deleted. -/
example :
    let texts (text : Bytes) : Option (List Bytes) :=
      (Segment.ofMarkup text).toOption.map (List.map Segment.text)
    let fixed (text : Bytes) : Option (List Bytes) :=
      (Segment.ofMarkup text).toOption.map (List.map fun s => s.fixed.text)
    fixed "<script>a <debugger;/script/</script>" = some [("a </script/" : Bytes)] ∧
      texts "<script>a </script/</script>" = some [("a " : Bytes)] := by
  decide +kernel

/-- **Nothing is to be fixed** in the segments of a text that has settled. -/
theorem FileForm.Settles.debuggers_nil {form : FileForm} {extension text : Bytes}
    {segments segments' : List Segment} (h : form.Settles extension text)
    (hlength : text.length < 2 ^ 32) (hsplit : form.split extension text = .ok segments)
    (hsplit' : form.split extension (Bytes.without (segments.flatMap Segment.debuggers) 0 text) =
      .ok segments') {s' : Segment} (hs' : s' ∈ segments') {script' : Script}
    (hparse' : s'.parse = .ok script') : script'.debuggers = [] := by
  obtain ⟨hloose, segments'', hcut, hfixed⟩ := h segments hsplit
  obtain rfl := Except.ok.inj (hsplit'.symm.trans hcut)
  have hmem : s'.atStart ∈ segments'.map Segment.atStart := List.mem_map_of_mem hs'
  rw [hfixed] at hmem
  obtain ⟨s, hs, hsame⟩ := List.mem_map.mp hmem
  have hinside := ((FileForm.laid_split hlength hsplit).liesIn s hs).1.inside
  have hparse : s.fixed.atStart.parse = .ok script' := hsame ▸ Segment.parse_atStart hparse'
  cases hread : s.parse with
  | error f =>
    obtain ⟨_, hparse', _⟩ := Segment.parse_atStart_error hread
    have hsame : s.fixed = s := by rw [Segment.fixed, hread]
    rw [hsame, hparse'] at hparse
    cases hparse
  | ok script =>
    obtain ⟨script'', hparse'', hnone⟩ := Segment.parse_fixed (by omega) hread (hloose s hs)
    have hparse'' := Segment.parse_atStart hparse''
    rw [hparse] at hparse''
    rw [Except.ok.inj hparse'', hnone]

/-! ### Two runs -/

namespace Linter

variable {l : Linter} {files : MemoryFiles} {loaded : List Path} {analyses : List Analysis}
  {state : RunState MemoryFiles} {p : Path} {form : FileForm} {text : Bytes}

/-- Reading a file does not depend on how its path is spelled. -/
theorem read_congr {q : Path} (hkey : p.key = q.key) (hread : (files.attemptRead p).1 = .ok text) :
    (files.attemptRead q).1 = .ok text := by
  rcases files.attemptRead_spelling hkey with hsame | ⟨_, _, herror, _, _⟩
  · exact hsame ▸ hread
  · rw [herror] at hread
    cases hread

theorem segments_congr {q : Path} (hkey : q.key = p.key)
    (hread : (files.attemptRead p).1 = .ok text) : l.segments files q = l.segments files p := by
  have hread' : (FileStore.read q files).1 = .ok text := read_congr hkey.symm hread
  have hread : (FileStore.read p files).1 = .ok text := hread
  rw [segments, segments, hread, hread', Path.extension_congr hkey]

/-- Whether a write succeeds does not depend on what is written. -/
theorem write_congr {files' : MemoryFiles} (hplans : files.plans = files'.plans) {q : Path}
    (hkey : p.key = q.key) {out out' : Bytes} (h : (files.attemptWrite p out).1 = .ok ()) :
    (files'.attemptWrite q out').1 = .ok () := by
  rw [MemoryFiles.attemptWrite_fst hplans hkey] at h
  unfold MemoryFiles.attemptWrite at h ⊢
  simp only at h ⊢
  split at h <;> simp_all

/-- **After a run** with fixing a file that it has analyzed is without its `debugger`
statements, if it can be written. -/
theorem Between.content_without (h : Between l files loaded analyses [] state)
    (hrules : ∀ setting ∈ l.rules, setting.rule ∈ Rule.builtin)
    (hforbids : l.analysisSettings.ForbidsDebuggers) (hfix : l.options.fix = true)
    (hloaded : p.key ∈ loaded.map Path.key)
    (hkeeps : l.loading.keeps (l.entries.contains p) = true)
    (hform : l.loading.loaders.find? p.extension = some form)
    (hread : (files.attemptRead p).1 = .ok text) (hlength : text.length < 2 ^ 32)
    (hwrite : ∀ out, (files.attemptWrite p out).1 = .ok ()) :
    state.resources.files.content p =
      some (Bytes.without ((l.segments files p).flatMap Segment.debuggers) 0 text) := by
  obtain ⟨q, hq, hkey⟩ := List.mem_map.mp hloaded
  have hkeeps' {q : Path} (hkey : q.key = p.key) :
      l.loading.keeps (l.entries.contains q) = true := by
    rwa [PathSet.contains_congr l.entries hkey]
  have hform' {q : Path} (hkey : q.key = p.key) :
      l.loading.loaders.find? q.extension = some form := by
    rwa [Path.extension_congr hkey]
  -- the file was analyzed
  have hkept : l.Kept files q = true := by
    rw [Kept, content_of_read (hkeeps' hkey) (hform' hkey) (read_congr hkey.symm hread)]
    rfl
  have hanalyzed : p.key ∈ analyses.map fun a => a.path.key :=
    (h.mem_analyses p.key).mpr ⟨q, hq, hkept, hkey⟩
  rw [h.stored.content p, textOf]
  cases hfind : analyses.find? fun a => a.path.key = p.key with
  | none => exact absurd hanalyzed (find?_key_eq_none.mp hfind)
  | some a =>
    have hkey : a.path.key = p.key := by simpa using List.find?_some hfind
    obtain ⟨g, _, ha⟩ := h.analyzed a (List.mem_of_find?_eq_some hfind)
    have hwritten : l.analysisSettings.written g l.options.crossModule (l.module files a.path) =
        _ := written_eq hrules hforbids hfix (hkeeps' hkey) (hform' hkey)
      (read_congr hkey.symm hread) hlength
    rw [segments_congr hkey hread] at hwritten
    have hafter : a.after = textAfter files p (l.analysisSettings.written g l.options.crossModule
        (l.module files a.path)) := by
      rw [← textAfter_congr hkey, ha]
      rfl
    simp only [hafter, hwritten]
    split
    case isTrue hempty =>
      rw [hempty, Bytes.without_eq_self fun _ _ => rfl]
      exact MemoryFiles.content_of_attemptRead files hread
    case isFalse =>
      exact MemoryFiles.content_attemptWrite_self files rfl (hwrite _)

/-- A run that writes to a file has something to write for it. -/
theorem Between.exists_written (h : Between l files loaded analyses [] state)
    (hne : state.resources.files.writes p ≠ files.writes p) :
    ∃ g q out, q.key = p.key ∧
      l.analysisSettings.written g l.options.crossModule (l.module files q) = some out ∧
      (files.attemptWrite q out).1 = .ok () := by
  obtain ⟨a, ha, hwritten⟩ : ∃ a ∈ analyses, (decide (a.path.key = p.key) && a.counts.written) :=
    List.countP_pos_iff.mp (by have := h.stored.writes p; omega)
  obtain ⟨hkey, hwritten⟩ := Bool.and_eq_true_iff.mp hwritten
  obtain ⟨g, _, heq⟩ := h.analyzed a ha
  rw [heq] at hwritten
  obtain ⟨out, hout, hwrite⟩ := written_analysis.mp hwritten
  exact ⟨g, a.path, out, by simpa using hkey, hout, hwrite⟩

end Linter

namespace LintSession

variable {s : LintSession}

/-- **Fixing settles.**  If the `debugger` words of a script can be deleted, the fixes of
`no-debugger` leave one that can be read and in which it reports nothing.  If that is so for the
segments of a file which a run loads, and these are what the text is cut into afterwards, a second
run over the same paths does not write to the file. -/
theorem run_settles (hrules : ∀ r ∈ s.rules, r.rule ∈ Rule.builtin) :
    (∀ subject : Subject, subject.segment.parse = .ok subject.script →
      subject.segment.text.length < 2 ^ 32 → subject.segment.DebuggersLoose →
      ∃ script,
        Segment.parse { subject.segment with
          text := (Fix.apply subject.segment.text
            ((Rule.noDebugger.check subject).findings.filterMap Finding.fix)).output } =
          .ok script ∧
        ∀ subject' : Subject, subject'.script = script →
          (Rule.noDebugger.check subject').findings = []) ∧
    ∀ (paths : List Path) (files : MemoryFiles) (pool : Arena.Pool) (loaded loaded' : List Path)
      (state state' : RunState MemoryFiles) (p : Path) (form : FileForm) (text : Bytes),
      s.Finishes paths ⟨files, pool⟩ loaded state →
      s.Finishes paths state.resources loaded' state' →
      p.key ∈ loaded.map Path.key → (files.attemptRead p).1 = .ok text → text.length < 2 ^ 32 →
      s.loaders.find? p.extension = some form → form.Settles p.extension text →
      state'.resources.files.writes p = state.resources.files.writes p := by
  constructor
  · intro subject hparse hlength hloose
    obtain ⟨script, hfixed, hnone⟩ := Segment.parse_fixed hlength hparse hloose
    refine ⟨script, ?_, fun subject' hscript => ?_⟩
    · rw [Rule.fixes_noDebugger, Segment.output_fixes hlength hparse, ← hfixed,
        Segment.fixed_of_ok hparse]
    · exact Rule.noDebugger_findings (hscript ▸ hnone)
  · intro paths files pool loaded loaded' state state' p form text h h' hloaded hread hlength hform
      hsettles
    obtain ⟨analyses, h⟩ := h.between
    obtain ⟨analyses', h'⟩ := h'.between
    by_contra hne
    -- the second run deletes a `debugger` statement
    obtain ⟨g, q, out, hkey, hwritten, hwrite⟩ := h'.exists_written hne
    obtain ⟨hfix, hforbids, part, hpart, e, houtcome, hdebuggers⟩ :=
      Linter.exists_debugger_of_written hrules hwritten
    obtain ⟨form', text', segments', hform', hread', hsplit', hcontent', hsegment, hparse⟩ :=
      Linter.mem_kept_module hpart
    have hkeeps :
        (s.linterOf paths).loading.keeps ((s.linterOf paths).entries.contains p) = true := by
      obtain ⟨c, hc, _⟩ := Option.bind_eq_some_iff.mp hwritten
      have hkept : (s.linterOf paths).Kept state.resources.files q = true := by
        rw [Linter.Kept, hc]
        rfl
      rw [← PathSet.contains_congr _ hkey]
      exact Linter.keeps_of_kept hkept
    -- it stands in what the first run has left
    have htext := h.content_without hrules hforbids hfix hloaded hkeeps hform hread hlength
      fun out => Linter.write_congr h.stored.plans hkey hwrite
    rw [MemoryFiles.content_eq, ← MemoryFiles.find?_congr _ hkey, ← MemoryFiles.content_eq,
      MemoryFiles.content_of_attemptRead _ hread'] at htext
    rw [Path.extension_congr hkey] at hform' hsplit'
    obtain rfl := Option.some.inj (hform.symm.trans hform')
    rw [Option.some.inj htext, Linter.segments_of_read hform hread] at hsplit'
    cases hsplit : form.split p.extension text with
    | error f =>
      simp only [hsplit, Except.toOption, Option.getD_none, List.flatMap_nil] at hsplit'
      rw [Bytes.without_eq_self fun _ _ => rfl, hsplit] at hsplit'
      cases hsplit'
    | ok segments =>
      rw [hsplit] at hsplit'
      exact hdebuggers (hsettles.debuggers_nil hlength hsplit hsplit' hsegment (hparse e houtcome))

/-- A script in which a function and the module level have a `debugger`. -/
def nestedDebuggers : Bytes := "f(() => { debugger; });\ndebugger;\ng();\n"

/-- Such a script can be read afterwards, and is not written a second time. -/
theorem run_settles_nested :
    (∃ script script', Segment.parse ⟨nestedDebuggers, 0, ⟨false, true⟩⟩ = .ok script ∧
      Segment.parse ⟨(Fix.apply nestedDebuggers script.fixes).output, 0, ⟨false, true⟩⟩ =
        .ok script' ∧ script'.debuggers = []) ∧
    ∃ report r report' r',
      fixing.run [⟨"/a.js"⟩] ⟨oneFile nestedDebuggers, fixing.pool⟩ = (.ok report, r) ∧
      fixing.run [⟨"/a.js"⟩] r = (.ok report', r') ∧
      r'.files.writes ⟨"/a.js"⟩ = r.files.writes ⟨"/a.js"⟩ := by
  have hrules : ∀ r ∈ fixing.rules, r.rule ∈ Rule.builtin := by
    simp [fixing, standard, Rule.defaults]
  obtain ⟨hparse, hruns⟩ := run_settles (s := fixing) hrules
  have hloose : Segment.DebuggersLoose ⟨nestedDebuggers, 0, ⟨false, true⟩⟩ := by decide +kernel
  have hlength : nestedDebuggers.length < 2 ^ 32 := by decide
  constructor
  · have hread : (Segment.parse ⟨nestedDebuggers, 0, ⟨false, true⟩⟩).toOption.isSome = true := by
      decide +kernel
    cases hscript : Segment.parse ⟨nestedDebuggers, 0, ⟨false, true⟩⟩ with
    | error f =>
      rw [hscript] at hread
      cases hread
    | ok script =>
      let subject : Subject :=
        ⟨⟨"/a.js"⟩, 0, ⟨nestedDebuggers, 0, ⟨false, true⟩⟩, script, none, none, none⟩
      obtain ⟨script', hscript', hnone⟩ := hparse subject hscript hlength hloose
      rw [Rule.fixes_noDebugger] at hscript'
      refine ⟨script, script', rfl, hscript', ?_⟩
      exact List.map_eq_nil_iff.mp (hnone { subject with script := script' } rfl)
  · obtain ⟨loaded, state, h, hrun⟩ := fixing.exists_finishes
      (List.cons_ne_nil (⟨"/a.js"⟩ : Path) []) ⟨oneFile nestedDebuggers, fixing.pool⟩
    obtain ⟨loaded', state', h', hrun'⟩ := fixing.exists_finishes
      (List.cons_ne_nil (⟨"/a.js"⟩ : Path) []) state.resources
    have hkey : (Path.absoluteFrom ⟨"/a.js"⟩ fixing.options.directory).key =
        Path.key ⟨"/a.js"⟩ := by decide
    have hloaded : Path.key ⟨"/a.js"⟩ ∈ loaded.map Path.key :=
      hkey ▸ h.closes.least.1.1 _ List.mem_cons_self
    refine ⟨_, _, _, _, hrun, hrun', ?_⟩
    exact hruns _ _ _ _ _ _ _ _ .script _ h h' hloaded (by decide) hlength
      (by decide) (FileForm.settles_script (by decide) hloose)

/-- A script that exports a name as `debugger`. -/
def exportedDebugger : Segment := ⟨"let x = 1;\nexport { x as debugger };\n", 0, ⟨false, true⟩⟩

/-- The exported name is taken for a statement, and what is left of the export when it is deleted
cannot be read. -/
theorem fixes_break_export :
    ∃ subject : Subject, subject.segment = exportedDebugger ∧
      subject.segment.parse = .ok subject.script ∧
      ∀ script, Segment.parse { subject.segment with
        text := (Fix.apply subject.segment.text
          ((Rule.noDebugger.check subject).findings.filterMap Finding.fix)).output } ≠
        .ok script := by
  have hread : exportedDebugger.parse.toOption.isSome = true := by decide +kernel
  have hbroken : exportedDebugger.parse.toOption.all (fun script =>
      let output := (Fix.apply exportedDebugger.text script.fixes).output
      (Segment.parse { exportedDebugger with text := output }).toOption.isNone) = true := by
    decide +kernel
  cases hscript : exportedDebugger.parse with
  | error f =>
    rw [hscript] at hread
    cases hread
  | ok script =>
    rw [hscript] at hbroken
    refine ⟨⟨⟨"/a.js"⟩, 0, exportedDebugger, script, none, none, none⟩, rfl, hscript,
      fun script' hscript' => ?_⟩
    rw [Rule.fixes_noDebugger] at hscript'
    simp [Except.toOption, hscript'] at hbroken

end LintSession

end ScriptLint
