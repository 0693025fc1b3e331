/-
What is found in a segment.

The rules look at each segment of a file by itself.  What a known rule finds there it finds in
the script alone too, so its messages differ only in the number of the segment and in its
offset; this is also true of what is left of them when the fixes of the file have been made.

* **`AnalysisSettings.findings`** — what the known rules say about a module, as problems;
* **`AnalysisSettings.known_unwritten`**, **`AnalysisSettings.known_written`** — what an
  analysis reports of that;
* **`AnalysisSettings.findingsOf_eq`** — the findings about a segment and those about the
  script alone;
* **`AnalysisSettings.remainingOf_eq`** — the same behind the fixes.
-/
import ScriptLint.Proofs.FirstFixes
import ScriptLint.Proofs.Offsets

namespace ScriptLint

/-! ### Problems of segments -/

/-- The problem of a script alone, as one of the segment with a number and an offset. -/
def Diagnostic.moved (offset : UInt32) (index : Nat) (d : Diagnostic) : Diagnostic :=
  { d with segment := some index, span := d.span.map (·.shifted offset) }

/-- The problems of the segment with a number. -/
def Diagnostic.ofSegment (index : Nat) (ds : List Diagnostic) : List Diagnostic :=
  ds.filter fun d => d.segment = some index

/-- The problems that go by the name of a known rule. -/
def Diagnostic.known (ds : List Diagnostic) : List Diagnostic :=
  ds.filter fun d => d.code ∈ Rule.builtin.map Rule.name

theorem Diagnostic.known_moved {ds : List Diagnostic} {offset : UInt32} {index : Nat} :
    known (ds.map (moved offset index)) = (known ds).map (moved offset index) := by
  rw [known, List.filter_map]
  rfl

/-- The problem lies inside of the segment, in offsets of the file. -/
def Diagnostic.LiesIn (segment : Segment) (d : Diagnostic) : Prop :=
  ∃ span, d.span = some span ∧
    span.Within segment.offset.toNat (segment.offset.toNat + segment.text.length)

/-- The places of a record are found again after the move into the segment. -/
structure Interface.RoundTrips (segment : Segment) (i : Interface) : Prop where
  requests : ∀ r ∈ i.requests, (segment.toLocal r.span).shifted segment.offset = r.span
  imports : ∀ n ∈ i.imports, (segment.toLocal n.span).shifted segment.offset = n.span

/-- A rule that goes by the name of a known one is that one. -/
def RuleSet.Genuine (rules : RuleSet) : Prop :=
  ∀ setting ∈ rules, setting.rule.name ∈ Rule.builtin.map Rule.name → setting.rule ∈ Rule.builtin

/-- Whatever is written to the path, the write succeeds. -/
def FileStore.Accepts {σ : Type} [FileStore σ] (files : σ) (path : Path) : Prop :=
  ∀ text, (FileStore.write path text files).1 = .ok ()

/-- Whatever is written to the path, the write fails. -/
def FileStore.Refuses {σ : Type} [FileStore σ] (files : σ) (path : Path) : Prop :=
  ∀ text, ∃ e, (FileStore.write path text files).1 = .error (.failed e)

/-! ### Loading -/

namespace LoadSettings

variable {σ : Type} [FileStore σ] {s : LoadSettings} {files : σ} {path : Path}
  {entry composite : Bool} {index : Nat} {segment : Segment} {script : Script}

/-- The interface that a script is loaded with; dependencies may have none. -/
def interfaceOf (s : LoadSettings) (path : Path) (entry : Bool) (index : Nat) (offset : UInt32)
    (script : Script) : Interface :=
  if entry || s.extractDependencies then .ofScript path index offset script
  else { path, segment := index }

theorem outcome_of_error {f : Failure} (hparse : segment.parse = .error f) :
    (s.part files path entry composite index segment).outcome =
      .error { f.diagnostic with path, segment := if composite then some index else none } := by
  simp only [part, hparse]

/-- What is loaded of a segment that can be parsed. -/
def extractOf (s : LoadSettings) (files : σ) (path : Path) (entry : Bool) (index : Nat)
    (segment : Segment) (script : Script) : Extract :=
  let interface := s.interfaceOf path entry index segment.offset script
  ⟨script, interface, s.resolutions files interface⟩

theorem outcome_of_ok (hparse : segment.parse = .ok script) :
    (s.part files path entry composite index segment).outcome =
      .ok (s.extractOf files path entry index segment script) := by
  simp only [part, hparse]
  rfl

section

variable (hfits : segment.Fits) (hparse : segment.parse = .ok script)
include hfits hparse

theorem requests_interfaceOf (index : Nat) :
    (s.interfaceOf path entry index segment.offset script).requests.map
        (Request.inSegment segment) =
      if entry || s.extractDependencies then script.body.filterMap (Interface.requestOf 0)
      else [] := by
  unfold interfaceOf
  split
  · exact Segment.requests_inSegment hfits hparse path index
  · rfl

theorem imports_interfaceOf (index : Nat) :
    (s.interfaceOf path entry index segment.offset script).imports.map
        (ImportedName.inSegment segment) =
      if entry || s.extractDependencies then script.body.flatMap (Interface.importsOf 0)
      else [] := by
  unfold interfaceOf
  split
  · exact Segment.imports_inSegment hfits hparse path index
  · rfl

/-- What a loaded record asks for is at places inside of the segment. -/
theorem within_interfaceOf (index : Nat) :
    (∀ r ∈ (s.interfaceOf path entry index segment.offset script).requests.map
        (Request.inSegment segment), r.span.Within 0 segment.text.length) ∧
    ∀ n ∈ (s.interfaceOf path entry index segment.offset script).imports.map
        (ImportedName.inSegment segment), n.span.Within 0 segment.text.length := by
  rw [requests_interfaceOf hfits hparse, imports_interfaceOf hfits hparse]
  split
  · exact ⟨Segment.within_requests hfits hparse, Segment.within_imports hfits hparse⟩
  · simp

/-- **The places of a loaded record** survive the way into the segment and back. -/
theorem roundTrips_interfaceOf (index : Nat) :
    (s.interfaceOf path entry index segment.offset script).RoundTrips segment := by
  unfold interfaceOf
  split
  · exact ⟨Segment.shifted_toLocal_requests hfits hparse path index,
      Segment.shifted_toLocal_imports hfits hparse path index⟩
  · exact ⟨by simp, by simp⟩

end

end LoadSettings

/-! ### Messages of segments -/

/-- Of what comes from the items of a list, that from the item at one position is kept. -/
theorem filter_flatMap_of_getElem? {α β : Type} {xs : List α} {n : Nat} {x : α} {f : α → List β}
    {p : β → Bool} (hx : xs[n]? = some x) (hown : ∀ b ∈ f x, p b = true)
    (hothers : ∀ k y, k ≠ n → xs[k]? = some y → ∀ b ∈ f y, p b = false) :
    (xs.flatMap f).filter p = f x := by
  induction xs generalizing n with
  | nil => cases hx
  | cons y rest ih =>
    rw [List.flatMap_cons, List.filter_append]
    cases n with
    | zero =>
      obtain rfl := Option.some.inj hx
      have hrest : (rest.flatMap f).filter p = [] := by
        refine List.filter_eq_nil_iff.mpr fun b hb => ?_
        obtain ⟨z, hz, hb⟩ := List.mem_flatMap.mp hb
        obtain ⟨k, hk⟩ := List.mem_iff_getElem?.mp hz
        simp [hothers (k + 1) z (Nat.succ_ne_zero k) hk b hb]
      rw [hrest, List.append_nil, List.filter_eq_self.mpr hown]
    | succ n =>
      have hfirst : (f y).filter p = [] :=
        List.filter_eq_nil_iff.mpr fun b hb => by
          simp [hothers 0 y (Nat.succ_ne_zero n).symm rfl b hb]
      rw [hfirst, List.nil_append]
      exact ih hx fun k z hk hz => hothers (k + 1) z (fun h => hk (Nat.succ.inj h)) hz

/-- Of what is said about the items of a list, by their numbers, that about one item. -/
theorem Diagnostic.ofSegment_flatMap {α : Type} {xs : List α} {index : Nat} {x : α}
    {about : α × Nat → List Diagnostic} (hx : xs[index]? = some x)
    (hnumber : ∀ y, ∀ d ∈ about y, d.segment = some y.2) :
    Diagnostic.ofSegment index (xs.zipIdx.flatMap about) = about (x, index) := by
  refine filter_flatMap_of_getElem? (n := index) (x := (x, index)) (by simp [hx])
    (fun d hd => by simp [hnumber _ d hd]) fun k y hk hy d hd => ?_
  rw [List.getElem?_zipIdx] at hy
  obtain ⟨other, _, rfl⟩ := Option.map_eq_some_iff.mp hy
  have hsegment := hnumber _ d hd
  simp only [Nat.zero_add] at hsegment
  simpa [hsegment] using hk

/-- The message of a script alone, as one of the segment with a number and an offset. -/
def Message.moved (offset : UInt32) (index : Nat) (message : Message) : Message :=
  { message with segment := index, offset }

/-- The message is of a rule that goes by the name of a known one. -/
def Message.isKnown (message : Message) : Bool := message.code ∈ Rule.builtin.map Rule.name

theorem Diagnostic.known_map (m : Module) (messages : List Message) :
    known (messages.map (Message.diagnostic m)) =
      (messages.filter Message.isKnown).map (Message.diagnostic m) := by
  rw [known, List.filter_map]
  rfl

theorem Message.diagnostic_moved {m m' : Module} {message : Message} {offset : UInt32}
    {index : Nat} (hpath : m.path = m'.path) (hcomposite : m.composite = true)
    (hstart : message.offset = 0) :
    (message.moved offset index).diagnostic m = (message.diagnostic m').moved offset index := by
  simp [diagnostic, moved, Diagnostic.shifted, Diagnostic.moved, Module.shownSegment, hcomposite,
    hpath, hstart]

theorem Message.place?_moved {message : Message} {offset : UInt32} {index : Nat}
    (hstart : message.offset = 0) :
    (message.moved offset index).place? = message.place?.map fun span => span.shifted offset := by
  simp [place?, fix?, moved, hstart, Option.map_map, Function.comp_def]

namespace AnalysisSettings

variable {settings : AnalysisSettings} {links : Nat → Table Interface}
  {graph : Option ModuleGraph} {m : Module} {index : Nat} {part : Part}

theorem diagnostics_moved {m' : Module} {messages : List Message} {offset : UInt32}
    (hpath : m.path = m'.path) (hcomposite : m.composite = true)
    (hstart : ∀ message ∈ messages, message.offset = 0) :
    (messages.map (Message.moved offset index)).map (Message.diagnostic m) =
      (messages.map (Message.diagnostic m')).map (Diagnostic.moved offset index) := by
  rw [List.map_map, List.map_map]
  exact List.map_congr_left fun message hmessage =>
    Message.diagnostic_moved hpath hcomposite (hstart message hmessage)

/-- What the known rules say about a module, as problems. -/
def findings (settings : AnalysisSettings) (links : Nat → Table Interface)
    (graph : Option ModuleGraph) (m : Module) : List Diagnostic :=
  Diagnostic.known ((settings.messages links graph m).map (Message.diagnostic m))

/-- What the known rules say about a segment, as problems. -/
def findingsOf (settings : AnalysisSettings) (links : Nat → Table Interface)
    (graph : Option ModuleGraph) (m : Module) (index : Nat) (part : Part) : List Diagnostic :=
  Diagnostic.known ((settings.saidOf links graph m index part).map (Message.diagnostic m))

/-- What is left of that when the fixes of the segment have been made. -/
def remainingOf (settings : AnalysisSettings) (links : Nat → Table Interface)
    (graph : Option ModuleGraph) (m : Module) (index : Nat) (part : Part) : List Diagnostic :=
  Diagnostic.known
    ((unfixed [] (settings.saidOf links graph m index part)).map (Message.diagnostic m))

theorem offset_saidOf {message : Message}
    (h : message ∈ settings.saidOf links graph m index part) :
    message.offset = part.segment.offset := by
  obtain ⟨_, _, _, _, _, _, rfl⟩ := finding_of_mem_saidOf h
  rfl

theorem findings_eq : settings.findings links graph m =
    m.kept.zipIdx.flatMap fun x => settings.findingsOf links graph m x.2 x.1 := by
  rw [findings, messages, List.map_flatMap, Diagnostic.known, List.filter_flatMap]
  rfl

theorem remainingOf_sublist :
    (settings.remainingOf links graph m index part).Sublist
      (settings.findingsOf links graph m index part) :=
  ((unfixed_sublist _ _).map _).filter _

/-- The findings about a segment of a composite module have its number. -/
theorem segment_findingsOf (hcomposite : m.composite = true) :
    ∀ d ∈ settings.findingsOf links graph m index part, d.segment = some index := by
  intro d hd
  obtain ⟨message, hmessage, rfl⟩ := List.mem_map.mp (List.mem_filter.mp hd).1
  obtain ⟨_, _, _, _, _, _, rfl⟩ := finding_of_mem_saidOf hmessage
  simp [Message.diagnostic, Diagnostic.shifted, Module.shownSegment, hcomposite]

/-! ### Reports -/

theorem known_eq_nil {ds : List Diagnostic}
    (h : ∀ d ∈ ds, d.code ∈ [Code.disk, Code.resolve, Code.ruleFailure]) :
    Diagnostic.known ds = [] := by
  have hnames : ∀ code ∈ [Code.disk, Code.resolve, Code.ruleFailure],
      code ∉ Rule.builtin.map Rule.name := by decide
  exact List.filter_eq_nil_iff.mpr fun d hd => by simpa using hnames d.code (h d hd)

theorem known_early : Diagnostic.known (settings.early links graph m) = [] :=
  known_eq_nil fun d hd => by
    rcases code_early hd with hcode | hcode <;> simp [hcode]

/-- Whatever else an analysis says, the known rules are heard in the report on the messages. -/
theorem known_finish {messages : List Message} {more : List Diagnostic} {owners : List Nat}
    {counts : AnalysisCounts} (hmore : ∀ d ∈ more, d.code = Code.disk) :
    Diagnostic.known
        (finish m messages (settings.early links graph m) more owners counts).emitted =
      Diagnostic.known (report m messages owners) := by
  have hothers : Diagnostic.known more = [] := known_eq_nil fun d hd => by simp [hmore d hd]
  have hearly : Diagnostic.known (settings.early links graph m) = [] := known_early
  unfold Diagnostic.known at hothers hearly ⊢
  rw [finish, List.filter_append, List.filter_append, hearly, hothers, List.nil_append,
    List.nil_append]

variable {σ : Type} [FileStore σ] {files : σ} {content : Module.Content}

/-- An analysis reports no more than the findings. -/
theorem known_analyze_sublist (hcontent : m.content = some content) (files : σ) :
    (Diagnostic.known (settings.analyze links graph m files).1.emitted).Sublist
      (settings.findings links graph m) := by
  have hreport (owners : List Nat) :
      (Diagnostic.known (report m (settings.messages links graph m) owners)).Sublist
        (settings.findings links graph m) := (report_sublist m _ _).filter _
  rw [analyze_content hcontent]
  dsimp only
  split
  · split
    · rw [known_early]
      exact List.nil_sublist _
    · rw [known_finish (by simp [writeDiagnostic])]
      exact hreport _
    · rw [known_finish (by simp)]
      exact hreport _
  · rw [known_finish (by simp)]
    exact hreport _

/-- An analysis that writes nothing reports all findings. -/
theorem known_unwritten (hcontent : m.content = some content)
    (hwrite : settings.fix = true → FileStore.Refuses files m.path) :
    Diagnostic.known (settings.analyze links graph m files).1.emitted =
      settings.findings links graph m := by
  have hreport : Diagnostic.known (report m (settings.messages links graph m) []) =
      settings.findings links graph m := by rw [report_nil, findings]
  rw [analyze_content hcontent]
  dsimp only
  split
  case isTrue hchanged =>
    obtain ⟨e, he⟩ := hwrite (Bool.and_eq_true_iff.mp hchanged).1
      (settings.fixedText links graph m content.text)
    rw [he]
    exact (known_finish (by simp [writeDiagnostic])).trans hreport
  case isFalse => exact (known_finish (by simp)).trans hreport

/-- **An analysis whose fixes are written** reports what is left of the findings on each
segment. -/
theorem known_written (hcontent : m.content = some content) (hfix : settings.fix = true)
    (hrules : ∀ setting ∈ settings.rules, setting.rule ∈ Rule.builtin)
    (hcut : m.CutFrom content.text) (hlength : content.text.length < 2 ^ 32)
    (hwrite : FileStore.Accepts files m.path) :
    Diagnostic.known (settings.analyze links graph m files).1.emitted =
      m.kept.zipIdx.flatMap fun x => settings.remainingOf links graph m x.2 x.1 := by
  have hreport : Diagnostic.known (report m (settings.messages links graph m)
      (owners content.text (settings.messages links graph m))) =
        m.kept.zipIdx.flatMap fun x => settings.remainingOf links graph m x.2 x.1 := by
    rw [report_fixed hrules hcut hlength, Diagnostic.known, List.filter_flatMap]
    rfl
  rw [analyze_content hcontent]
  dsimp only
  split
  case isTrue =>
    rw [hwrite]
    exact (known_finish (by simp)).trans hreport
  case isFalse hunchanged =>
    -- nothing was applied, so no message was fixed
    have hnone : owners content.text (settings.messages links graph m) = [] := by
      simp only [hfix, Bool.true_and, FixResult.changed, Bool.not_eq_true', Bool.not_eq_false,
        List.isEmpty_iff] at hunchanged
      rw [owners, hunchanged]
      rfl
    rw [hnone] at hreport
    exact (known_finish (by simp)).trans hreport

end AnalysisSettings

/-! ### What rules say about a segment -/

namespace AnalysisSettings

variable {σ : Type} [FileStore σ] {s : LoadSettings} {files : σ} {path : Path} {entry : Bool}
  {index : Nat} {segment : Segment} {script : Script} {settings : AnalysisSettings}
  {links links' : Nat → Table Interface} {graph : Option ModuleGraph} {m m' : Module}
  {setting : RuleSetting}

/-- The subject of a segment of a file, and that of the script alone. -/
theorem subject_coincides (hfits : segment.Fits) (hparse : segment.parse = .ok script)
    (hpath : m.path = m'.path) (hlinks : links index = links' 0) :
    (subject links graph m index segment
        (s.extractOf files path entry index segment script)).Coincides
      (subject links' graph m' 0 segment.atStart
        (s.extractOf files path entry 0 segment.atStart script)) := by
  have hparse' := Segment.parse_atStart hparse
  refine ⟨hpath, rfl, rfl, .some ⟨hlinks, ?_, ?_⟩, rfl⟩
  · exact (LoadSettings.requests_interfaceOf hfits hparse index).trans
      (LoadSettings.requests_interfaceOf hfits.atStart hparse' 0).symm
  · exact (LoadSettings.imports_interfaceOf hfits hparse index).trans
      (LoadSettings.imports_interfaceOf hfits.atStart hparse' 0).symm

/-- What there is to report about a segment lies inside of it. -/
theorem subject_places (hfits : segment.Fits) (hparse : segment.parse = .ok script) :
    (subject links graph m index segment
      (s.extractOf files path entry index segment script)).Places
        (Span.Within 0 segment.text.length) := by
  obtain ⟨hrequests, himports⟩ := LoadSettings.within_interfaceOf hfits hparse index
  refine ⟨Segment.places_of_parse hfits.length hparse, fun scope hscope => ?_, fun r hr => ?_,
    fun r hr => ?_⟩
  · exact (Option.some.inj hscope).symm
  · obtain rfl := Option.some.inj hr
    exact hrequests
  · obtain rfl := Option.some.inj hr
    exact himports

/-- A known rule says the same about subjects that coincide, apart from where the segments
begin. -/
theorem said_moved {subject subject' : Subject} (hrule : setting.rule ∈ Rule.builtin)
    (h : subject.Coincides subject') :
    said subject setting = (said subject' setting).map
      (Message.moved subject.segment.offset subject.index) := by
  have happlies : applies setting subject = applies setting subject' := by
    rw [applies, applies, h.graph]
  unfold said
  rw [happlies, Rule.check_coincides hrule h]
  split
  · rw [List.map_map]
    rfl
  · rfl

/-- What a rule says counts as known by the name of the rule. -/
theorem filter_said {subject : Subject} :
    (said subject setting).filter Message.isKnown =
      if setting.rule.name ∈ Rule.builtin.map Rule.name then said subject setting else [] := by
  have hcode : ∀ message ∈ said subject setting,
      message.isKnown = decide (setting.rule.name ∈ Rule.builtin.map Rule.name) := by
    intro message hmessage
    obtain ⟨finding, _, rfl⟩ := finding_of_mem_said hmessage
    rfl
  split
  case isTrue hname =>
    exact List.filter_eq_self.mpr fun message hmessage => by
      simpa [hcode message hmessage] using hname
  case isFalse hname =>
    exact List.filter_eq_nil_iff.mpr fun message hmessage => by
      simpa [hcode message hmessage] using hname

section

variable (hknown : settings.rules.Genuine)
include hknown

/-- **What the known rules say about a segment** is what they say about the script alone, with
the number and the offset of the segment. -/
theorem filter_saidOf (hfits : segment.Fits) (hpath : m.path = m'.path)
    (hlinks : links index = links' 0) :
    (settings.saidOf links graph m index
        (s.part files path entry true index segment)).filter Message.isKnown =
      ((settings.saidOf links' graph m' 0
        (s.part files path entry false 0 segment.atStart)).filter Message.isKnown).map
          (Message.moved segment.offset index) := by
  unfold saidOf
  cases hparse : segment.parse with
  | error f =>
    obtain ⟨own, hparse', -⟩ := Segment.parse_atStart_error hparse
    simp only [LoadSettings.outcome_of_error hparse, LoadSettings.outcome_of_error hparse',
      List.filter_nil, List.map_nil]
  | ok script =>
    simp only [LoadSettings.outcome_of_ok hparse,
      LoadSettings.outcome_of_ok (Segment.parse_atStart hparse), List.filter_flatMap,
      List.map_flatMap]
    refine List.flatMap_congr fun setting hsetting => ?_
    rw [filter_said, filter_said]
    split
    case isTrue hname =>
      exact said_moved (hknown setting hsetting hname) (subject_coincides hfits hparse hpath hlinks)
    case isFalse => rfl

/-- **The findings about a segment** are those about the script alone, at the place of the
segment. -/
theorem findingsOf_eq (hfits : segment.Fits) (hpath : m.path = m'.path)
    (hcomposite : m.composite = true) (hlinks : links index = links' 0) :
    settings.findingsOf links graph m index (s.part files path entry true index segment) =
      (settings.findingsOf links' graph m' 0
        (s.part files path entry false 0 segment.atStart)).map
          (Diagnostic.moved segment.offset index) := by
  rw [findingsOf, findingsOf, Diagnostic.known_map, Diagnostic.known_map,
    filter_saidOf hknown hfits hpath hlinks]
  exact diagnostics_moved hpath hcomposite fun message hmessage =>
    offset_saidOf (List.mem_filter.mp hmessage).1

/-- Every finding about a segment lies inside of it. -/
theorem within_findingsOf (hfits : segment.Fits) :
    ∀ d ∈ settings.findingsOf links graph m index (s.part files path entry true index segment),
      d.LiesIn segment := by
  intro d hd
  rw [findingsOf, Diagnostic.known_map] at hd
  obtain ⟨message, hmessage, rfl⟩ := List.mem_map.mp hd
  obtain ⟨hsaid, hcode⟩ := List.mem_filter.mp hmessage
  obtain ⟨e, houtcome, setting, hsetting, finding, hfinding, rfl⟩ := finding_of_mem_saidOf hsaid
  cases hparse : segment.parse with
  | error f => simp [LoadSettings.outcome_of_error hparse] at houtcome
  | ok script =>
    rw [LoadSettings.outcome_of_ok hparse] at houtcome
    obtain rfl := Except.ok.inj houtcome
    have hrule := hknown setting hsetting (decide_eq_true_eq.mp hcode)
    have hplace := Rule.place_of_check hrule (subject_places hfits hparse) hfinding
    exact ⟨_, rfl, hplace.shifted hfits⟩

end

section

variable (hrules : ∀ setting ∈ settings.rules, setting.rule ∈ Rule.builtin)
include hrules

theorem filter_saidOf_builtin (index : Nat) (part : Part) :
    (settings.saidOf links graph m index part).filter Message.isKnown =
      settings.saidOf links graph m index part := by
  refine List.filter_eq_self.mpr fun message hmessage => ?_
  obtain ⟨_, _, setting, hsetting, _, _, rfl⟩ := finding_of_mem_saidOf hmessage
  exact decide_eq_true (List.mem_map_of_mem (hrules setting hsetting))

/-- **What is left of the findings about a segment** behind its fixes is what is left of those
about the script alone. -/
theorem remainingOf_eq (hfits : segment.Fits) (hpath : m.path = m'.path)
    (hcomposite : m.composite = true) (hlinks : links index = links' 0) :
    settings.remainingOf links graph m index (s.part files path entry true index segment) =
      (settings.remainingOf links' graph m' 0
        (s.part files path entry false 0 segment.atStart)).map
          (Diagnostic.moved segment.offset index) := by
  have hknown : settings.rules.Genuine := fun setting hsetting _ => hrules setting hsetting
  have hsaid : settings.saidOf links graph m index
      (s.part files path entry true index segment) =
        (settings.saidOf links' graph m' 0
          (s.part files path entry false 0 segment.atStart)).map
            (Message.moved segment.offset index) :=
    (filter_saidOf_builtin hrules _ _).symm.trans
      ((filter_saidOf hknown hfits hpath hlinks).trans
        (congrArg _ (filter_saidOf_builtin hrules _ _)))
  have hstart : ∀ message ∈ settings.saidOf links' graph m' 0
      (s.part files path entry false 0 segment.atStart), message.offset = 0 :=
    fun message hmessage => offset_saidOf hmessage
  have hinj : Function.Injective fun span : Span => span.shifted segment.offset :=
    Function.LeftInverse.injective (g := fun span : Span => span.unshifted segment.offset)
      fun span => span.unshifted_shifted segment.offset
  have hplaces : ∀ message ∈ settings.saidOf links' graph m' 0
      (s.part files path entry false 0 segment.atStart),
      (message.moved segment.offset index).place? =
        message.place?.map fun span => span.shifted segment.offset :=
    fun message hmessage => Message.place?_moved (hstart message hmessage)
  have hunfixed := unfixed_map hinj [] hplaces
  rw [List.map_nil] at hunfixed
  rw [remainingOf, remainingOf, hsaid, hunfixed, ← Diagnostic.known_moved]
  exact congrArg _ (diagnostics_moved hpath hcomposite fun message hmessage =>
    hstart message ((unfixed_sublist _ _).subset hmessage))

end

end AnalysisSettings

end ScriptLint
