/-
Messages that are fixed, and messages that are reported.

An analysis numbers the messages of all segments and rules, picks those with fixes, and
the fixes are sorted once more before they are tried.  What was applied is mapped back
to the messages through both lists; each message ends up on one side:

* **`Fix.Replaces`** — the text after fixes that are done one behind the other;
* **`Fix.apply_replaces`** — the fixes that are applied are done like that, each once;
* **`AnalysisSettings.FixesOrReports`** — which messages were fixed, which are reported,
  and what was written;
* **`LintSession.fixes_or_reports`** — every analysis whose write succeeds is like that,
  and no run writes a file twice.
-/
import ScriptLint.Proofs.Deleting
import ScriptLint.Proofs.Independence

namespace ScriptLint

/-! ### Fixes in a row -/

namespace Fix

/-- The rest of a text from an offset on, after fixes that are done one behind the
other. -/
inductive Replaces (source : Bytes) : Nat → List Fix → Bytes → Prop where
  | done (cursor : Nat) : Replaces source cursor [] (source.drop cursor)
  | fix {cursor : Nat} {f : Fix} {rest : List Fix} {output : Bytes}
      (hbefore : cursor ≤ f.span.start.toNat) (hspan : f.span.start.toNat ≤ f.span.stop.toNat)
      (hinside : f.span.stop.toNat ≤ source.length)
      (h : Replaces source f.span.stop.toNat rest output) :
      Replaces source cursor (f :: rest)
        (source.slice cursor (f.span.start.toNat - cursor) ++ f.content ++ output)

variable {source : Bytes} {fixes : List Fix}

/-- The fixes that are applied, in the order in which they are tried. -/
theorem applyFrom_replaces (source : Bytes) (cursor : Nat) (tried : List (Fix × Nat)) :
    ∃ row : List (Fix × Nat), row.Sublist tried ∧
      Replaces source cursor (row.map Prod.fst) (applyFrom source cursor tried).output ∧
      (applyFrom source cursor tried).applied = row.map Prod.snd := by
  induction tried generalizing cursor with
  | nil => exact ⟨[], .slnil, .done cursor, rfl⟩
  | cons x rest ih =>
    obtain ⟨f, i⟩ := x
    rw [applyFrom]
    split
    · rename_i hfits
      obtain ⟨row, hsub, hrow, happlied⟩ := ih f.span.stop.toNat
      simp only [fits, Bool.and_eq_true, decide_eq_true_eq, UInt32.le_iff_toNat_le] at hfits
      obtain ⟨⟨hspan, hinside⟩, hbefore⟩ := hfits
      refine ⟨(f, i) :: row, hsub.cons_cons _, .fix hbefore hspan hinside hrow, ?_⟩
      exact congrArg (i :: ·) happlied
    · obtain ⟨row, hsub, hrow, happlied⟩ := ih cursor
      exact ⟨row, hsub.cons _, hrow, happlied⟩

/-- **The fixes that are applied** stand in the text in a row, each of them once. -/
theorem apply_replaces (source : Bytes) (fixes : List Fix) :
    ∃ row : List (Fix × Nat), (∀ x ∈ row, fixes[x.2]? = some x.1) ∧ (row.map Prod.snd).Nodup ∧
      Replaces source 0 (row.map Prod.fst) (apply source fixes).output ∧
      (apply source fixes).applied.Perm (row.map Prod.snd) := by
  obtain ⟨row, hsub, hrow, happlied⟩ := applyFrom_replaces source 0 (tryOrder fixes)
  have hperm : (tryOrder fixes).Perm fixes.zipIdx := List.mergeSort_perm _ _
  refine ⟨row, fun x hx => ?_, ?_, hrow, ?_⟩
  · exact List.mem_zipIdx_iff_getElem?.mp (hperm.mem_iff.mp (hsub.subset hx))
  · refine List.Nodup.sublist (hsub.map Prod.snd) ?_
    rw [(hperm.map Prod.snd).nodup_iff, List.zipIdx_map_snd]
    exact List.nodup_range'
  · rw [← happlied]
    exact List.mergeSort_perm _ _

end Fix

/-! ### Messages and their fixes -/

namespace AnalysisSettings

theorem mem_proposals {messages : List Message} {f : Fix} {owner : Nat} :
    (f, owner) ∈ proposals messages ↔
      ∃ message, messages[owner]? = some message ∧ message.fix? = some f := by
  unfold proposals
  rw [List.mem_filterMap]
  constructor
  · rintro ⟨⟨message, i⟩, hmem, hfix⟩
    obtain ⟨f', hf', hpair⟩ := Option.map_eq_some_iff.mp hfix
    obtain ⟨rfl, rfl⟩ := Prod.mk.inj hpair
    exact ⟨message, List.mk_mem_zipIdx_iff_getElem?.mp hmem, hf'⟩
  · rintro ⟨message, hmessage, hfix⟩
    refine ⟨(message, owner), List.mk_mem_zipIdx_iff_getElem?.mpr hmessage, ?_⟩
    simp only [hfix, Option.map_some]

/-- The proposals are in the order of their messages. -/
theorem pairwise_proposals (messages : List Message) :
    (proposals messages).Pairwise fun a b => a.2 < b.2 := by
  have hsub (xs : List (Message × Nat)) :
      ((xs.filterMap fun x => x.1.fix?.map (·, x.2)).map Prod.snd).Sublist (xs.map Prod.snd) := by
    induction xs with
    | nil => exact .slnil
    | cons x rest ih =>
      rw [List.filterMap_cons]
      cases x.1.fix? with
      | none => exact ih.cons _
      | some f => exact ih.cons_cons _
  rw [← List.pairwise_map]
  refine List.Pairwise.sublist (hsub messages.zipIdx) ?_
  rw [List.zipIdx_map_snd]
  exact List.pairwise_lt_range'

/-- No message has two proposals. -/
theorem nodup_owners_proposals (messages : List Message) :
    ((proposals messages).map Prod.snd).Nodup := by
  rw [List.nodup_iff_pairwise_ne, List.pairwise_map]
  exact (pairwise_proposals messages).imp Nat.ne_of_lt

/-- The positions of the messages whose fixes were applied to a text. -/
def owners (text : Bytes) (messages : List Message) : List Nat :=
  (fixed text messages).applied.filterMap fun i => ((proposals messages)[i]?).map Prod.snd

/-- What was applied to a text, each fix with the position of its message. -/
structure Applied (text : Bytes) (messages : List Message) (row : List (Fix × Nat))
    (result : FixResult) (owners : List Nat) : Prop where
  own : ∀ x ∈ row, ∃ message, messages[x.2]? = some message ∧ message.fix? = some x.1
  once : (row.map Prod.snd).Nodup
  output : Fix.Replaces text 0 (row.map Prod.fst) result.output
  length : result.applied.length = row.length
  owners : owners.Perm (row.map Prod.snd)

/-- Pairs that are looked up by their positions. -/
theorem map_fst_lookup {α β : Type} {pairs : List (α × β)} {row : List (α × Nat)}
    (h : ∀ x ∈ row, (pairs.map Prod.fst)[x.2]? = some x.1) :
    (row.filterMap fun x => pairs[x.2]?).map Prod.fst = row.map Prod.fst := by
  induction row with
  | nil => rfl
  | cons x rest ih =>
    obtain ⟨hx, hrest⟩ := List.forall_mem_cons.mp h
    rw [List.getElem?_map] at hx
    obtain ⟨p, hp, hfirst⟩ := Option.map_eq_some_iff.mp hx
    rw [List.filterMap_cons, hp, List.map_cons, List.map_cons, ih hrest, hfirst]

/-- **The positions that the fixer applied lead back to the messages.** -/
theorem applied_fixed (text : Bytes) (messages : List Message) :
    ∃ row, Applied text messages row (fixed text messages) (owners text messages) := by
  obtain ⟨row, hmem, hnodup, hreplaces, hperm⟩ :=
    Fix.apply_replaces text ((proposals messages).map Prod.fst)
  -- each fix of the row with the message that it was proposed for
  have hfirst := map_fst_lookup hmem
  have hsecond : (row.filterMap fun x => (proposals messages)[x.2]?).map Prod.snd =
      (row.map Prod.snd).filterMap fun i => ((proposals messages)[i]?).map Prod.snd := by
    rw [List.map_filterMap, List.filterMap_map]
    rfl
  refine ⟨_, ⟨fun x hx => ?_, ?_, hfirst ▸ hreplaces, ?_, ?_⟩⟩
  · obtain ⟨y, _, hget⟩ := List.mem_filterMap.mp hx
    exact mem_proposals.mp (List.mem_of_getElem? hget)
  · rw [hsecond]
    refine List.Nodup.filterMap (fun i j owner hi hj => ?_) hnodup
    rw [Option.mem_def, ← List.getElem?_map] at hi hj
    obtain ⟨hlt, _⟩ := List.getElem?_eq_some_iff.mp hi
    exact (List.getElem?_inj hlt (nodup_owners_proposals messages)).mp (hi.trans hj.symm)
  · have hlength := congrArg List.length hfirst
    rw [List.length_map, List.length_map] at hlength
    rw [hlength, fixed, hperm.length_eq, List.length_map]
  · rw [hsecond]
    exact hperm.filterMap _

/-! ### What is said about a module -/

/-- The messages of a rule on a subject, unless it fails there. -/
def said (subject : Subject) (setting : RuleSetting) : List Message :=
  if applies setting subject && (setting.rule.check subject).failure?.isNone then
    (setting.rule.check subject).findings.map fun finding =>
      ⟨subject.index, subject.segment.offset, setting.rule.name, setting.severity, finding⟩
  else []

theorem messages_inspectWith (m : Module) (subject : Subject) (setting : RuleSetting) :
    (inspectWith m subject setting).messages = said subject setting := by
  unfold inspectWith said
  cases applies setting subject with
  | false => rfl
  | true =>
    cases hfailure : (setting.rule.check subject).failure? with
    | none => simp [hfailure]
    | some failure => simp [hfailure]

section

variable (settings : AnalysisSettings) (links : Nat → Table Interface)
  (graph : Option ModuleGraph) (m : Module)

/-- The messages of the rules that do not fail on a segment, if it could be read. -/
def saidOf (index : Nat) (part : Part) : List Message :=
  match part.outcome with
  | .error _ => []
  | .ok e => settings.rules.flatMap (said (subject links graph m index part.segment e))

/-- The messages of the rules that do not fail, on all segments. -/
def messages : List Message :=
  m.kept.zipIdx.flatMap fun x => settings.saidOf links graph m x.2 x.1

/-- The reports on rules that fail. -/
def failures : List Diagnostic :=
  m.kept.zipIdx.flatMap fun x => (settings.inspectPart links graph m x.2 x.1).1.failures

/-- What is reported before anything is fixed: rules that fail, and requests that do not
resolve. -/
def early : List Diagnostic :=
  m.kept.zipIdx.flatMap fun x =>
    (settings.inspectPart links graph m x.2 x.1).1.failures ++
      (settings.inspectPart links graph m x.2 x.1).2

end

variable {settings : AnalysisSettings} {links : Nat → Table Interface}
  {graph : Option ModuleGraph} {m : Module}

theorem messages_inspectPart (index : Nat) (part : Part) :
    (settings.inspectPart links graph m index part).1.messages =
      settings.saidOf links graph m index part := by
  unfold inspectPart saidOf
  cases part.outcome with
  | error d => rfl
  | ok e =>
    simp only [inspect, List.flatMap_map]
    exact List.flatMap_congr fun setting _ => messages_inspectWith m _ setting

/-- A message is a finding of its rule, with the segment that the rule looked at. -/
theorem finding_of_mem_said {subject : Subject} {setting : RuleSetting} {message : Message}
    (h : message ∈ said subject setting) :
    ∃ finding ∈ (setting.rule.check subject).findings, message =
      ⟨subject.index, subject.segment.offset, setting.rule.name, setting.severity, finding⟩ := by
  unfold said at h
  split at h
  · obtain ⟨finding, hfinding, rfl⟩ := List.mem_map.mp h
    exact ⟨finding, hfinding, rfl⟩
  · cases h

/-- The messages about a segment, rule by rule. -/
theorem mem_saidOf {index : Nat} {part : Part} {message : Message} :
    message ∈ settings.saidOf links graph m index part ↔
      ∃ e, part.outcome = .ok e ∧ ∃ setting ∈ settings.rules,
        message ∈ said (subject links graph m index part.segment e) setting := by
  unfold saidOf
  cases part.outcome with
  | error d => simp
  | ok e => simp [List.mem_flatMap]

/-- **A message about a segment** is a finding of one of the rules on what was read there. -/
theorem finding_of_mem_saidOf {index : Nat} {part : Part} {message : Message}
    (h : message ∈ settings.saidOf links graph m index part) :
    ∃ e, part.outcome = .ok e ∧ ∃ setting ∈ settings.rules,
      ∃ finding ∈ (setting.rule.check (subject links graph m index part.segment e)).findings,
        message =
          ⟨index, part.segment.offset, setting.rule.name, setting.severity, finding⟩ := by
  obtain ⟨e, houtcome, setting, hsetting, h⟩ := mem_saidOf.mp h
  exact ⟨e, houtcome, setting, hsetting, finding_of_mem_said h⟩

/-- A message is of a segment of the module, and moves with it. -/
theorem offset_message {message : Message} (h : message ∈ settings.messages links graph m) :
    ∃ part, m.kept[message.segment]? = some part ∧ message.offset = part.segment.offset := by
  obtain ⟨⟨part, index⟩, hpart, hsaid⟩ := List.mem_flatMap.mp h
  have hget : m.kept[index]? = some part := List.mk_mem_zipIdx_iff_getElem?.mp hpart
  obtain ⟨_, _, _, _, _, _, rfl⟩ := finding_of_mem_saidOf hsaid
  exact ⟨part, hget, rfl⟩

/-- If nothing was fixed, all messages are reported. -/
theorem report_nil (m : Module) (messages : List Message) :
    report m messages [] = messages.map (Message.diagnostic m) := by
  have hfst := congrArg (List.map (Message.diagnostic m)) (List.zipIdx_map_fst 0 messages)
  rw [List.map_map] at hfst
  simp only [report, List.not_mem_nil, not_false_eq_true, decide_true, List.filter_true]
  exact hfst

/-- Of the messages those are reported that were not fixed. -/
theorem report_sublist (m : Module) (messages : List Message) (fixed : List Nat) :
    (report m messages fixed).Sublist (messages.map (Message.diagnostic m)) := by
  rw [← report_nil, report, report]
  refine List.Sublist.map _ (List.monotone_filter_right _ fun x _ => ?_)
  simp

/-! ### Analyses whose write succeeds -/

variable {σ : Type} [FileStore σ]

/-- An analysis, when it has fixed some messages and reports the others: the fixes that
were applied, each with the position of its message, and the text that they make. -/
structure FixesOrReports (settings : AnalysisSettings) (links : Nat → Table Interface)
    (graph : Option ModuleGraph) (m : Module) (text : Bytes) (files : σ)
    (fixes : List (Fix × Nat)) (output : Bytes) (answer : AnalysisResult × σ) : Prop where
  /-- A message moves with its segment. -/
  offset : ∀ message ∈ settings.messages links graph m,
    ∃ part, m.kept[message.segment]? = some part ∧ message.offset = part.segment.offset
  own : ∀ x ∈ fixes, ∃ message,
    (settings.messages links graph m)[x.2]? = some message ∧ message.fix? = some x.1
  once : (fixes.map Prod.snd).Nodup
  replaces : Fix.Replaces text 0 (fixes.map Prod.fst) output
  emitted : answer.1.emitted = settings.early links graph m ++
    ((settings.messages links graph m).zipIdx.filter fun x => x.2 ∉ fixes.map Prod.snd).map
      fun x => x.1.diagnostic m
  counts : answer.1.counts = .ok
    { diagnostics := answer.1.emitted.length
      ruleFailures := (settings.failures links graph m).length
      fixesApplied := fixes.length
      written := !fixes.isEmpty }
  files : answer.2 = if fixes.isEmpty then files else (FileStore.write m.path output files).2

/-- The text of a module after the fixes of its messages. -/
def fixedText (settings : AnalysisSettings) (links : Nat → Table Interface)
    (graph : Option ModuleGraph) (m : Module) (text : Bytes) : Bytes :=
  (fixed text (settings.messages links graph m)).output

/-- The analysis of a module with content, by what the fixes come to. -/
theorem analyze_content {content : Module.Content} (hcontent : m.content = some content)
    (files : σ) :
    settings.analyze links graph m files =
      let messages := settings.messages links graph m
      let early := settings.early links graph m
      let ruleFailures := (settings.failures links graph m).length
      let result := fixed content.text messages
      let write := FileStore.write m.path (settings.fixedText links graph m content.text) files
      if settings.fix && result.changed then
        (match write.1 with
          | .error (.brokenOff reason) => ⟨early, .error (.brokenOff reason)⟩
          | .error (.failed e) => finish m messages early [writeDiagnostic m e] [] { ruleFailures }
          | .ok () => finish m messages early [] (owners content.text messages)
            { ruleFailures, fixesApplied := result.applied.length, written := true },
          write.2)
      else (finish m messages early [] [] { ruleFailures }, files) := by
  have hmessages : (m.kept.zipIdx.map fun x => settings.inspectPart links graph m x.2 x.1).flatMap
      (fun i => i.1.messages) = settings.messages links graph m := by
    rw [List.flatMap_map]
    exact List.flatMap_congr fun x _ => messages_inspectPart x.2 x.1
  have hearly : (m.kept.zipIdx.map fun x => settings.inspectPart links graph m x.2 x.1).flatMap
      (fun i => i.1.failures ++ i.2) = settings.early links graph m :=
    List.flatMap_map _ _ _
  have hfailures : (m.kept.zipIdx.map fun x => settings.inspectPart links graph m x.2 x.1).flatMap
      (fun i => i.1.failures) = settings.failures links graph m :=
    List.flatMap_map _ _ _
  unfold analyze
  simp only [hcontent, hmessages, hearly, hfailures]
  refine ite_congr rfl (fun _ => ?_) fun _ => rfl
  unfold fixedText fixed owners
  generalize FileStore.write m.path _ files = write
  obtain ⟨outcome, after⟩ := write
  cases outcome with
  | ok _ => rfl
  | error mishap => cases mishap <;> rfl

/-- **An analysis with fixing on whose write succeeds** fixes or reports each message. -/
theorem exists_fixesOrReports {content : Module.Content} (hcontent : m.content = some content)
    (hfix : settings.fix = true) {files : σ}
    (hwrite : (fixed content.text (settings.messages links graph m)).changed = true →
      (FileStore.write m.path (settings.fixedText links graph m content.text) files).1 =
        .ok ()) :
    ∃ fixes, settings.FixesOrReports links graph m content.text files fixes
      (settings.fixedText links graph m content.text) (settings.analyze links graph m files) := by
  obtain ⟨fixes, h⟩ := applied_fixed content.text (settings.messages links graph m)
  have hempty : (fixed content.text (settings.messages links graph m)).changed =
      !fixes.isEmpty := by
    refine congrArg not (Bool.eq_iff_iff.mpr ?_)
    rw [List.isEmpty_iff_length_eq_zero, List.isEmpty_iff_length_eq_zero, h.length]
  have hanswer : settings.analyze links graph m files =
      (finish m (settings.messages links graph m) (settings.early links graph m) []
        (owners content.text (settings.messages links graph m))
        { ruleFailures := (settings.failures links graph m).length
          fixesApplied := fixes.length, written := !fixes.isEmpty },
      if fixes.isEmpty then files
      else (FileStore.write m.path (settings.fixedText links graph m content.text) files).2) := by
    rw [analyze_content hcontent]
    simp only [hfix, Bool.true_and, hempty, Bool.not_eq_true']
    cases hnone : fixes.isEmpty with
    | true =>
      obtain rfl := List.isEmpty_iff.mp hnone
      have howners := List.perm_nil.mp h.owners
      rw [howners]
      rfl
    | false =>
      rw [hempty, hnone] at hwrite
      simp only [hwrite rfl, h.length]
      rfl
  have hreport : report m (settings.messages links graph m)
        (owners content.text (settings.messages links graph m)) =
      ((settings.messages links graph m).zipIdx.filter
        fun x => x.2 ∉ fixes.map Prod.snd).map fun x => x.1.diagnostic m := by
    simp only [report, h.owners.mem_iff]
  rw [hanswer]
  refine ⟨fixes, fun _ => offset_message, h.own, h.once, h.output, ?_, rfl, rfl⟩
  rw [finish, hreport, List.append_nil]

/-! ### The messages of one rule -/

/-- The messages under a name that one rule has are those of that rule. -/
theorem filter_messages {code : Bytes} {setting : RuleSetting}
    (honly : (settings.rules.filter fun r => r.rule.name = code) = [setting]) :
    (settings.messages links graph m).filter (fun message => message.code = code) =
      m.kept.zipIdx.flatMap fun x =>
        match x.1.outcome with
        | .error _ => []
        | .ok e => said (subject links graph m x.2 x.1.segment e) setting := by
  have hsaid (subject : Subject) (r : RuleSetting) :
      (said subject r).filter (fun message => message.code = code) =
        if r.rule.name = code then said subject r else [] := by
    have hcode : ∀ message ∈ said subject r, message.code = r.rule.name := by
      intro message hmessage
      obtain ⟨_, _, rfl⟩ := finding_of_mem_said hmessage
      rfl
    split
    · rename_i hname
      exact List.filter_eq_self.mpr fun message h => by simpa [hname] using hcode message h
    · rename_i hname
      exact List.filter_eq_nil_iff.mpr fun message h => by simpa [hcode message h] using hname
  have hrules (subject : Subject) :
      (settings.rules.flatMap (said subject)).filter (fun message => message.code = code) =
        said subject setting := by
    have hall (rules : RuleSet) :
        (rules.flatMap (said subject)).filter (fun message => message.code = code) =
          (rules.filter fun r => r.rule.name = code).flatMap (said subject) := by
      induction rules with
      | nil => rfl
      | cons r rest ih =>
        rw [List.flatMap_cons, List.filter_append, ih, hsaid, List.filter_cons]
        by_cases hname : r.rule.name = code <;> simp [hname]
    rw [hall, honly, List.flatMap_singleton]
  rw [messages, List.filter_flatMap]
  refine List.flatMap_congr fun x _ => ?_
  unfold saidOf
  cases x.1.outcome with
  | error d => rfl
  | ok e => exact hrules _

theorem code_failures {index : Nat} {part : Part} {d : Diagnostic}
    (h : d ∈ (settings.inspectPart links graph m index part).1.failures) :
    d.code = Code.ruleFailure := by
  unfold inspectPart at h
  cases houtcome : part.outcome with
  | error _ => simp [houtcome] at h
  | ok e =>
    simp only [houtcome, inspect, List.flatMap_map] at h
    obtain ⟨setting, _, h⟩ := List.mem_flatMap.mp h
    unfold inspectWith at h
    split at h
    · dsimp only at h
      split at h
      · rw [List.mem_singleton.mp h]
        rfl
      · exact absurd h List.not_mem_nil
    · exact absurd h List.not_mem_nil

theorem code_unresolved {index : Nat} {part : Part} {d : Diagnostic}
    (h : d ∈ (settings.inspectPart links graph m index part).2) : d.code = Code.resolve := by
  unfold inspectPart at h
  cases houtcome : part.outcome with
  | error _ => simp [houtcome] at h
  | ok e =>
    simp only [houtcome] at h
    obtain ⟨r, _, hr⟩ := List.mem_filterMap.mp h
    cases hresolution : r.outcome with
    | ok _ => simp [hresolution] at hr
    | error _ =>
      simp only [hresolution, Option.some.injEq] at hr
      rw [← hr]

/-- What is reported early is about rules that fail and requests that do not resolve. -/
theorem code_early {d : Diagnostic} (h : d ∈ settings.early links graph m) :
    d.code = Code.ruleFailure ∨ d.code = Code.resolve := by
  obtain ⟨x, _, hd⟩ := List.mem_flatMap.mp h
  exact (List.mem_append.mp hd).imp code_failures code_unresolved

/-- Messages of which none was fixed are all reported. -/
theorem filter_report {code : Bytes} {messages : List Message} {owners : List Nat}
    (howners : ∀ i ∈ owners, ∀ message, messages[i]? = some message → message.code ≠ code) :
    (report m messages owners).filter (fun d => d.code = code) =
      (messages.filter fun message => message.code = code).map (Message.diagnostic m) := by
  have hkeep : ∀ x ∈ messages.zipIdx,
      (decide (x.1.code = code) && decide (x.2 ∉ owners)) = decide (x.1.code = code) := by
    intro x hx
    by_cases hcode : x.1.code = code
    · have hout : x.2 ∉ owners := fun hin =>
        howners _ hin _ (List.mem_zipIdx_iff_getElem?.mp hx) hcode
      simp [hcode, hout]
    · simp [hcode]
  have hzip : (messages.zipIdx.filter fun x => x.1.code = code).map Prod.fst =
      messages.filter fun message => message.code = code := by
    have hfst := congrArg (List.filter fun message => message.code = code)
      (List.zipIdx_map_fst 0 messages)
    rwa [List.filter_map] at hfst
  rw [report, List.filter_map, List.filter_filter, ← hzip, List.map_map]
  exact congrArg _ (List.filter_congr hkeep)

/-- **Of a rule whose messages have no fixes, an analysis reports all messages**, unless
writing the fixes of other rules breaks it off. -/
theorem filter_analyze {content : Module.Content} (hcontent : m.content = some content) {files : σ}
    {code : Bytes} (hcode : code ∉ [Code.disk, Code.resolve, Code.ruleFailure])
    (hnofix : ∀ message ∈ settings.messages links graph m, message.code = code →
      message.finding.fix = none)
    (hwrite : settings.fix = true → ∀ text reason,
      (FileStore.write m.path text files).1 ≠ .error (.brokenOff reason)) :
    (∃ counts, (settings.analyze links graph m files).1.counts = .ok counts) ∧
      (settings.analyze links graph m files).1.emitted.filter (fun d => d.code = code) =
        ((settings.messages links graph m).filter fun message => message.code = code).map
          (Message.diagnostic m) := by
  have hfinish {more : List Diagnostic} {owners : List Nat} {counts : AnalysisCounts}
      (hmore : ∀ d ∈ more, d.code = Code.disk)
      (howners : ∀ i ∈ owners, ∀ message, (settings.messages links graph m)[i]? = some message →
        message.code ≠ code) :
      (finish m (settings.messages links graph m) (settings.early links graph m) more owners
          counts).emitted.filter (fun d => d.code = code) =
        ((settings.messages links graph m).filter fun message => message.code = code).map
          (Message.diagnostic m) := by
    have hothers : (settings.early links graph m ++ more).filter (fun d => d.code = code) = [] := by
      refine List.filter_eq_nil_iff.mpr fun d hd => ?_
      simp only [List.mem_cons, List.not_mem_nil, or_false, not_or] at hcode
      rw [decide_eq_true_eq]
      rintro rfl
      rcases List.mem_append.mp hd with hd | hd
      · exact (code_early hd).elim hcode.2.2 hcode.2.1
      · exact hcode.1 (hmore d hd)
    rw [finish, List.filter_append, hothers, List.nil_append, filter_report howners]
  have hnone : ∀ i ∈ ([] : List Nat), ∀ message,
      (settings.messages links graph m)[i]? = some message → message.code ≠ code := by simp
  rw [analyze_content hcontent]
  dsimp only
  split
  · rename_i hchanged
    have hbroken := hwrite (Bool.and_eq_true_iff.mp hchanged).1
      (settings.fixedText links graph m content.text)
    generalize (FileStore.write m.path (settings.fixedText links graph m content.text) files).1 =
      outcome at hbroken ⊢
    cases outcome with
    | ok _ =>
      refine ⟨⟨_, rfl⟩, hfinish (by simp) fun i hi message hmessage => ?_⟩
      obtain ⟨row, hrow⟩ := applied_fixed content.text (settings.messages links graph m)
      obtain ⟨x, hx, rfl⟩ := List.mem_map.mp (hrow.owners.mem_iff.mp hi)
      obtain ⟨message', hmessage', hfix⟩ := hrow.own x hx
      obtain rfl : message = message' := Option.some.inj (hmessage.symm.trans hmessage')
      intro hcode
      rw [Message.fix?, hnofix message (List.mem_of_getElem? hmessage) hcode] at hfix
      cases hfix
    | error mishap =>
      cases mishap with
      | brokenOff reason => exact absurd rfl (hbroken reason)
      | failed e => exact ⟨⟨_, rfl⟩, hfinish (by simp [writeDiagnostic]) hnone⟩
  · exact ⟨⟨_, rfl⟩, hfinish (by simp) hnone⟩

end AnalysisSettings

/-! ### Runs -/

/-- Each file was written at most once more. -/
theorem Linter.Between.writes_le {l : Linter} {files : MemoryFiles} {loaded : List Path}
    {analyses : List Analysis} {s : RunState MemoryFiles}
    (h : Between l files loaded analyses [] s) (p : Path) :
    s.resources.files.writes p ≤ files.writes p + 1 := by
  have hcount : (analyses.map fun a => a.path.key).count p.key ≤ 1 :=
    List.nodup_iff_count_le_one.mp h.nodup_analyses p.key
  rw [h.stored.writes]
  refine Nat.add_le_add_left (Nat.le_trans ?_ hcount) _
  rw [List.count, List.countP_map]
  refine List.countP_mono_left fun a _ ha => ?_
  have hkey : a.path.key = p.key := by simpa using (Bool.and_eq_true_iff.mp ha).1
  simpa using hkey

namespace LintSession

/-- **Every message is either fixed or reported** by an analysis with fixing on whose
write succeeds, which writes the file once if it fixed something and not otherwise; and
over a whole run no file is written twice. -/
theorem fixes_or_reports :
    (∀ {σ : Type} [FileStore σ] (settings : AnalysisSettings) (links : Nat → Table Interface)
        (graph : Option ModuleGraph) (m : Module) (content : Module.Content) (files : σ),
      settings.fix = true → m.content = some content →
      ((AnalysisSettings.fixed content.text (settings.messages links graph m)).changed = true →
        (FileStore.write m.path (settings.fixedText links graph m content.text) files).1 =
          .ok ()) →
      ∃ fixes, settings.FixesOrReports links graph m content.text files fixes
        (settings.fixedText links graph m content.text)
        (settings.analyze links graph m files)) ∧
    ∀ (s : LintSession) (paths : List Path) (r : Resources MemoryFiles) (loaded : List Path)
      (state : RunState MemoryFiles), s.Finishes paths r loaded state →
      ∀ p : Path, state.resources.files.writes p ≤ r.files.writes p + 1 := by
  refine ⟨fun settings links graph m content files hfix hcontent hwrite => ?_,
    fun s paths r loaded state h p => ?_⟩
  · exact AnalysisSettings.exists_fixesOrReports hcontent hfix hwrite
  · obtain ⟨analyses, h⟩ := h.between
    exact h.writes_le p

/-- A file with one `debugger`: the only message is fixed, and the file written once. -/
theorem fixes_or_reports_debugger :
    (∃ fixes,
      (fixing.linterOf [⟨"/a.js"⟩]).analysisSettings.FixesOrReports (fun _ => []) none
        ((fixing.linterOf [⟨"/a.js"⟩]).module (oneFile "debugger;\n") ⟨"/a.js"⟩) "debugger;\n"
        (oneFile "debugger;\n") fixes "\n"
        ((fixing.linterOf [⟨"/a.js"⟩]).analysisSettings.analyze (fun _ => []) none
          ((fixing.linterOf [⟨"/a.js"⟩]).module (oneFile "debugger;\n") ⟨"/a.js"⟩)
          (oneFile "debugger;\n"))) ∧
      ∃ loaded state,
        fixing.Finishes [⟨"/a.js"⟩] ⟨oneFile "debugger;\n", fixing.pool⟩ loaded state ∧
        state.resources.files.writes ⟨"/a.js"⟩ ≤ 1 := by
  obtain ⟨hanalyze, hrun⟩ := fixes_or_reports
  constructor
  · obtain ⟨content, hcontent, htext⟩ := Option.map_eq_some_iff.mp
      (show ((fixing.linterOf [⟨"/a.js"⟩]).module (oneFile "debugger;\n") ⟨"/a.js"⟩).content.map
        Module.Content.text = some "debugger;\n" by decide)
    have hfixed : (fixing.linterOf [⟨"/a.js"⟩]).analysisSettings.fixedText (fun _ => []) none
        ((fixing.linterOf [⟨"/a.js"⟩]).module (oneFile "debugger;\n") ⟨"/a.js"⟩)
        "debugger;\n" = "\n" := by decide +kernel
    have h := hanalyze (fixing.linterOf [⟨"/a.js"⟩]).analysisSettings (fun _ => []) none _ content
      (oneFile "debugger;\n") rfl hcontent fun _ => rfl
    rw [htext, hfixed] at h
    exact h
  · obtain ⟨loaded, state, hfinishes, _⟩ := fixing.exists_finishes
      (List.cons_ne_nil (⟨"/a.js"⟩ : Path) []) ⟨oneFile "debugger;\n", fixing.pool⟩
    exact ⟨loaded, state, hfinishes, hrun _ _ _ _ _ hfinishes _⟩

end LintSession

end ScriptLint
