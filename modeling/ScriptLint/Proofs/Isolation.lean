/-
Rules that fail leave the others alone.

When a rule fails on a segment, what it has found there is dropped and its failure is
reported; all the rest of the analysis is as if the rule had found nothing.  Only the
wording tells a failure: a rule that ends early without one is taken for a rule that has
not failed, and what it has found stays:

* **`Inserted`** — a list that has one more entry than another one;
* **`AnalysisSettings.answering`** — the settings in which one rule answers otherwise on one
  segment;
* **`AnalysisSettings.Isolates`** — an analysis next to one in which a rule is silent;
* **`AnalysisSettings.isolates_failing_rule`** — every rule that fails is isolated, if its
  failure has a wording, and no other one is.
-/
import ScriptLint.Proofs.FailedWrites

namespace ScriptLint

/-! ### One more entry -/

/-- The second list is the first one with one more entry. -/
def Inserted {α : Type} (a : α) (xs ys : List α) : Prop :=
  ∃ first rest, xs = first ++ rest ∧ ys = first ++ a :: rest

section

variable {α β : Type} {a : α} {xs ys : List α}

theorem Inserted.length (h : Inserted a xs ys) : ys.length = xs.length + 1 := by
  obtain ⟨first, rest, rfl, rfl⟩ := h
  simp only [List.length_append, List.length_cons]
  omega

theorem Inserted.append (h : Inserted a xs ys) (before after : List α) :
    Inserted a (before ++ xs ++ after) (before ++ ys ++ after) := by
  obtain ⟨first, rest, rfl, rfl⟩ := h
  exact ⟨before ++ first, rest ++ after, by simp, by simp⟩

/-- A list around the item at a position. -/
theorem eq_take_append_drop {n : Nat} {x : β} {items : List β} (hx : items[n]? = some x) :
    items = items.take n ++ x :: items.drop (n + 1) := by
  obtain ⟨hn, hget⟩ := List.getElem?_eq_some_iff.mp hx
  rw [← hget, ← List.drop_eq_getElem_cons, List.take_append_drop]

/-- Going through numbered items: what one of them has more, they all have. -/
theorem Inserted.flatMap {items : List β} {n : Nat} {x : β} {f g : β × Nat → List α}
    (hx : items[n]? = some x) (h : Inserted a (f (x, n)) (g (x, n)))
    (hothers : ∀ y, y.2 ≠ n → f y = g y) :
    Inserted a (items.zipIdx.flatMap f) (items.zipIdx.flatMap g) := by
  have hrow : items.zipIdx = items.zipIdx.take n ++ (x, n) :: items.zipIdx.drop (n + 1) :=
    eq_take_append_drop (by simp [hx])
  -- the numbers before and behind the item are others
  have hnumber (k : Nat) (y : β × Nat) (hy : items.zipIdx[k]? = some y) : y.2 = k := by
    rw [List.getElem?_zipIdx] at hy
    obtain ⟨_, _, rfl⟩ := Option.map_eq_some_iff.mp hy
    exact Nat.zero_add k
  have hbefore : (items.zipIdx.take n).flatMap f = (items.zipIdx.take n).flatMap g := by
    refine List.flatMap_congr fun y hy => hothers y ?_
    obtain ⟨k, hk⟩ := List.mem_iff_getElem?.mp hy
    rw [List.getElem?_take] at hk
    split at hk
    · have := hnumber k y hk
      omega
    · cases hk
  have hafter : (items.zipIdx.drop (n + 1)).flatMap f =
      (items.zipIdx.drop (n + 1)).flatMap g := by
    refine List.flatMap_congr fun y hy => hothers y ?_
    obtain ⟨k, hk⟩ := List.mem_iff_getElem?.mp hy
    rw [List.getElem?_drop] at hk
    have := hnumber _ y hk
    omega
  rw [hrow, List.flatMap_append, List.flatMap_cons, List.flatMap_append, List.flatMap_cons,
    hbefore, hafter, ← List.append_assoc, ← List.append_assoc]
  exact h.append _ _

end

/-! ### Other answers of a rule -/

/-- The rule with another answer on the segment of an index. -/
def Rule.answering (index : Nat) (v : Verdict) (rule : Rule) : Rule :=
  { rule with check := fun subject => if subject.index = index then v else rule.check subject }

/-- The counts of an analysis with one more rule that has failed. -/
def AnalysisCounts.withFailure (counts : AnalysisCounts) : AnalysisCounts :=
  { counts with diagnostics := counts.diagnostics + 1, ruleFailures := counts.ruleFailures + 1 }

namespace AnalysisSettings

/-- The rule with another answer on the segment of an index, at the same severity. -/
def replaced (index : Nat) (v : Verdict) (setting : RuleSetting) : RuleSetting :=
  { setting with rule := setting.rule.answering index v }

/-- The settings in which the rule at a position has another answer on the segment of an
index. -/
def answering (settings : AnalysisSettings) (position index : Nat) (v : Verdict) :
    AnalysisSettings :=
  { settings with rules := settings.rules.modify position (replaced index v) }

variable {settings : AnalysisSettings} {links : Nat → Table Interface}
  {graph : Option ModuleGraph} {m : Module} {position index : Nat} {v : Verdict}
  {setting : RuleSetting} {s : Subject}

theorem inspectWith_replaced_of_ne (hindex : s.index ≠ index) :
    inspectWith m s (replaced index v setting) = inspectWith m s setting := by
  have hcheck : (setting.rule.answering index v).check s = setting.rule.check s := if_neg hindex
  unfold inspectWith
  rw [replaced, hcheck]
  rfl

theorem inspectWith_replaced (happlies : applies setting s = true) (hindex : s.index = index) :
    inspectWith m s (replaced index v setting) =
      match v.failure? with
      | some failure =>
        { failures := [failureDiagnostic m s.index setting.rule.name failure] }
      | none =>
        { messages := v.findings.map fun finding =>
            ⟨s.index, s.segment.offset, setting.rule.name, setting.severity, finding⟩ } := by
  have hcheck : (setting.rule.answering index v).check s = v := if_pos hindex
  have happlies' : applies (replaced index v setting) s = true := happlies
  rw [inspectWith, if_pos happlies']
  simp only [replaced, hcheck]
  rfl

/-- A kept segment goes with one number. -/
theorem eq_of_kept {part : Part} (hpart : m.kept[index]? = some part) {x : Part × Nat}
    (hx : x ∈ m.kept.zipIdx) (hindex : x.2 = index) : part = x.1 := by
  have hget : m.kept[x.2]? = some x.1 := List.mk_mem_zipIdx_iff_getElem?.mp hx
  rw [hindex, hpart] at hget
  exact Option.some.inj hget

/-- On other segments nothing changes. -/
theorem inspectPart_answering_of_ne {i : Nat} (hi : i ≠ index) (part : Part) :
    (settings.answering position index v).inspectPart links graph m i part =
      settings.inspectPart links graph m i part := by
  have hmap (s : Subject) (hindex : s.index ≠ index) :
      (settings.rules.modify position (replaced index v)).map (inspectWith m s) =
        settings.rules.map (inspectWith m s) := by
    refine List.ext_getElem? fun n => ?_
    rw [List.getElem?_map, List.getElem?_map, List.getElem?_modify]
    cases settings.rules[n]? with
    | none => rfl
    | some r =>
      by_cases hn : position = n
      · simp [hn, inspectWith_replaced_of_ne hindex]
      · simp [hn]
  unfold inspectPart
  cases part.outcome with
  | error _ => rfl
  | ok e =>
    simp only [inspect, answering]
    rw [hmap _ hi]

/-- What rules say, with what one of them says in the middle. -/
theorem inspect_around (m : Module) (s : Subject) {before after : RuleSet}
    (hrules : settings.rules = before ++ setting :: after) :
    (settings.inspect m s).messages =
        before.flatMap (fun r => (inspectWith m s r).messages) ++
          (inspectWith m s setting).messages ++
            after.flatMap (fun r => (inspectWith m s r).messages) ∧
      (settings.inspect m s).failures =
        before.flatMap (fun r => (inspectWith m s r).failures) ++
          (inspectWith m s setting).failures ++
            after.flatMap (fun r => (inspectWith m s r).failures) := by
  simp only [inspect, hrules, List.map_append, List.map_cons, List.flatMap_append,
    List.flatMap_cons, List.flatMap_map, List.append_assoc, and_self]

theorem rules_answering (index : Nat) (v : Verdict)
    (hsetting : settings.rules[position]? = some setting) :
    (settings.answering position index v).rules = settings.rules.take position ++
      replaced index v setting :: settings.rules.drop (position + 1) := by
  obtain ⟨hposition, hget⟩ := List.getElem?_eq_some_iff.mp hsetting
  rw [answering, List.modify_eq_take_cons_drop hposition, hget]

/-! ### A rule that ends early -/

section

variable {part : Part} {e : Extract} {mishap : Mishap}

/-- A rule that fails says nothing, and its failure is reported. -/
theorem inspectWith_of_worded (happlies : applies setting s = true)
    (hmishap : (setting.rule.check s).mishap = some mishap) (hmessage : mishap.message ≠ []) :
    inspectWith m s setting =
      { failures := [failureDiagnostic m s.index setting.rule.name mishap.message] } := by
  have hfailure : (setting.rule.check s).failure? = some mishap.message := by
    simp [Verdict.failure?, hmishap, hmessage]
  rw [inspectWith, if_pos happlies]
  simp only [hfailure]

/-- A rule that ends early without any wording has said what it has found. -/
theorem inspectWith_of_unworded (happlies : applies setting s = true)
    (hmishap : (setting.rule.check s).mishap = some mishap) (hmessage : mishap.message = []) :
    inspectWith m s setting =
      inspectWith m s (replaced s.index ⟨(setting.rule.check s).findings, none⟩ setting) := by
  have hfailure : (setting.rule.check s).failure? = none := by
    simp [Verdict.failure?, hmishap, hmessage]
  rw [inspectWith_replaced happlies rfl, inspectWith, if_pos happlies]
  simp only [hfailure]
  rfl

/-- On its segment a rule that fails adds its report and nothing else. -/
theorem inspectPart_of_worded (he : part.outcome = .ok e)
    (hsetting : settings.rules[position]? = some setting)
    (happlies : applies setting (subject links graph m index part.segment e) = true)
    (hmishap : (setting.rule.check (subject links graph m index part.segment e)).mishap =
      some mishap) (hmessage : mishap.message ≠ []) :
    (settings.inspectPart links graph m index part).1.messages =
        ((settings.answering position index ⟨[], none⟩).inspectPart links graph m index
          part).1.messages ∧
      Inserted (failureDiagnostic m index setting.rule.name mishap.message)
        ((settings.answering position index ⟨[], none⟩).inspectPart links graph m index
          part).1.failures
        (settings.inspectPart links graph m index part).1.failures ∧
      (settings.inspectPart links graph m index part).2 =
        ((settings.answering position index ⟨[], none⟩).inspectPart links graph m index
          part).2 := by
  have hown := inspectWith_of_worded (m := m) happlies hmishap hmessage
  have hsilent : inspectWith m (subject links graph m index part.segment e)
      (replaced index ⟨[], none⟩ setting) = {} :=
    inspectWith_replaced (v := ⟨[], none⟩) happlies rfl
  obtain ⟨hmessages, hfailures⟩ := inspect_around m (subject links graph m index part.segment e)
    (eq_take_append_drop hsetting)
  obtain ⟨hmessages', hfailures'⟩ := inspect_around m
    (subject links graph m index part.segment e)
    (rules_answering index ⟨[], none⟩ hsetting)
  simp only [inspectPart, he, and_true]
  constructor
  · rw [hmessages, hmessages', hown, hsilent]
  · rw [hfailures, hfailures', hown, hsilent, List.append_nil]
    exact ⟨_, _, rfl, by rw [List.append_assoc]; rfl⟩

/-- On its segment a rule that ends early without any wording counts as one that has not
failed. -/
theorem inspectPart_of_unworded (he : part.outcome = .ok e)
    (hsetting : settings.rules[position]? = some setting)
    (happlies : applies setting (subject links graph m index part.segment e) = true)
    (hmishap : (setting.rule.check (subject links graph m index part.segment e)).mishap =
      some mishap) (hmessage : mishap.message = []) :
    settings.inspectPart links graph m index part =
      (settings.answering position index
        ⟨(setting.rule.check (subject links graph m index part.segment e)).findings,
          none⟩).inspectPart links graph m index part := by
  have hown := inspectWith_of_unworded (m := m) happlies hmishap hmessage
  have hinspect : settings.inspect m (subject links graph m index part.segment e) =
      (settings.answering position index
        ⟨(setting.rule.check (subject links graph m index part.segment e)).findings,
          none⟩).inspect m (subject links graph m index part.segment e) := by
    obtain ⟨hmessages, hfailures⟩ := inspect_around m
      (subject links graph m index part.segment e) (eq_take_append_drop hsetting)
    obtain ⟨hmessages', hfailures'⟩ := inspect_around m
      (subject links graph m index part.segment e)
      (rules_answering index ⟨_, none⟩ hsetting)
    rw [hown] at hmessages hfailures
    rw [Inspection.mk.injEq, hmessages', hfailures']
    exact ⟨hmessages, hfailures⟩
  simp only [inspectPart, he, hinspect]

/-- A rule that ends early without any wording fails no more than a silent one. -/
theorem failures_inspectPart_of_unworded (he : part.outcome = .ok e)
    (hsetting : settings.rules[position]? = some setting)
    (happlies : applies setting (subject links graph m index part.segment e) = true)
    (hmishap : (setting.rule.check (subject links graph m index part.segment e)).mishap =
      some mishap) (hmessage : mishap.message = []) :
    (settings.inspectPart links graph m index part).1.failures =
      ((settings.answering position index ⟨[], none⟩).inspectPart links graph m index
        part).1.failures := by
  have hown := inspectWith_of_unworded (m := m) happlies hmishap hmessage
  rw [inspectWith_replaced happlies rfl] at hown
  have hsilent : inspectWith m (subject links graph m index part.segment e)
      (replaced index ⟨[], none⟩ setting) = {} :=
    inspectWith_replaced (v := ⟨[], none⟩) happlies rfl
  obtain ⟨-, hfailures⟩ := inspect_around m (subject links graph m index part.segment e)
    (eq_take_append_drop hsetting)
  obtain ⟨-, hfailures'⟩ := inspect_around m (subject links graph m index part.segment e)
    (rules_answering index ⟨[], none⟩ hsetting)
  simp only [inspectPart, he]
  rw [hfailures, hfailures', hown, hsilent]
  rfl

end

/-! ### The whole analysis -/

/-- An analysis in which a rule has failed with the given report, next to the one in which
the rule is silent: there are the same messages, and with them the same fixes, the report is
added and counted, and the same is written. -/
structure Isolates (settings silent : AnalysisSettings) (links : Nat → Table Interface)
    (graph : Option ModuleGraph) (m : Module) {σ : Type} [FileStore σ] (files : σ)
    (report : Diagnostic) : Prop where
  messages : settings.messages links graph m = silent.messages links graph m
  failures : Inserted report (silent.failures links graph m) (settings.failures links graph m)
  emitted : Inserted report (silent.analyze links graph m files).1.emitted
    (settings.analyze links graph m files).1.emitted
  counts : (settings.analyze links graph m files).1.counts =
    (silent.analyze links graph m files).1.counts.map AnalysisCounts.withFailure
  files : (settings.analyze links graph m files).2 = (silent.analyze links graph m files).2

variable {σ : Type} [FileStore σ]

/-- The report on messages, after one more thing that was said early. -/
theorem finish_inserted {report : Diagnostic} {early early' : List Diagnostic}
    (h : Inserted report early early') (messages : List Message) (more : List Diagnostic)
    (owners : List Nat) (counts : AnalysisCounts) :
    Inserted report (finish m messages early more owners counts).emitted
        (finish m messages early' more owners counts).emitted ∧
      (finish m messages early' more owners
          { counts with ruleFailures := counts.ruleFailures + 1 }).counts =
        (finish m messages early more owners counts).counts.map AnalysisCounts.withFailure := by
  have hemitted : Inserted report (finish m messages early more owners counts).emitted
      (finish m messages early' more owners counts).emitted := by
    have happend := h.append [] (more ++ AnalysisSettings.report m messages owners)
    simpa only [List.nil_append, finish, List.append_assoc] using happend
  refine ⟨hemitted, ?_⟩
  have hlength := hemitted.length
  simp only [finish, Except.map, AnalysisCounts.withFailure] at hlength ⊢
  rw [hlength]

/-- What is said about a module decides what its analysis comes to. -/
theorem isolates_of_inserted {silent : AnalysisSettings} {report : Diagnostic}
    {content : Module.Content} (hcontent : m.content = some content)
    (hfix : settings.fix = silent.fix)
    (hmessages : settings.messages links graph m = silent.messages links graph m)
    (hfailures : Inserted report (silent.failures links graph m)
      (settings.failures links graph m))
    (hearly : Inserted report (silent.early links graph m) (settings.early links graph m))
    (files : σ) : Isolates settings silent links graph m files report := by
  have htext : settings.fixedText links graph m content.text =
      silent.fixedText links graph m content.text := by
    rw [fixedText, hmessages, ← fixedText]
  have hanswer : Inserted report (silent.analyze links graph m files).1.emitted
        (settings.analyze links graph m files).1.emitted ∧
      (settings.analyze links graph m files).1.counts =
        (silent.analyze links graph m files).1.counts.map AnalysisCounts.withFailure ∧
      (settings.analyze links graph m files).2 = (silent.analyze links graph m files).2 := by
    rw [analyze_content hcontent, analyze_content hcontent, hmessages, hfix, htext,
      hfailures.length]
    dsimp only
    split
    · generalize FileStore.write m.path (silent.fixedText links graph m content.text) files =
        write
      obtain ⟨outcome, after⟩ := write
      cases outcome with
      | ok _ =>
        obtain ⟨hemitted, hcounts⟩ := finish_inserted (m := m) hearly
          (silent.messages links graph m) [] _
          { ruleFailures := _, fixesApplied := _, written := true }
        exact ⟨hemitted, hcounts, rfl⟩
      | error mishap =>
        cases mishap with
        | failed e =>
          obtain ⟨hemitted, hcounts⟩ := finish_inserted (m := m) hearly
            (silent.messages links graph m) [writeDiagnostic m e] [] { ruleFailures := _ }
          exact ⟨hemitted, hcounts, rfl⟩
        | brokenOff reason => exact ⟨hearly, rfl, rfl⟩
    · obtain ⟨hemitted, hcounts⟩ := finish_inserted (m := m) hearly
        (silent.messages links graph m) [] [] { ruleFailures := _ }
      exact ⟨hemitted, hcounts, rfl⟩
  exact ⟨hmessages, hfailures, hanswer.1, hanswer.2.1, hanswer.2.2⟩

/-- Settings that inspect the segments in the same way analyze the module in the same way. -/
theorem analyze_congr_inspectPart {other : AnalysisSettings} (hfix : settings.fix = other.fix)
    (h : ∀ x ∈ m.kept.zipIdx, settings.inspectPart links graph m x.2 x.1 =
      other.inspectPart links graph m x.2 x.1) (files : σ) :
    settings.analyze links graph m files = other.analyze links graph m files := by
  have hinspections : (m.kept.zipIdx.map fun x => settings.inspectPart links graph m x.2 x.1) =
      m.kept.zipIdx.map fun x => other.inspectPart links graph m x.2 x.1 :=
    List.map_congr_left h
  unfold analyze
  simp only [hinspections, hfix]

/-- A rule that fails with a wording is isolated. -/
theorem isolates_of_worded {part : Part} {e : Extract} {mishap : Mishap}
    (hpart : m.kept[index]? = some part) (he : part.outcome = .ok e)
    (hsetting : settings.rules[position]? = some setting)
    (happlies : applies setting (subject links graph m index part.segment e) = true)
    (hmishap : (setting.rule.check (subject links graph m index part.segment e)).mishap =
      some mishap) (hmessage : mishap.message ≠ []) (files : σ) :
    Isolates settings (settings.answering position index ⟨[], none⟩) links graph m files
      (failureDiagnostic m index setting.rule.name mishap.message) := by
  obtain ⟨hmessages, hfailures, hunresolved⟩ :=
    inspectPart_of_worded he hsetting happlies hmishap hmessage
  have hothers (y : Part × Nat) (hy : y.2 ≠ index) :
      (settings.answering position index ⟨[], none⟩).inspectPart links graph m y.2 y.1 =
        settings.inspectPart links graph m y.2 y.1 := inspectPart_answering_of_ne hy y.1
  have hcontent : ∃ content, m.content = some content := by
    cases hcontent : m.content with
    | none => simp [Module.kept, hcontent] at hpart
    | some content => exact ⟨content, rfl⟩
  obtain ⟨content, hcontent⟩ := hcontent
  have hfix : settings.fix = (settings.answering position index ⟨[], none⟩).fix := rfl
  refine isolates_of_inserted hcontent hfix ?_ ?_ ?_ files
  · rw [AnalysisSettings.messages, AnalysisSettings.messages]
    refine List.flatMap_congr fun y hy => ?_
    rw [← messages_inspectPart, ← messages_inspectPart]
    by_cases hindex : y.2 = index
    · rw [← eq_of_kept hpart hy hindex, hindex, hmessages]
    · rw [hothers y hindex]
  · exact Inserted.flatMap hpart hfailures fun y hy => by rw [hothers y hy]
  · refine Inserted.flatMap hpart ?_ fun y hy => by rw [hothers y hy]
    rw [hunresolved]
    exact hfailures.append [] _

/-- **A rule that fails on a segment is isolated**, if its failure has a wording, and only
then: a rule that ends early without one counts as one that has not failed. -/
theorem isolates_failing_rule {part : Part} {e : Extract} {mishap : Mishap}
    (hpart : m.kept[index]? = some part) (he : part.outcome = .ok e)
    (hsetting : settings.rules[position]? = some setting)
    (happlies : applies setting (subject links graph m index part.segment e) = true)
    (hmishap : (setting.rule.check (subject links graph m index part.segment e)).mishap =
      some mishap) (files : σ) :
    (Isolates settings (settings.answering position index ⟨[], none⟩) links graph m files
        (failureDiagnostic m index setting.rule.name mishap.message) ↔ mishap.message ≠ []) ∧
      (mishap.message = [] → settings.analyze links graph m files =
        (settings.answering position index
          ⟨(setting.rule.check (subject links graph m index part.segment e)).findings,
            none⟩).analyze links graph m files) := by
  refine ⟨⟨fun h hmessage => ?_, fun hmessage =>
    isolates_of_worded hpart he hsetting happlies hmishap hmessage files⟩, fun hmessage => ?_⟩
  · -- without a wording no failure is reported, so none is added
    have hsilent : settings.failures links graph m =
        (settings.answering position index ⟨[], none⟩).failures links graph m :=
      List.flatMap_congr fun x hx => by
        by_cases hindex : x.2 = index
        · rw [← eq_of_kept hpart hx hindex, hindex,
            failures_inspectPart_of_unworded he hsetting happlies hmishap hmessage]
        · rw [inspectPart_answering_of_ne hindex]
    have hlength := h.failures.length
    rw [hsilent] at hlength
    omega
  · have hown := inspectPart_of_unworded he hsetting happlies hmishap hmessage
    have hfix : settings.fix = (settings.answering position index
        ⟨(setting.rule.check (subject links graph m index part.segment e)).findings,
          none⟩).fix := rfl
    refine analyze_congr_inspectPart hfix (fun x hx => ?_) files
    by_cases hindex : x.2 = index
    · rw [← eq_of_kept hpart hx hindex, hindex, hown]
    · rw [inspectPart_answering_of_ne hindex]

end AnalysisSettings

/-! ### A rule that quits -/

/-- A rule that reports the first three bytes and then fails with a wording. -/
def Rule.quitting (wording : Bytes) : Rule where
  name := "quitting"
  description := ""
  severity := .error
  check _ := ⟨[{ span := ⟨0, 3⟩, message := "partial" }], some (.failed ⟨.disk, wording, none⟩)⟩

namespace LintSession

/-- All rules, and one that fails with a wording. -/
def interrupted (wording : Bytes) : LintSession :=
  { standard with rules := ⟨Rule.quitting wording, .error⟩ :: standard.rules }

/-- The settings of its analyses. -/
def interruptedSettings (wording : Bytes) : AnalysisSettings :=
  ((interrupted wording).linterOf [⟨"/a.js"⟩]).analysisSettings

/-- A module with one statement. -/
def declaring : Module :=
  (standard.linterOf [⟨"/a.js"⟩]).module (oneFile "let x = 1;\n") ⟨"/a.js"⟩

/-- With a wording, the rule is isolated on its segment. -/
theorem isolates_quitting_rule :
    (interruptedSettings "no luck").Isolates
      ((interruptedSettings "no luck").answering 0 0 ⟨[], none⟩) (fun _ => []) none declaring
      (oneFile "let x = 1;\n")
      (AnalysisSettings.failureDiagnostic declaring 0 "quitting" "no luck") := by
  have hkept : (declaring.kept[0]?.any fun part => part.outcome.isOk) = true := by
    decide +kernel
  obtain ⟨part, hpart, hok⟩ : ∃ part, declaring.kept[0]? = some part ∧
      part.outcome.isOk = true := by
    cases hpart : declaring.kept[0]? with
    | none => rw [hpart] at hkept; cases hkept
    | some part => rw [hpart] at hkept; exact ⟨part, rfl, hkept⟩
  cases he : part.outcome with
  | error d => rw [he] at hok; cases hok
  | ok e =>
    have hsetting : (interruptedSettings "no luck").rules[0]? =
        some ⟨Rule.quitting "no luck", .error⟩ := rfl
    have happlies : AnalysisSettings.applies ⟨Rule.quitting "no luck", .error⟩
        (AnalysisSettings.subject (fun _ => []) none declaring 0 part.segment e) = true := rfl
    have hmishap : ((Rule.quitting "no luck").check (AnalysisSettings.subject (fun _ => []) none
        declaring 0 part.segment e)).mishap = some (.failed ⟨.disk, "no luck", none⟩) := rfl
    have hmessage : (Mishap.failed ⟨.disk, "no luck", none⟩).message ≠ [] := by decide
    exact (AnalysisSettings.isolates_failing_rule hpart he hsetting happlies hmishap
      (oneFile "let x = 1;\n")).1.mpr hmessage

/-- Without one, what the rule has found stays, and nothing tells of its failure. -/
theorem keeps_quitting_rule :
    codes (interrupted "no luck") (oneFile "let x = 1;\n") = some [Code.ruleFailure] ∧
      codes (interrupted "") (oneFile "let x = 1;\n") = some [(Rule.quitting "").name] ∧
      ((interrupted "").run [⟨"/a.js"⟩] ⟨oneFile "let x = 1;\n",
        (interrupted "").pool⟩).1.toOption.map (fun x => x.1.counts.ruleFailures) = some 0 ∧
      ¬ (interruptedSettings "").Isolates
        ((interruptedSettings "").answering 0 0 ⟨[], none⟩) (fun _ => []) none declaring
        (oneFile "let x = 1;\n")
        (AnalysisSettings.failureDiagnostic declaring 0 "quitting" "") := by
  refine ⟨by cbv, by cbv, by decide +kernel, fun h => ?_⟩
  have hfailures : (interruptedSettings "").failures (fun _ => []) none declaring = [] := by
    decide +kernel
  have hlength := h.failures.length
  rw [hfailures] at hlength
  cases hlength

end LintSession

end ScriptLint
