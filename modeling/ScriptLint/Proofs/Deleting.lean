/-
What a run with fixing deletes.

Among the rules that are always known only `no-debugger` proposes fixes.  If the
`debugger` statements of the module level stand alone in every segment of a file, then
all other tokens of the file are still there when the run has ended, in their order:

* **`Outline.spared`** — the tokens that no fix is to touch;
* **`Fix.Deletes`** — the fix deletes a `debugger` of one of some segments;
* **`LintSession.run_deletes_debuggers`** — when fixes delete `debugger` statements only,
  and what then stands in the files after a run.
-/
import ScriptLint.Proofs.Completion
import ScriptLint.Proofs.Closure
import ScriptLint.Proofs.Debuggers
import ScriptLint.Proofs.Fixing

namespace ScriptLint

/-! ### The tokens that are to stay -/

section

variable (o : Outline)

/-- The token at an index is neither a `debugger` that is no property nor the semicolon
after one. -/
def Outline.isSpared (i : Nat) : Bool :=
  !o.isDebugger i && !(0 < i && o.is i ";" && o.isDebugger (i - 1))

/-- The tokens other than `debugger` words and the semicolons after them. -/
def Outline.spared : List Token :=
  ((Outline.indices 0 o.size).filter o.isSpared).map o.token

end

/-- The tokens of a segment other than `debugger` words and the semicolons after them. -/
def Segment.spared (s : Segment) : List Token :=
  match s.outline with
  | .ok o => o.spared
  | .error _ => []

/-- The places of these tokens in the file. -/
def Segment.sparedSpans (s : Segment) : List Span := s.spared.map fun t => t.span.shifted s.offset

/-- The fix deletes a `debugger` of one of the segments, with its semicolon. -/
def Fix.Deletes (segments : List Segment) (f : Fix) : Prop :=
  ∃ s ∈ segments, ∃ o span, s.outline = .ok o ∧ o.JustDebugger span ∧
    f.span = span.shifted s.offset

variable {o : Outline} {source : Bytes} {i j : Nat}

theorem Outline.mem_spared {t : Token} (h : t ∈ o.spared) :
    ∃ i < o.size, o.isSpared i = true ∧ o.token i = t := by
  obtain ⟨i, hi, rfl⟩ := List.mem_map.mp h
  obtain ⟨hi, hspared⟩ := List.mem_filter.mp hi
  have hlt := List.mem_range'_1.mp hi
  exact ⟨i, by omega, hspared, rfl⟩

theorem Outline.pairwise_spared (ho : o.Lawful source) : o.spared.Pairwise Token.Precedes := by
  unfold Outline.spared
  rw [List.pairwise_map]
  refine List.Pairwise.imp_of_mem (fun {i j} _ hj hij => ?_) 
    (List.Pairwise.filter _ List.pairwise_lt_range')
  have hlt := List.mem_range'_1.mp (List.mem_filter.mp hj).1
  exact ho.ordered i j hij (by omega)

/-- The range of a `debugger` lies in its text. -/
theorem Outline.JustDebugger.inside {span : Span} (ho : o.Lawful source)
    (h : o.JustDebugger span) :
    span.start.toNat ≤ span.stop.toNat ∧ span.stop.toNat ≤ source.length := by
  obtain ⟨i, hdebugger, rfl, -⟩ := h
  have hi := Outline.lt_of_is (Bool.and_eq_true_iff.mp hdebugger).1
  have hlt := o.lt_debuggerEnd i
  have hle := Outline.debuggerEnd_le hi
  exact ⟨Nat.le_of_lt (ho.start_lt_stop (Nat.le_sub_one_of_lt hlt) (by omega)),
    (ho.stands _ (by omega)).inside⟩

/-- A token that is to stay is apart from the range of any `debugger`. -/
theorem Outline.JustDebugger.apart {span : Span} (h : o.JustDebugger span) (hi : i < o.size)
    (hspared : o.isSpared i = true) :
    (o.token i).span.stop.toNat ≤ span.start.toNat ∨
      span.stop.toNat ≤ (o.token i).span.start.toNat := by
  obtain ⟨k, hdebugger, _, hother⟩ := h
  refine hother i hi ?_
  simp only [Outline.isSpared, Bool.and_eq_true, Bool.not_eq_true', Bool.and_eq_false_iff,
    decide_eq_false_iff_not] at hspared
  by_contra hwithin
  simp only [not_or, Nat.not_lt, Nat.not_le] at hwithin
  unfold Outline.debuggerEnd at hwithin
  split at hwithin
  case isTrue hmark =>
    rcases Nat.eq_or_lt_of_le hwithin.1 with rfl | hlt
    · simp [hdebugger] at hspared
    · obtain rfl : i = k + 1 := by omega
      simp [hdebugger, hmark] at hspared
  case isFalse =>
    obtain rfl : i = k := by omega
    simp [hdebugger] at hspared

/-! ### Segments and fixes in a file -/

section

variable {text : Bytes} {segments : List Segment} {s : Segment}

theorem stands_of_mem_spared {t : Token} (hlength : s.text.length < 2 ^ 32) (ht : t ∈ s.spared) :
    t.Stands s.text := by
  unfold Segment.spared at ht
  split at ht
  · rename_i o houtline
    obtain ⟨i, hi, _, rfl⟩ := Outline.mem_spared ht
    exact (Segment.lawful_outline hlength houtline).stands i hi
  · cases ht

/-- A span of a segment as one of the file. -/
theorem toNat_shifted {span : Span} (hlength : text.length < 2 ^ 32) (hs : s.LiesIn text)
    (hle : span.start.toNat ≤ span.stop.toNat) (hstop : span.stop.toNat ≤ s.text.length) :
    (span.shifted s.offset).start.toNat = s.offset.toNat + span.start.toNat ∧
      (span.shifted s.offset).stop.toNat = s.offset.toNat + span.stop.toNat := by
  have := hs.inside
  simp only [Span.shifted, UInt32.toNat_add]
  omega

/-- The tokens of a segment stand in the file. -/
theorem cut_shifted {t : Token} (hlength : text.length < 2 ^ 32) (hs : s.LiesIn text)
    (ht : t.Stands s.text) : (t.span.shifted s.offset).cut text = t.text := by
  obtain ⟨hstart, hstop⟩ := toNat_shifted hlength hs (Nat.le_of_lt ht.nonempty) ht.inside
  have hsize : s.offset.toNat + t.span.stop.toNat - (s.offset.toNat + t.span.start.toNat) =
      t.span.stop.toNat - t.span.start.toNat := by omega
  have hinside := ht.inside
  have hnonempty := ht.nonempty
  rw [Span.cut, hstart, hstop, hsize, ht.cut, Span.cut, hs.slice,
    Bytes.slice_slice _ (by omega)]

/-- The spans of a segment lie where it does. -/
theorem mem_sparedSpans {span : Span} (hlength : text.length < 2 ^ 32) (hs : s.LiesIn text)
    (h : span ∈ s.sparedSpans) :
    s.offset.toNat ≤ span.start.toNat ∧ span.start.toNat ≤ span.stop.toNat ∧
      span.stop.toNat ≤ s.offset.toNat + s.text.length := by
  obtain ⟨t, ht, rfl⟩ := List.mem_map.mp h
  have hstands := stands_of_mem_spared (by have := hs.inside; omega) ht
  have hnonempty := hstands.nonempty
  have hinside := hstands.inside
  obtain ⟨hstart, hstop⟩ := toNat_shifted hlength hs (Nat.le_of_lt hnonempty) hinside
  omega

theorem pairwise_sparedSpans (hlength : text.length < 2 ^ 32) (hs : s.LiesIn text) :
    s.sparedSpans.Pairwise fun a b => a.stop.toNat ≤ b.start.toNat := by
  have hsize : s.text.length < 2 ^ 32 := by have := hs.inside; omega
  have hordered : s.spared.Pairwise Token.Precedes := by
    unfold Segment.spared
    split
    · rename_i o houtline
      exact Outline.pairwise_spared (Segment.lawful_outline hsize houtline)
    · exact .nil
  unfold Segment.sparedSpans
  rw [List.pairwise_map]
  refine List.Pairwise.imp_of_mem (fun {t t'} ht ht' hbefore => ?_) hordered
  have hstands := stands_of_mem_spared hsize ht
  have hstands' := stands_of_mem_spared hsize ht'
  rw [(toNat_shifted hlength hs (Nat.le_of_lt hstands.nonempty) hstands.inside).2,
    (toNat_shifted hlength hs (Nat.le_of_lt hstands'.nonempty) hstands'.inside).1]
  exact Nat.add_le_add_left hbefore _

theorem row_sparedSpans (hlength : text.length < 2 ^ 32) (h : LaidFrom text 0 segments) :
    Row 0 text.length (segments.flatMap Segment.sparedSpans) := by
  refine row_of_pairwise (Nat.zero_le _) (fun span hspan => ?_) ?_
  · obtain ⟨s, hs, hspan⟩ := List.mem_flatMap.mp hspan
    have hs := (h.liesIn s hs).1
    have hin := mem_sparedSpans hlength hs hspan
    exact ⟨Nat.zero_le _, hin.2.1, Nat.le_trans hin.2.2 hs.inside⟩
  rw [List.pairwise_flatMap]
  refine ⟨fun s hs => pairwise_sparedSpans hlength (h.liesIn s hs).1, ?_⟩
  refine List.Pairwise.imp_of_mem (fun {s s'} hs hs' hbefore span hspan span' hspan' => ?_)
    h.ordered
  have hin := mem_sparedSpans hlength (h.liesIn s hs).1 hspan
  have hin' := mem_sparedSpans hlength (h.liesIn s' hs').1 hspan'
  simp only [Segment.Precedes] at hbefore
  omega

theorem map_cut_sparedSpans (hlength : text.length < 2 ^ 32) (h : LaidFrom text 0 segments) :
    (segments.flatMap Segment.sparedSpans).map (·.cut text) =
      (segments.flatMap Segment.spared).map Token.text := by
  rw [List.map_flatMap, List.map_flatMap]
  refine List.flatMap_congr fun s hs => ?_
  have hs := (h.liesIn s hs).1
  rw [Segment.sparedSpans, List.map_map]
  refine List.map_congr_left fun t ht => ?_
  exact cut_shifted hlength hs (stands_of_mem_spared (by have := hs.inside; omega) ht)

/-- What is to stay is apart from what fixes delete. -/
theorem Fix.Deletes.apart {f : Fix} (hf : f.Deletes segments) (hlength : text.length < 2 ^ 32)
    (h : LaidFrom text 0 segments) {piece : Span}
    (hpiece : piece ∈ segments.flatMap Segment.sparedSpans) :
    piece.stop.toNat ≤ f.span.start.toNat ∨ f.span.stop.toNat ≤ piece.start.toNat := by
  obtain ⟨s, hs, o, span, houtline, hjust, hfix⟩ := hf
  obtain ⟨s', hs', hpiece⟩ := List.mem_flatMap.mp hpiece
  have hin := (h.liesIn s hs).1
  have hsize : s.text.length < 2 ^ 32 := by have := hin.inside; omega
  obtain ⟨hle, hinside⟩ := hjust.inside (Segment.lawful_outline hsize houtline)
  obtain ⟨hstart, hstop⟩ := toNat_shifted hlength hin hle hinside
  have hplace := mem_sparedSpans hlength (h.liesIn s' hs').1 hpiece
  rw [hfix, hstart, hstop]
  rcases h.eq_or_precedes hs hs' with rfl | hbefore | hafter
  · obtain ⟨t, ht, rfl⟩ := List.mem_map.mp hpiece
    have hstands := stands_of_mem_spared hsize ht
    rw [(toNat_shifted hlength hin (Nat.le_of_lt hstands.nonempty) hstands.inside).1,
      (toNat_shifted hlength hin (Nat.le_of_lt hstands.nonempty) hstands.inside).2]
    simp only [Segment.spared, houtline] at ht
    obtain ⟨i, hi, hspared, rfl⟩ := Outline.mem_spared ht
    have := hjust.apart hi hspared
    omega
  · simp only [Segment.Precedes] at hbefore
    omega
  · simp only [Segment.Precedes] at hafter
    omega

/-- **Fixes that delete `debugger` statements** leave all other tokens standing. -/
theorem standing_of_deletes {fixes : List Fix} (hlength : text.length < 2 ^ 32)
    (h : LaidFrom text 0 segments) (hfixes : ∀ f ∈ fixes, f.Deletes segments) :
    Standing ((segments.flatMap Segment.spared).map Token.text) (Fix.apply text fixes).output := by
  rw [← map_cut_sparedSpans hlength h]
  exact Fix.standing_apply (row_sparedSpans hlength h) fun f hf piece hpiece =>
    (hfixes f hf).apart hlength h hpiece

end

/-! ### The fixes of an analysis -/

/-- Of the rules that are always known only one proposes fixes. -/
theorem Rule.eq_noDebugger_of_fix {rule : Rule} {subject : Subject} {finding : Finding} {fix : Fix}
    (hrule : rule ∈ Rule.builtin) (h : finding ∈ (rule.check subject).findings)
    (hfix : finding.fix = some fix) : rule = Rule.noDebugger := by
  simp only [Rule.builtin, List.mem_cons, List.not_mem_nil, or_false] at hrule
  rcases hrule with rfl | rfl | rfl | rfl | rfl | rfl
  case inl => rfl
  -- the findings of every other rule are made without a fix
  all_goals exfalso
  case inr.inl =>
    obtain ⟨_, _, rfl⟩ := List.mem_map.mp h
    cases hfix
  case inr.inr.inl =>
    simp only [Rule.noUnusedImports] at h
    split at h
    · cases h
    · obtain ⟨_, _, rfl⟩ := List.mem_map.mp h
      cases hfix
  case inr.inr.inr.inl =>
    simp only [Rule.noSelfImport] at h
    split at h
    · cases h
    · obtain ⟨_, _, rfl⟩ := List.mem_map.mp h
      cases hfix
  case inr.inr.inr.inr.inl =>
    simp only [Rule.noCycle] at h
    split at h
    · obtain ⟨_, _, hfinding⟩ := List.mem_filterMap.mp h
      obtain ⟨_, _, rfl⟩ := Option.map_eq_some_iff.mp hfinding
      cases hfix
    · cases h
  case inr.inr.inr.inr.inr =>
    simp only [Rule.named] at h
    split at h
    · obtain ⟨_, _, rfl⟩ := List.mem_map.mp h
      cases hfix
    · cases h

theorem Rule.mem_noDebugger_of_fix {rule : Rule} {subject : Subject} {finding : Finding} {fix : Fix}
    (hrule : rule ∈ Rule.builtin) (h : finding ∈ (rule.check subject).findings)
    (hfix : finding.fix = some fix) : finding ∈ (Rule.noDebugger.check subject).findings :=
  eq_noDebugger_of_fix hrule h hfix ▸ h

namespace AnalysisSettings

variable {settings : AnalysisSettings} {m : Module} {graph : Option ModuleGraph}
  {links : Nat → Table Interface}

/-- A message with a fix comes from a finding of `no-debugger`. -/
theorem finding_of_mem_messages (hrules : ∀ r ∈ settings.rules, r.rule ∈ Rule.builtin) {index : Nat}
    {part : Part} {message : Message} {f : Fix}
    (h : message ∈ (settings.inspectPart links graph m index part).1.messages)
    (hf : message.fix? = some f) :
    ∃ e subject finding fix, part.outcome = .ok e ∧ subject.segment = part.segment ∧
      subject.script = e.script ∧ finding ∈ (Rule.noDebugger.check subject).findings ∧
      finding.fix = some fix ∧ f.span = fix.span.shifted part.segment.offset := by
  unfold inspectPart at h
  cases hout : part.outcome with
  | error _ => simp [hout] at h
  | ok e =>
    simp only [hout, inspect, List.mem_flatMap, List.mem_map, exists_exists_and_eq_and] at h
    obtain ⟨setting, hsetting, h⟩ := h
    unfold inspectWith at h
    split at h
    · dsimp only at h
      split at h
      · cases h
      · obtain ⟨finding, hfinding, rfl⟩ := List.mem_map.mp h
        obtain ⟨fix, hfix, rfl⟩ := Option.map_eq_some_iff.mp hf
        exact ⟨e, _, finding, fix, rfl, rfl, rfl,
          Rule.mem_noDebugger_of_fix (hrules _ hsetting) hfinding hfix, hfix, rfl⟩
    · cases h

end AnalysisSettings

namespace Linter

variable {l : Linter} {files : MemoryFiles}

/-- **What is written for a file** has all tokens but those of `debugger` statements, if
these stand alone. -/
theorem standing_written {g : ModuleGraph} {cross : Bool} {settings : AnalysisSettings} {p : Path}
    {form : FileForm} {text out : Bytes} {segments : List Segment}
    (hrules : ∀ r ∈ settings.rules, r.rule ∈ Rule.builtin) (hlength : text.length < 2 ^ 32)
    (hform : l.loading.loaders.find? p.extension = some form)
    (htext : files.content p = some text) (hsplit : form.split p.extension text = .ok segments)
    (halone : ∀ s ∈ segments, s.DebuggersStandAlone)
    (h : settings.written g cross (l.module files p) = some out) :
    Standing ((segments.flatMap Segment.spared).map Token.text) out := by
  unfold AnalysisSettings.written at h
  obtain ⟨c, hc, h⟩ := Option.bind_eq_some_iff.mp h
  simp only at h
  split at h
  case isFalse => cases h
  case isTrue hchanged =>
    obtain rfl := Option.some.inj h
    -- something was changed, so there is a segment, and the content is the text of the file
    have hcut {part : Part} (hpart : part ∈ (l.module files p).kept) :
        c.text = text ∧ part.segment ∈ segments ∧
          ∀ e, part.outcome = .ok e → part.segment.parse = .ok e.script := by
      obtain ⟨form', text', segments', hform', hread, hsplit', hcontent, hsegment, hparse⟩ :=
        mem_kept_module hpart
      have htext' := MemoryFiles.content_of_attemptRead files hread
      obtain rfl := Option.some.inj (htext.symm.trans htext')
      obtain rfl := Option.some.inj (hform.symm.trans hform')
      obtain rfl := Except.ok.inj (hsplit.symm.trans hsplit')
      exact ⟨hcontent c hc, hsegment, hparse⟩
    have hcontent : c.text = text := by
      cases hkept : (l.module files p).kept with
      | cons part rest => exact (hcut (hkept ▸ List.mem_cons_self)).1
      | nil => simp [AnalysisSettings.inspections, hkept, AnalysisSettings.changed_fixed_nil] at hchanged
    rw [hcontent]
    refine standing_of_deletes hlength (FileForm.laid_split hlength hsplit) fun f hf => ?_
    obtain ⟨⟨f, owner⟩, hproposed, rfl⟩ := List.mem_map.mp hf
    obtain ⟨⟨message, _⟩, hmessage, hfix⟩ := List.mem_filterMap.mp hproposed
    obtain ⟨f', hf', hpair⟩ := Option.map_eq_some_iff.mp hfix
    obtain rfl := congrArg Prod.fst hpair
    have hmessage := List.mem_of_getElem? (List.mem_zipIdx_iff_getElem?.mp hmessage)
    obtain ⟨inspection, hinspection, hmessage⟩ := List.mem_flatMap.mp hmessage
    obtain ⟨⟨part, index⟩, hpart, rfl⟩ := List.mem_map.mp hinspection
    have hpart := List.mem_of_getElem? (List.mem_zipIdx_iff_getElem?.mp hpart)
    obtain ⟨e, subject, finding, fix, hout, hsegment, hscript, hfinding, hfix, hspan⟩ :=
      AnalysisSettings.finding_of_mem_messages hrules hmessage hf'
    obtain ⟨_, hmem, hparse⟩ := hcut hpart
    have hinside := ((FileForm.laid_split hlength hsplit).liesIn _ hmem).1.inside
    have hjust := (Segment.deletesJustDebuggers_iff (by omega)).mpr (halone _ hmem)
    obtain ⟨_, o, houtline, hjust⟩ :=
      hjust subject hsegment (hscript ▸ hparse e hout) finding hfinding fix hfix
    exact ⟨part.segment, hmem, o, fix.span, houtline, hjust, hspan⟩

end Linter

namespace LintSession

variable {s : LintSession} {paths : List Path} {files : MemoryFiles} {pool : Arena.Pool}
  {loaded : List Path} {state : RunState MemoryFiles}

/-- After a run a file has its text, or what was written for it. -/
theorem Finishes.content_cases (h : s.Finishes paths ⟨files, pool⟩ loaded state) {p : Path}
    {text : Bytes} (htext : files.content p = some text) :
    state.resources.files.content p = some text ∨
      ∃ g q out, q.key = p.key ∧ state.resources.files.content p = some out ∧
        (s.linterOf paths).analysisSettings.written g s.options.crossModule
          ((s.linterOf paths).module files q) = some out := by
  obtain ⟨analyses, h⟩ := h.between
  rw [h.stored.content p]
  unfold Linter.textOf
  cases hfind : analyses.find? fun a => a.path.key = p.key with
  | none => exact .inl htext
  | some a =>
    have hmem := List.mem_of_find?_eq_some hfind
    have hkey : a.path.key = p.key := by simpa using List.find?_some hfind
    obtain ⟨g, _, ha⟩ := h.analyzed a hmem
    have hafter : a.after = Linter.textAfter files p
        ((s.linterOf paths).analysisSettings.written g s.options.crossModule
          ((s.linterOf paths).module files a.path)) := by
      rw [← Linter.textAfter_congr hkey, ha]
      rfl
    simp only [hafter]
    cases hwritten : (s.linterOf paths).analysisSettings.written g s.options.crossModule
        ((s.linterOf paths).module files a.path) with
    | none => exact .inl htext
    | some out =>
      simp only [Linter.textAfter]
      cases hout : (files.attemptWrite p out).1 with
      | error e =>
        rw [MemoryFiles.attemptWrite_snd_of_error files hout]
        exact .inl htext
      | ok _ =>
        exact .inr ⟨g, a.path, out, hkey, MemoryFiles.content_attemptWrite_self files rfl hout,
          hwritten⟩

/-- All tokens stand in a file that was not changed. -/
theorem standing_unchanged {text : Bytes} {segments : List Segment} (hlength : text.length < 2 ^ 32)
    (h : LaidFrom text 0 segments) :
    Standing ((segments.flatMap Segment.spared).map Token.text) text := by
  have hstanding := (row_sparedSpans hlength h).standing text
  rwa [map_cut_sparedSpans hlength h, Bytes.slice, List.drop_zero,
    List.take_of_length_le (by simp)] at hstanding

/-- **What fixes of `debugger` statements delete.**  In any segment of less than 4 GiB
they delete the word `debugger`, where it is no property, with the semicolon that may
follow it and no byte of another token, exactly if the statements of the module level
stand alone: nothing follows such a word, or a semicolon, a closing bracket, or a line
that begins as a statement may.  Where that holds in all segments of a file, all of its
other tokens stand in it after a run with the rules that are always known, in order. -/
theorem run_deletes_debuggers (hrules : ∀ r ∈ s.rules, r.rule ∈ Rule.builtin) :
    (∀ segment : Segment, segment.text.length < 2 ^ 32 →
      (segment.DeletesJustDebuggers ↔ segment.DebuggersStandAlone)) ∧
    ∀ (paths : List Path) (files : MemoryFiles) (pool : Arena.Pool) (loaded : List Path)
      (state : RunState MemoryFiles) (p : Path) (form : FileForm) (text : Bytes)
      (segments : List Segment),
      s.Finishes paths ⟨files, pool⟩ loaded state →
      files.content p = some text → text.length < 2 ^ 32 →
      s.loaders.find? p.extension = some form →
      form.split p.extension text = .ok segments →
      (∀ segment ∈ segments, segment.DebuggersStandAlone) →
      ∃ out, state.resources.files.content p = some out ∧
        Standing ((segments.flatMap Segment.spared).map Token.text) out := by
  refine ⟨fun segment => Segment.deletesJustDebuggers_iff, ?_⟩
  intro paths files pool loaded state p form text segments h htext hlength hform hsplit halone
  rcases h.content_cases htext with hcontent | ⟨g, q, out, hkey, hcontent, hwritten⟩
  · exact ⟨text, hcontent, standing_unchanged hlength (FileForm.laid_split hlength hsplit)⟩
  · have hq : files.content q = some text := by
      rw [MemoryFiles.content_eq, MemoryFiles.find?_congr files hkey]
      exact htext
    rw [← Path.extension_congr hkey] at hform hsplit
    exact ⟨out, hcontent, Linter.standing_written (l := s.linterOf paths) hrules hlength hform hq
      hsplit halone hwritten⟩

/-- All rules with their own severities, and fixing. -/
def fixing : LintSession := { standard with options := { standard.options with fix := true } }

/-- One file. -/
def oneFile (text : Bytes) : MemoryFiles := MemoryFiles.empty.add "/a.js" text

/-- A `debugger` that stands alone, before a call that stays. -/
theorem run_deletes_debuggers_semicolon :
    Segment.DeletesJustDebuggers ⟨"debugger;\n(f());\n", 0, ⟨false, true⟩⟩ ∧
      ∃ report graph r out,
        fixing.run [⟨"/a.js"⟩] ⟨oneFile "debugger;\n(f());\n", fixing.pool⟩ =
          (.ok (report, graph), r) ∧
        r.files.content ⟨"/a.js"⟩ = some out ∧
        Standing (["(", "f", "(", ")", ")", ";"].map Bytes.ofString) out := by
  have hrules : ∀ r ∈ fixing.rules, r.rule ∈ Rule.builtin := by
    simp [fixing, standard, Rule.defaults]
  obtain ⟨hiff, hrun⟩ := run_deletes_debuggers hrules
  have halone : Segment.DebuggersStandAlone ⟨"debugger;\n(f());\n", 0, ⟨false, true⟩⟩ := by
    decide +kernel
  refine ⟨(hiff _ (by decide)).mpr halone, ?_⟩
  obtain ⟨loaded, state, hfinishes, hresult⟩ := fixing.exists_finishes
    (List.cons_ne_nil (⟨"/a.js"⟩ : Path) []) ⟨oneFile "debugger;\n(f());\n", fixing.pool⟩
  obtain ⟨out, hout, hstanding⟩ := hrun _ _ _ loaded state ⟨"/a.js"⟩ .script
    "debugger;\n(f());\n" [⟨"debugger;\n(f());\n", 0, ⟨false, true⟩⟩] hfinishes
    (by decide) (by decide) (by decide) (by decide)
    (by simpa using halone)
  have hspared : (([⟨"debugger;\n(f());\n", 0, ⟨false, true⟩⟩] : List Segment).flatMap
      Segment.spared).map Token.text = ["(", "f", "(", ")", ")", ";"].map Bytes.ofString := by
    decide +kernel
  exact ⟨_, _, _, out, hresult, hout, hspared ▸ hstanding⟩

/-- A `debugger` without a semicolon before a call in parentheses: the fix deletes the
call with it. -/
theorem run_deletes_call :
    ¬ Segment.DeletesJustDebuggers ⟨"debugger\n(f());\nlet x = 1;\n", 0, ⟨false, true⟩⟩ ∧
      (fixing.run [⟨"/a.js"⟩]
          ⟨oneFile "debugger\n(f());\nlet x = 1;\n", fixing.pool⟩).2.files.content ⟨"/a.js"⟩ =
        some "\nlet x = 1;\n" := by
  constructor
  · rw [Segment.deletesJustDebuggers_iff (by decide)]
    decide +kernel
  · decide +kernel

end LintSession

end ScriptLint
