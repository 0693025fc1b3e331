/-
Scripts after the fixes of `no-debugger`.

If the `debugger` statements of the module level stand alone, the other tokens are read alike
without them, and none is part of an import or export, then the fixes of `no-debugger` leave a
script that can be read, and in which there is nothing for it to report:

* **`Outline.mem_debuggerSpans_iff`** — the statements reported are all `debugger` words;
* **`Segment.DebuggersLoose`** — what has to hold of a segment;
* **`Segment.parse_fixed`** — what the fixes then leave of it.
-/
import ScriptLint.Proofs.Offsets
import ScriptLint.Proofs.Rereading

namespace ScriptLint

namespace Outline

variable {o : Outline} {i k stop : Nat} {source : Bytes}

/-! ### All `debugger` words are statements -/

theorem exists_mem_debuggers (hdebugger : o.isDebugger k = true) (hik : i ≤ k) (hk : k < stop) :
    ∃ s ∈ o.debuggers i stop, s.kind = .debugger ∧ s.span = o.spanOf k (o.debuggerEnd k) := by
  refine ⟨_, List.mem_filterMap.mpr ⟨k, Guarded.mem_indices.mpr ⟨hik, hk⟩, if_pos hdebugger⟩, rfl,
    rfl⟩

/-- A `debugger` among the tokens of a statement is listed with it. -/
theorem exists_debugger_of_statement {statements : List Statement} (ho : o.Lawful source)
    (hclauses : o.KeepsClauses) (hdepth : o.depth i = 0) (hi : i < o.size)
    (halone : o.is i "debugger" = true → o.StandsAlone i)
    (h : o.statement i = .ok (statements, stop)) (hdebugger : o.isDebugger k = true) (hik : i ≤ k)
    (hk : k < max stop (i + 1)) :
    ∃ s ∈ statements, s.kind = .debugger ∧ s.span = o.spanOf k (o.debuggerEnd k) := by
  have hword := (Bool.and_eq_true_iff.mp hdebugger).1
  -- the first token is another word, or the `debugger` is behind it
  have hlater {text : Bytes} (hfirst : o.is i text = true) (hne : text ≠ "debugger") :
      i < k ∧ k < stop := by
    have hne : i ≠ k := fun heq => by
      rw [← heq, is_eq_false hfirst hne] at hword
      cases hword
    omega
  have hclause := hclauses i hi hdepth
  unfold statement at h
  split at h
  case isTrue himport =>
    rw [keepsClause, if_pos himport] at hclause
    obtain ⟨⟨first, stop'⟩, himporting, h⟩ := bind_ok h
    cases h
    simp only [Bool.and_eq_true] at himport
    obtain ⟨hlt, hstop⟩ := hlater himport.1.1 (by decide)
    rw [himporting] at hclause
    rw [isFree_iff.mp hclause k hlt hstop] at hdebugger
    cases hdebugger
  case isFalse =>
    split at h
    case isTrue hexport =>
      obtain ⟨⟨first, stop'⟩, _, h⟩ := bind_ok h
      cases h
      obtain ⟨hlt, hstop⟩ := hlater hexport (by decide)
      obtain ⟨s, hs, hspan⟩ := exists_mem_debuggers hdebugger hik hstop
      exact ⟨s, List.mem_cons_of_mem _ hs, hspan⟩
    case isFalse =>
      split at h
      case isTrue hfirst =>
        cases h
        have hend := statementEnd_of_standsAlone ho.worded hfirst (halone hfirst)
        refine ⟨_, List.mem_singleton_self _, rfl, ?_⟩
        -- behind the word there is at most its semicolon
        obtain rfl : i = k := by
          by_contra hne
          have hlt := o.lt_debuggerEnd i
          rw [hend] at hk
          unfold debuggerEnd at hk hlt
          split at hk
          case isTrue hmark =>
            obtain rfl : k = i + 1 := by omega
            rw [is_eq_false hmark (by decide)] at hword
            cases hword
          case isFalse => omega
        exact congrArg (o.spanOf i) hend
      case isFalse hfirst =>
        have hlt : i < k := Nat.lt_of_le_of_ne hik fun heq => hfirst (heq ▸ hword)
        have hstop : k < stop := by omega
        cases h
        obtain ⟨s, hs, hspan⟩ := exists_mem_debuggers hdebugger hik hstop
        exact ⟨s, List.mem_cons_of_mem _ hs, hspan⟩

/-- Every `debugger` word from an index on is a statement. -/
theorem exists_debugger_of_bodyFrom {body : List Statement} (ho : o.Lawful source)
    (hregular : o.Regular) (hclauses : o.KeepsClauses) (htop : o.AtTop i)
    (halone : ∀ j ∈ o.startsFrom i, o.is j "debugger" = true → o.StandsAlone j)
    (h : o.bodyFrom i = .ok body) (hdebugger : o.isDebugger k = true) (hik : i ≤ k) :
    ∃ s ∈ body, s.kind = .debugger ∧ s.span = o.spanOf k (o.debuggerEnd k) := by
  fun_induction startsFrom o i generalizing body with
  | case1 i hsize hmark ih =>
    rw [bodyFrom, if_pos hsize, if_pos hmark] at h
    have hne : i ≠ k := fun heq => by
      rw [← heq, isDebugger, is_eq_false hmark (by decide)] at hdebugger
      cases hdebugger
    exact ih (htop.mark hregular.nested hmark (by decide)) halone h (by omega)
  | case2 i hsize hmark failure hfailure =>
    rw [bodyFrom, if_pos hsize, if_neg hmark, hfailure] at h
    cases h
  | case3 i hsize hmark statements stop hstatement ih =>
    obtain ⟨rest, hrest, rfl⟩ := bodyFrom_eq_append hsize hmark hstatement h
    obtain ⟨_, _, _, hcovers, _⟩ := covers_statement hregular htop hsize hstatement
    have hreach := hcovers.reach
    obtain ⟨hfirst, hlater⟩ := List.forall_mem_cons.mp halone
    by_cases hk : k < max stop (i + 1)
    · obtain ⟨s, hs, hspan⟩ := exists_debugger_of_statement ho hclauses htop.depth hsize hfirst
        hstatement hdebugger hik hk
      exact ⟨s, List.mem_append_left _ hs, hspan⟩
    · have hmax : max stop (i + 1) = stop := Nat.max_eq_left hreach
      rw [hmax] at ih hlater hrest
      obtain ⟨s, hs, hspan⟩ := ih hcovers.top hlater hrest (by omega)
      exact ⟨s, List.mem_append_right _ hs, hspan⟩
  | case4 i hsize =>
    exact absurd (Nat.lt_of_le_of_lt hik (lt_of_isDebugger hdebugger)) hsize

/-- **The `debugger` statements** are all `debugger` words with their semicolons. -/
theorem mem_debuggerSpans_iff {body : List Statement} (ho : o.Lawful source) (hregular : o.Regular)
    (hclauses : o.KeepsClauses)
    (halone : ∀ j ∈ o.startsFrom 0, o.is j "debugger" = true → o.StandsAlone j)
    (h : o.body = .ok body) {span : Span} :
    span ∈ o.debuggerSpans ↔ ∃ s ∈ body, s.kind = .debugger ∧ s.span = span := by
  rw [mem_debuggerSpans]
  constructor
  · rintro ⟨k, hdebugger, rfl⟩
    exact exists_debugger_of_bodyFrom ho hregular hclauses (.start o) halone h hdebugger
      (Nat.zero_le k)
  · rintro ⟨s, hs, hkind, rfl⟩
    rcases debugger_of_mem_bodyFrom ho h hs hkind with ⟨j, hj, hword, hspan⟩ | hspan
    · refine ⟨j, isDebugger_of_mem_startsFrom ho (fun _ => rfl) hj hword, ?_⟩
      rw [hspan, statementEnd_of_standsAlone ho.worded hword (halone j hj hword)]
    · exact hspan

/-- Where no token is a `debugger` there is no such statement. -/
theorem no_debuggers {body : List Statement} (ho : o.Lawful source)
    (hnone : ∀ k, o.isDebugger k = false) (h : o.body = .ok body) :
    ∀ s ∈ body, s.kind ≠ .debugger := by
  intro s hs hkind
  rcases debugger_of_mem_bodyFrom ho h hs hkind with ⟨j, hj, hword, _⟩ | ⟨j, hdebugger, _⟩
  · have hdebugger := isDebugger_of_mem_startsFrom ho (fun _ => rfl) hj hword
    rw [hnone j] at hdebugger
    cases hdebugger
  · rw [hnone j] at hdebugger
    cases hdebugger

/-! ### Outlines that can do without -/

/-- The `debugger` words can be deleted: the statements of the module level stand alone, the other
tokens are read alike without them, and no import or export has one among its tokens. -/
structure Loose (o : Outline) (elements : Bool) : Prop where
  alone : ∀ j ∈ o.startsFrom 0, o.is j "debugger" = true → o.StandsAlone j
  reads : o.ReadsAlike elements
  clauses : o.KeepsClauses

instance (o : Outline) (elements : Bool) : Decidable (o.Loose elements) :=
  decidable_of_iff ((∀ j ∈ o.startsFrom 0, o.is j "debugger" = true → o.StandsAlone j) ∧
      o.ReadsAlike elements ∧ o.KeepsClauses)
    ⟨fun h => ⟨h.1, h.2.1, h.2.2⟩, fun h => ⟨h.alone, h.reads, h.clauses⟩⟩

end Outline

/-! ### The fixes of a script -/

/-- The fixes that `no-debugger` proposes for a script. -/
def Script.fixes (script : Script) : List Fix := script.debuggers.map fun s => ⟨s.span, []⟩

theorem Script.span_fixes (script : Script) :
    script.fixes.map Fix.span = script.debuggers.map Statement.span := by
  rw [fixes, List.map_map]
  rfl

theorem Rule.fixes_noDebugger (subject : Subject) :
    (noDebugger.check subject).findings.filterMap Finding.fix = subject.script.fixes := by
  have hfix : Finding.fix ∘ debuggerFinding = some ∘ fun s => ⟨s.span, []⟩ := rfl
  simp only [noDebugger]
  rw [List.filterMap_map, hfix, List.filterMap_eq_map]
  rfl

/-- Where there are no `debugger` statements `no-debugger` reports nothing. -/
theorem Rule.noDebugger_findings {subject : Subject} (h : subject.script.debuggers = []) :
    (noDebugger.check subject).findings = [] := by
  have hfindings : (noDebugger.check subject).findings =
      subject.script.debuggers.map debuggerFinding := rfl
  rw [hfindings, h, List.map_nil]

theorem Bytes.length_without_le (spans : List Span) (pos : Nat) (text : Bytes) :
    (Bytes.without spans pos text).length ≤ text.length := by
  induction text generalizing pos with
  | nil => exact Nat.le_refl 0
  | cons b text ih =>
    have hrest := ih (pos + 1)
    rw [Bytes.without]
    split <;> simp only [List.length_cons] <;> omega

namespace Segment

variable {s : Segment} {script : Script}

/-- The segment without its `debugger` statements, as far as it can be read. -/
def fixed (s : Segment) : Segment :=
  match s.parse with
  | .ok script => { s with text := Bytes.without (script.debuggers.map Statement.span) 0 s.text }
  | .error _ => s

/-- The `debugger` words of the segment can be deleted.  Nothing is asked of one that cannot
be read. -/
def DebuggersLoose (s : Segment) : Prop :=
  ∀ o ∈ s.outline.toOption, s.parse.toOption.isSome = true → o.Loose s.dialect.elements

instance : DecidablePred DebuggersLoose := fun s => inferInstanceAs (Decidable
  (∀ o ∈ s.outline.toOption, s.parse.toOption.isSome = true → o.Loose s.dialect.elements))

theorem fixed_of_ok (h : s.parse = .ok script) : s.fixed =
    { s with text := Bytes.without (script.debuggers.map Statement.span) 0 s.text } := by
  unfold fixed
  rw [h]

theorem fixed_dialect (s : Segment) : s.fixed.dialect = s.dialect := by
  unfold fixed
  split <;> rfl

theorem loose_of_ok {o : Outline} (hloose : s.DebuggersLoose) (h : s.parse = .ok script)
    (ho : s.outline = .ok o) : o.Loose s.dialect.elements :=
  hloose o (by rw [ho]; rfl) (by rw [h]; rfl)

/-- A segment with an outline is read as its outline is. -/
theorem parse_of_outline {o : Outline} {body : List Statement} (ho : s.outline = .ok o)
    (hbody : o.body = .ok body) : s.parse = .ok ⟨s.text, s.dialect, body⟩ := by
  obtain ⟨tokens, hscan, ho⟩ := bind_ok ho
  unfold parse Script.parse
  simp [hscan, ho, hbody, bind, Except.bind, pure, Except.pure]

/-- **What the fixes of a script leave** is its text without the `debugger` statements. -/
theorem output_fixes (hlength : s.text.length < 2 ^ 32) (h : s.parse = .ok script) :
    (Fix.apply s.text script.fixes).output = s.fixed.text := by
  have hlies : s.atStart.LiesIn s.text := ⟨by simp [atStart], by simp [atStart, Bytes.slice]⟩
  obtain ⟨hinside, hordered⟩ := debuggers_lie hlength hlies
  have hplaces : s.atStart.debuggers = script.fixes.map Fix.span := by
    rw [debuggers, parse_atStart h, Script.span_fixes]
    simp only [atStart, Span.shifted_zero]
  rw [hplaces] at hinside hordered
  rw [fixed_of_ok h, Fix.output_apply, Script.span_fixes]
  · refine Span.separate_of_pairwise (fun place hplace => ?_) hordered
    have := hinside place hplace
    simp only [atStart, UInt32.toNat_zero] at this
    omega
  · intro f hf
    obtain ⟨_, _, rfl⟩ := List.mem_map.mp hf
    rfl

/-- **A segment can be read without its `debugger` statements**, and then has none. -/
theorem parse_fixed (hlength : s.text.length < 2 ^ 32) (h : s.parse = .ok script)
    (hloose : s.DebuggersLoose) :
    ∃ script', s.fixed.parse = .ok script' ∧ script'.debuggers = [] := by
  obtain ⟨o, ho, hbody⟩ := exists_outline h
  obtain ⟨halone, hreads, hclauses⟩ := loose_of_ok hloose h ho
  have hlawful := lawful_outline hlength ho
  have hregular := regular_outline ho
  -- the statements and the words cover the same
  have htext : s.fixed.text = Bytes.without o.debuggerSpans 0 s.text := by
    rw [fixed_of_ok h]
    refine Bytes.without_congr fun i _ => Span.covered_congr fun span => ?_
    rw [Outline.mem_debuggerSpans_iff hlawful hregular hclauses halone hbody]
    simp [Script.debuggers, and_assoc]
  obtain ⟨tokens, hscan, hnested⟩ := bind_ok ho
  have htokens : tokens = o.tokens.toList := by rw [Outline.tokens_ofTokens hnested]
  rw [htokens] at hscan hnested
  obtain ⟨tokens', hscan', hthins⟩ := Token.scan_without hlawful hlength hreads hscan
  obtain ⟨o', ho'⟩ := Outline.exists_thinned hnested hthins
  rw [show tokens' = o'.tokens.toList by rw [Outline.tokens_ofTokens ho']] at hthins
  have houtline : s.fixed.outline = .ok o' := by
    rw [outline, htext, fixed_dialect, hscan']
    exact ho'
  obtain ⟨body', hbody'⟩ :=
    Outline.exists_body_thinned hthins hregular (regular_outline houtline) hclauses
  refine ⟨_, parse_of_outline houtline hbody', ?_⟩
  have hsize : s.fixed.text.length < 2 ^ 32 := by
    have := Bytes.length_without_le o.debuggerSpans 0 s.text
    rw [htext]
    omega
  have hnone := Outline.no_debuggers (lawful_outline hsize houtline)
    (Outline.isDebugger_thinned hthins) hbody'
  exact List.filter_eq_nil_iff.mpr fun statement hstatement => by
    simpa using hnone statement hstatement

end Segment

end ScriptLint
