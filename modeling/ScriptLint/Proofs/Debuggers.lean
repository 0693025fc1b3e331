/-
The spans of `debugger` statements.

A fix of a `debugger` statement deletes the span of the statement.  Inside other
statements that span is the word and the semicolon after it.  At the level of the module
it reaches up to the end of the statement, which is looked for like that of an
expression: a token that cannot begin a statement belongs to it even on a line of its own.

* **`Outline.mem_bodyFrom`** — a statement is read at one of the indices where the loop looks
  for one;
* **`Outline.JustDebugger`** — a span is that of a `debugger` and its semicolon alone;
* **`Outline.StandsAlone`** — a module-level `debugger` is not followed by a token that
  its statement would take in;
* **`Outline.justDebugger_iff`** — the spans of all `debugger` statements are such, exactly
  if those of the module level stand alone.
-/
import ScriptLint.Proofs.Outlines
import ScriptLint.Rule.Builtin

namespace ScriptLint

namespace Outline

section

variable (o : Outline)

/-- The indices at which module-level statements begin, from an index on. -/
def startsFrom (i : Nat) : List Nat :=
  if i < o.size then
    if o.is i ";" then startsFrom (i + 1)
    else match o.statement i with
      | .error _ => []
      | .ok (_, stop) => i :: startsFrom (max stop (i + 1))
  else []
termination_by o.size - i

/-- The statements that are read at an index. -/
def statementsAt (i : Nat) : List Statement :=
  match o.statement i with
  | .ok (statements, _) => statements
  | .error _ => []

/-- The index after the word at an index and the semicolon that may follow it. -/
def debuggerEnd (i : Nat) : Nat := if o.is (i + 1) ";" then i + 2 else i + 1

/-- The statement that is the word at an index ends with it or with the semicolon after it:
nothing follows, or a semicolon, a closing bracket, or a line on which a statement may
begin. -/
def StandsAlone (i : Nat) : Prop :=
  o.size ≤ i + 1 ∨ o.is (i + 1) ";" = true ∨ o.closes (i + 1) = true ∨
    o.breaksBefore (i + 1) = true

instance : DecidablePred o.StandsAlone := fun _ => inferInstanceAs (Decidable (_ ∨ _))

/-- The span is that of a `debugger`, which is no property, and of the semicolon that may
follow it, and no other token reaches into it. -/
def JustDebugger (span : Span) : Prop :=
  ∃ i, o.isDebugger i = true ∧
    span = ⟨(o.token i).span.start, (o.token (o.debuggerEnd i - 1)).span.stop⟩ ∧
    ∀ j < o.size, j < i ∨ o.debuggerEnd i ≤ j →
      (o.token j).span.stop.toNat ≤ span.start.toNat ∨
        span.stop.toNat ≤ (o.token j).span.start.toNat

end

variable {o : Outline} {i j k : Nat} {source : Bytes} {body : List Statement} {s : Statement}

/-! ### Where statements are read -/

/-- The loop goes on where a statement is read. -/
theorem exists_statement (h : j ∈ o.startsFrom i) :
    ∃ statements stop, o.statement j = .ok (statements, stop) := by
  fun_induction startsFrom o i with
  | case1 i hsize hmark ih => exact ih h
  | case2 => cases h
  | case3 i hsize hmark statements stop hstatement ih =>
    rcases List.mem_cons.mp h with rfl | h
    · exact ⟨statements, stop, hstatement⟩
    · exact ih h
  | case4 => cases h

theorem lt_of_mem_startsFrom (h : j ∈ o.startsFrom i) : j < o.size := by
  fun_induction startsFrom o i with
  | case1 i hsize hmark ih => exact ih h
  | case2 => cases h
  | case3 i hsize hmark statements stop hstatement ih =>
    rcases List.mem_cons.mp h with rfl | h
    · exact hsize
    · exact ih h
  | case4 => cases h

/-- A statement, and the ones after it. -/
theorem bodyFrom_eq_append {statements : List Statement} {stop : Nat} (hsize : i < o.size)
    (hmark : ¬ o.is i ";" = true) (hstatement : o.statement i = .ok (statements, stop))
    (h : o.bodyFrom i = .ok body) :
    ∃ rest, o.bodyFrom (max stop (i + 1)) = .ok rest ∧ body = statements ++ rest := by
  rw [bodyFrom, if_pos hsize, if_neg hmark, hstatement] at h
  obtain ⟨⟨statements', stop'⟩, hfirst, h⟩ := bind_ok h
  cases hfirst
  obtain ⟨rest, hrest, h⟩ := bind_ok h
  exact ⟨rest, hrest, (Except.ok.inj h).symm⟩

/-- The statements from an index on are those that are read at the indices where the loop
looks for one. -/
theorem bodyFrom_eq_flatMap (h : o.bodyFrom i = .ok body) :
    body = (o.startsFrom i).flatMap o.statementsAt := by
  fun_induction startsFrom o i generalizing body with
  | case1 i hsize hmark ih =>
    rw [bodyFrom, if_pos hsize, if_pos hmark] at h
    exact ih h
  | case2 i hsize hmark failure hfailure =>
    rw [bodyFrom, if_pos hsize, if_neg hmark, hfailure] at h
    cases h
  | case3 i hsize hmark statements stop hstatement ih =>
    obtain ⟨rest, hrest, rfl⟩ := bodyFrom_eq_append hsize hmark hstatement h
    rw [List.flatMap_cons, ← ih hrest, statementsAt, hstatement]
  | case4 i hsize =>
    rw [bodyFrom, if_neg hsize] at h
    exact (Except.ok.inj h).symm

/-- **A statement from an index on** is read at one of the indices where the loop looks for
one. -/
theorem mem_bodyFrom (h : o.bodyFrom i = .ok body) :
    s ∈ body ↔ ∃ j ∈ o.startsFrom i, ∃ statements stop,
      o.statement j = .ok (statements, stop) ∧ s ∈ statements := by
  rw [bodyFrom_eq_flatMap h, List.mem_flatMap]
  refine exists_congr fun j => and_congr_right fun hj => ?_
  obtain ⟨statements, stop, hstatement⟩ := exists_statement hj
  simp [statementsAt, hstatement]


/-! ### Where a `debugger` statement ends -/

theorem lt_of_breaksBefore (h : o.breaksBefore i = true) : i < o.size := by
  by_contra hsize
  have htoken : o.token i = default := by
    rw [token, Array.getElem?_eq_none (Nat.le_of_not_lt hsize), Option.getD_none]
  simp only [breaksBefore, htoken, Bool.and_eq_true] at h
  exact absurd h.1.1 (by decide)

theorem debuggerEnd_eq (h : o.is (i + 1) ";" = false) : o.debuggerEnd i = i + 1 := by
  simp [debuggerEnd, h]

theorem lt_debuggerEnd (i : Nat) : i < o.debuggerEnd i := by
  unfold debuggerEnd
  split <;> omega

theorem debuggerEnd_le (hi : i < o.size) : o.debuggerEnd i ≤ o.size := by
  unfold debuggerEnd
  split
  case isTrue hmark => exact lt_of_is hmark
  case isFalse => exact hi

theorem statementEnd_of_standsAlone (ho : o.Worded) (h : o.is i "debugger" = true)
    (halone : o.StandsAlone i) : o.statementEnd i = o.debuggerEnd i := by
  have hi := lt_of_is h
  rw [statementEnd_eq h (by decide), statementEndFrom]
  rcases halone with hsize | hmark | hcloses | hbreak
  · have hmark : o.is (i + 1) ";" = false := by
      rw [Bool.eq_false_iff]
      exact fun hmark => absurd (lt_of_is hmark) (by omega)
    rw [debuggerEnd_eq hmark, if_neg (by omega)]
    omega
  · have hopens := opens_eq_false hmark (by decide)
    simp [lt_of_is hmark, breaksBefore_eq_false ho hmark, hopens, hmark, debuggerEnd]
  · have hopens : o.opens (i + 1) = false := by
      obtain ⟨closer, hmem, hcloser⟩ := closes_iff.mp hcloses
      have hne : ∀ text ∈ Token.closers, text ∉ Token.openers := by decide
      exact opens_eq_false hcloser (hne closer hmem)
    have hmark : o.is (i + 1) ";" = false := is_eq_false_of_closes hcloses (by decide)
    have hsize : i + 1 < o.size := by
      obtain ⟨closer, _, hcloser⟩ := closes_iff.mp hcloses
      exact lt_of_is hcloser
    rw [debuggerEnd_eq hmark]
    simp [hsize, hopens, hmark, hcloses]
  · have hmark : o.is (i + 1) ";" = false := by
      rw [Bool.eq_false_iff]
      exact fun hmark => by simp [breaksBefore_eq_false ho hmark] at hbreak
    rw [debuggerEnd_eq hmark]
    simp [lt_of_breaksBefore hbreak, hbreak]

/-- Otherwise the statement takes in the next token, which is no semicolon. -/
theorem lt_statementEnd (h : o.is i "debugger" = true) (halone : ¬ o.StandsAlone i) :
    o.debuggerEnd i = i + 1 ∧ i + 1 < o.statementEnd i := by
  simp only [StandsAlone, not_or, Nat.not_le, Bool.not_eq_true] at halone
  obtain ⟨hsize, hmark, hcloses, hbreak⟩ := halone
  refine ⟨debuggerEnd_eq hmark, ?_⟩
  rw [statementEnd_eq h (by decide), statementEndFrom, if_pos hsize]
  simp only [hbreak, hmark, hcloses, Bool.and_false, Bool.false_eq_true, if_false]
  have hlt := o.lt_afterGroup (i + 1)
  split
  · have := o.le_statementEndFrom i (o.afterGroup (i + 1))
    omega
  · have := o.le_statementEndFrom i (i + 1 + 1)
    omega

/-! ### The `debugger` statements of a script -/

/-- A `debugger` that begins a module-level statement is no property. -/
theorem isDebugger_of_mem_startsFrom (ho : o.Lawful source) (hi : o.Fresh i)
    (hj : j ∈ o.startsFrom i) (h : o.is j "debugger" = true) : o.isDebugger j = true := by
  fun_induction startsFrom o i with
  | case1 i hsize hmark ih => exact ih (fresh_after hmark (by decide)) hj
  | case2 i hsize hmark failure hfailure => cases hj
  | case3 i hsize hmark statements stop hstatement ih =>
    rcases List.mem_cons.mp hj with rfl | hj
    · simp [isDebugger, h, hi h]
    · exact ih (fresh_next ho hstatement) hj
  | case4 i hsize => cases hj

/-- The `debugger` statements inside a statement. -/
theorem debugger_of_mem_debuggers {start stop : Nat}
    (h : s ∈ o.debuggers start stop) :
    ∃ j, o.isDebugger j = true ∧ s.span = o.spanOf j (o.debuggerEnd j) := by
  obtain ⟨j, _, hj⟩ := List.mem_filterMap.mp h
  split at hj
  case isTrue hdebugger =>
    obtain rfl := Option.some.inj hj
    exact ⟨j, hdebugger, rfl⟩
  case isFalse => cases hj

/-- The `debugger` statements among those that begin at an index. -/
theorem debugger_of_mem_statement {statements : List Statement} {stop : Nat}
    (ho : o.Lawful source) (h : o.statement i = .ok (statements, stop)) (hs : s ∈ statements)
    (hkind : s.kind = .debugger) :
    (o.is i "debugger" = true ∧ s.span = o.spanOf i (o.statementEnd i)) ∨
      ∃ j, o.isDebugger j = true ∧ s.span = o.spanOf j (o.debuggerEnd j) := by
  unfold statement at h
  split at h
  · obtain ⟨⟨first, stop'⟩, himport, h⟩ := bind_ok h
    cases h
    obtain rfl := List.mem_singleton.mp hs
    exact absurd hkind (leaves_importing ho himport).1
  split at h
  · obtain ⟨⟨first, stop'⟩, hexport, h⟩ := bind_ok h
    cases h
    rcases List.mem_cons.mp hs with rfl | hs
    · exact absurd hkind (leaves_exporting ho hexport).1
    · exact .inr (debugger_of_mem_debuggers hs)
  split at h
  · rename_i hdebugger
    cases h
    obtain rfl := List.mem_singleton.mp hs
    exact .inl ⟨hdebugger, rfl⟩
  · cases h
    rcases List.mem_cons.mp hs with rfl | hs
    · exact absurd hkind (leaves_plain ho).1
    · exact .inr (debugger_of_mem_debuggers hs)

/-- The `debugger` statements from an index on: those of the module level, and those
inside other statements. -/
theorem debugger_of_mem_bodyFrom (ho : o.Lawful source) (h : o.bodyFrom i = .ok body)
    (hs : s ∈ body) (hkind : s.kind = .debugger) :
    (∃ j ∈ o.startsFrom i, o.is j "debugger" = true ∧ s.span = o.spanOf j (o.statementEnd j)) ∨
      ∃ j, o.isDebugger j = true ∧ s.span = o.spanOf j (o.debuggerEnd j) := by
  obtain ⟨j, hj, statements, stop, hstatement, hs⟩ := (mem_bodyFrom h).mp hs
  exact (debugger_of_mem_statement ho hstatement hs hkind).imp_left fun hspan => ⟨j, hj, hspan⟩

/-- A module-level `debugger` is among the statements. -/
theorem exists_debugger_of_mem_startsFrom (h : o.bodyFrom i = .ok body) (hj : j ∈ o.startsFrom i)
    (hdebugger : o.is j "debugger" = true) :
    ∃ s ∈ body, s.kind = .debugger ∧ s.span = o.spanOf j (o.statementEnd j) := by
  have himport := is_eq_false (b := "import") hdebugger (by decide)
  have hexport := is_eq_false (b := "export") hdebugger (by decide)
  obtain ⟨statements, stop, hstatement⟩ := exists_statement hj
  have hread := hstatement
  simp only [statement, himport, hexport, hdebugger, Bool.false_and, Bool.false_eq_true,
    if_false, if_true, Except.ok.injEq, Prod.mk.injEq] at hread
  obtain ⟨rfl, rfl⟩ := hread
  exact ⟨_, (mem_bodyFrom h).mpr ⟨j, hj, _, _, hstatement, List.mem_singleton_self _⟩, rfl, rfl⟩

/-! ### What the spans take in -/

/-- A `debugger` with its semicolon. -/
theorem justDebugger_spanOf (ho : o.Lawful source) (h : o.isDebugger i = true) :
    o.JustDebugger (o.spanOf i (o.debuggerEnd i)) := by
  have hi : i < o.size := lt_of_is (Bool.and_eq_true_iff.mp h).1
  have hlt := o.lt_debuggerEnd i
  have hle := debuggerEnd_le hi
  have hspan : o.spanOf i (o.debuggerEnd i) =
      ⟨(o.token i).span.start, (o.token (o.debuggerEnd i - 1)).span.stop⟩ := by
    rw [spanOf, if_neg (by omega)]
  refine ⟨i, h, hspan, fun j hj hother => ?_⟩
  rw [hspan]
  rcases hother with hbefore | hafter
  · exact .inl (ho.ordered j i hbefore hi)
  · exact .inr (ho.ordered (o.debuggerEnd i - 1) j (by omega) hj)

/-- Tokens that start at the same place are the same. -/
theorem Lawful.eq_of_start (ho : o.Lawful source) (hi : i < o.size) (hj : j < o.size)
    (h : (o.token i).span.start = (o.token j).span.start) : i = j := by
  have hnonempty := (ho.stands i hi).nonempty
  have hnonempty' := (ho.stands j hj).nonempty
  rcases Nat.lt_trichotomy i j with hlt | heq | hgt
  · have := ho.ordered i j hlt hj
    simp only [Token.Precedes, ← h] at this
    omega
  · exact heq
  · have := ho.ordered j i hgt hi
    simp only [Token.Precedes, h] at this
    omega

/-- A span that reaches over the token after a `debugger`. -/
theorem not_justDebugger_spanOf (ho : o.Lawful source) (hend : o.debuggerEnd i = i + 1)
    (hlt : i + 1 < k) (hk : k ≤ o.size) : ¬ o.JustDebugger (o.spanOf i k) := by
  rintro ⟨i', hdebugger, hspan, -⟩
  rw [spanOf, if_neg (by omega), Span.mk.injEq] at hspan
  obtain rfl : i = i' := ho.eq_of_start (by omega)
    (lt_of_is (Bool.and_eq_true_iff.mp hdebugger).1) hspan.1
  have hlast := (ho.stands (k - 1) (by omega)).nonempty
  have hordered := ho.ordered i (k - 1) (by omega) (by omega)
  rw [hend, Nat.add_sub_cancel] at hspan
  simp only [Token.Precedes, ← hspan.2] at hordered
  omega

/-- **The spans of all `debugger` statements** are just those of the words with their
semicolons, exactly if the ones of the module level stand alone. -/
theorem justDebugger_iff (ho : o.Lawful source) (h : o.body = .ok body) :
    (∀ s ∈ body, s.kind = .debugger → o.JustDebugger s.span) ↔
      ∀ i ∈ o.startsFrom 0, o.is i "debugger" = true → o.StandsAlone i := by
  have hstart : o.Fresh 0 := fun _ => rfl
  constructor
  · intro hjust i hi hdebugger
    by_contra halone
    obtain ⟨s, hs, hkind, hspan⟩ := exists_debugger_of_mem_startsFrom h hi hdebugger
    obtain ⟨hend, hlt⟩ := lt_statementEnd hdebugger halone
    exact not_justDebugger_spanOf ho hend hlt (statementEndFrom_le i i) (hspan ▸ hjust s hs hkind)
  · intro halone s hs hkind
    rcases debugger_of_mem_bodyFrom ho h hs hkind with ⟨i, hi, hdebugger, hspan⟩ | ⟨i, hi, hspan⟩
    · rw [hspan, statementEnd_of_standsAlone ho.worded hdebugger (halone i hi hdebugger)]
      exact justDebugger_spanOf ho (isDebugger_of_mem_startsFrom ho hstart hi hdebugger)
    · rw [hspan]
      exact justDebugger_spanOf ho hi

end Outline

/-! ### The fixes of a segment -/

namespace Segment

/-- The `debugger` statements of the module level stand alone.  Nothing is asked of a
segment that cannot be read. -/
def DebuggersStandAlone (s : Segment) : Prop :=
  match s.parse, s.outline with
  | .ok _, .ok o => ∀ i ∈ o.startsFrom 0, o.is i "debugger" = true → o.StandsAlone i
  | _, _ => True

instance : DecidablePred DebuggersStandAlone := fun s => by
  unfold DebuggersStandAlone
  split <;> infer_instance

/-- Whatever `no-debugger` proposes for the segment deletes a `debugger` with its
semicolon and no byte of another token. -/
def DeletesJustDebuggers (s : Segment) : Prop :=
  ∀ subject : Subject, subject.segment = s → s.parse = .ok subject.script →
    ∀ finding ∈ (Rule.noDebugger.check subject).findings, ∀ fix, finding.fix = some fix →
      fix.content = [] ∧ ∃ o, s.outline = .ok o ∧ o.JustDebugger fix.span

variable {s : Segment}

/-- A segment that can be read is one with an outline. -/
theorem exists_outline {script : Script} (h : s.parse = .ok script) :
    ∃ o, s.outline = .ok o ∧ o.body = .ok script.body := by
  unfold parse at h
  split at h
  · rename_i script' hparse
    obtain rfl := Except.ok.inj h
    obtain ⟨tokens, hscan, hparse⟩ := bind_ok hparse
    obtain ⟨o, ho, hparse⟩ := bind_ok hparse
    obtain ⟨body, hbody, hparse⟩ := bind_ok hparse
    obtain rfl := Except.ok.inj hparse
    exact ⟨o, by rw [outline, hscan]; exact ho, hbody⟩
  · cases h

/-- **Fixes delete `debugger` statements only, exactly if these stand alone.** -/
theorem deletesJustDebuggers_iff (hlength : s.text.length < 2 ^ 32) :
    s.DeletesJustDebuggers ↔ s.DebuggersStandAlone := by
  unfold DebuggersStandAlone
  split
  case h_2 hunread =>
    refine iff_of_true (fun subject _ hparse => ?_) trivial
    obtain ⟨o, ho, _⟩ := exists_outline hparse
    exact absurd ho (hunread _ o hparse)
  case h_1 script o hparse houtline =>
    obtain ⟨o', houtline', hbody⟩ := exists_outline hparse
    obtain rfl := Except.ok.inj (houtline.symm.trans houtline')
    rw [← Outline.justDebugger_iff (lawful_outline hlength houtline) hbody]
    constructor
    · intro h statement hstatement hkind
      let subject : Subject := ⟨⟨[]⟩, 0, s, script, none, none, none⟩
      have hfinding : Rule.debuggerFinding statement ∈ (Rule.noDebugger.check subject).findings :=
        List.mem_map_of_mem (List.mem_filter.mpr ⟨hstatement, by simpa using hkind⟩)
      obtain ⟨_, o', ho', hjust⟩ := h subject rfl hparse _ hfinding _ rfl
      obtain rfl := Except.ok.inj (houtline.symm.trans ho')
      exact hjust
    · intro h subject _ hsubject finding hfinding fix hfix
      obtain rfl := Except.ok.inj (hparse.symm.trans hsubject)
      obtain ⟨statement, hstatement, rfl⟩ := List.mem_map.mp hfinding
      obtain ⟨hstatement, hkind⟩ := List.mem_filter.mp hstatement
      obtain rfl := Option.some.inj hfix
      exact ⟨rfl, o, houtline, h statement hstatement (by simpa using hkind)⟩

end Segment

end ScriptLint
