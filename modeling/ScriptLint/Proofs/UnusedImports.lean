/-
Imports that are never used.

The rule `no-unused-imports` reports an imported name if no statement mentions it.  Whatever
it reports beyond the names without a use is told by the tokens that it overlooks.

* **`Outline.isOverlooked`** — a use that is not taken for a mention;
* **`Outline.exists_reference_iff`** — the names that statements mention, by their tokens;
* **`Segment.reports_unused`** — which imports are reported.
-/
import ScriptLint.Analysis
import ScriptLint.Proofs.Uses

namespace ScriptLint

namespace Outline

section

variable (o : Outline)

/-- The token at an index is the inner name of an entry of an export list. -/
def isListed (k : Nat) : Bool :=
  (o.owner? k).any fun (i, _) => (o.exportEntries i).any (·.name = k)

/-- The use at an index is not taken for a mention: its name is one of the words that may be
reserved, or private and not in an export list, or it belongs to a `debugger` statement. -/
def isOverlooked (k : Nat) : Bool :=
  (o.token k).text ∈ Token.reserved ||
    ((o.token k).text.head? = some '#' && !o.isListed k) ||
    (o.owner? k).any fun (_, s) => s.kind = .debugger

/-- The token at an index is a literal in an export list of the module's own names. -/
def isQuoted (k : Nat) : Bool :=
  o.isString k && o.isListed k && (o.owner? k).all fun (_, s) => !s.linksModules

end

variable {o : Outline} {i j k stop : Nat} {s : Statement} {body : List Statement} {name : Bytes}

/-! ### Uses and mentions -/

section

variable (hk : o.owner? k = some (i, s))

include hk

theorem isUse_iff : o.isUse k = true ↔
    (o.isWord k = true ∧ o.followsDot k = false ∧ o.isKey k = false) ∧ s.linksModules = false ∧
      s.declared.all (·.span != (o.token k).span) = true ∧
      ∀ e ∈ o.exportEntries i, e.renamed ≠ some k := by
  simp [isUse, hk, and_assoc]

theorem isListed_iff : o.isListed k = true ↔ ∃ e ∈ o.exportEntries i, e.name = k := by
  simp [isListed, hk]

theorem isOverlooked_eq_false : o.isOverlooked k = false ↔
    (o.token k).text ∉ Token.reserved ∧
      ((o.token k).text.head? = some '#' → o.isListed k = true) ∧ s.kind ≠ .debugger := by
  simp [isOverlooked, hk, and_assoc]

theorem isQuoted_iff : o.isQuoted k = true ↔
    o.isString k = true ∧ (∃ e ∈ o.exportEntries i, e.name = k) ∧ s.linksModules = false := by
  simp [isQuoted, isListed_iff hk, hk, and_assoc]

end

/-- The token at an index mentions a name: as a use that is not overlooked, or as a literal in
an export list. -/
def MentionsName (o : Outline) (k : Nat) (name : Bytes) : Prop :=
  (o.isUse k = true ∧ o.isOverlooked k = false ∧ (o.token k).text = name) ∨
    (o.isQuoted k = true ∧ (o.token k).value = name ∧ name ∉ Token.reserved)

theorem not_mentionsName_iff : ¬ o.MentionsName k name ↔
    (o.isUse k = true → (o.token k).text = name → o.isOverlooked k = true) ∧
      (o.isQuoted k = true → (o.token k).value = name → name ∈ Token.reserved) := by
  simp only [MentionsName, ← Bool.not_eq_true]
  tauto

theorem MentionsName.isSpelled (h : o.MentionsName k name) : o.isSpelled k = true := by
  rcases h with ⟨huse, _⟩ | ⟨hquoted, _⟩
  · simp only [isUse, Bool.and_eq_true] at huse
    simp [Outline.isSpelled, huse.1.1.1]
  · simp only [isQuoted, Bool.and_eq_true] at hquoted
    simp [Outline.isSpelled, hquoted.1.1]

/-- Where there is no export list, a use is a mention that the statement does not declare. -/
theorem mentionsName_iff (hk : o.owner? k = some (i, s)) (hentries : o.exportEntries i = []) :
    o.MentionsName k name ↔ s.linksModules = false ∧ s.kind ≠ .debugger ∧
      o.mentionsAt s.declared k = true ∧ (o.token k).text = name := by
  have hlisted : o.isListed k = false := by
    rw [Bool.eq_false_iff, ne_eq, isListed_iff hk, hentries]
    simp
  have hquoted : o.isQuoted k = false := by
    rw [Bool.eq_false_iff, ne_eq, isQuoted_iff hk, hentries]
    simp
  simp only [MentionsName, hquoted, isUse_iff hk, isOverlooked_eq_false hk, hlisted, hentries,
    mentionsAt, isMention, Bool.and_eq_true, isBindable_iff, Bool.not_eq_true', bne_iff_ne]
  simp only [List.not_mem_nil, false_implies, implies_true, and_true, Bool.false_eq_true,
    imp_false, false_and, or_false]
  tauto

/-- An export list mentions the inner names of its entries. -/
theorem ListsNames.exists_reference_iff (h : o.ListsNames i s stop) (hname : name ≠ [])
    (howner : ∀ k, i ≤ k → k < stop → o.owner? k = some (i, s)) :
    (∃ r ∈ s.references, r.name = name) ↔ ∃ k, i ≤ k ∧ k < stop ∧ o.MentionsName k name := by
  have hlink : s.linksModules = false := by simp [Statement.linksModules, h.kind, h.source]
  rw [h.references]
  constructor
  · rintro ⟨_, hreserved, e, he, rfl⟩
    obtain ⟨hle, hlt, hstands⟩ := h.stands e he
    have hk := howner e.name hle hlt
    refine ⟨e.name, hle, hlt, ?_⟩
    rcases Bool.or_eq_true_iff.mp hstands.spelled with hword | hstring
    · have hspelling : (o.token e.name).spelling = (o.token e.name).text := by
        simp [Token.spelling, kind_of_isWord hword]
      rw [hspelling] at hreserved ⊢
      refine .inl ⟨(isUse_iff hk).mpr ⟨⟨hword, hstands.noProperty, hstands.noKey⟩, hlink, ?_, ?_⟩,
        (isOverlooked_eq_false hk).mpr ⟨hreserved, fun _ => ?_, ?_⟩, rfl⟩
      · simp [h.declared]
      · exact fun e' he' => hstands.ne_renamed (h.stands e' he').2.2
      · exact (isListed_iff hk).mpr ⟨e, he, rfl⟩
      · simp [h.kind]
    · have hspelling : (o.token e.name).spelling = (o.token e.name).value := by
        simp [Token.spelling, kind_of_isString hstring]
      rw [hspelling] at hreserved ⊢
      exact .inr ⟨(isQuoted_iff hk).mpr ⟨hstring, ⟨e, he, rfl⟩, hlink⟩, rfl, hreserved⟩
  · rintro ⟨k, hle, hlt, hmention⟩
    have hk := howner k hle hlt
    rcases hmention with ⟨huse, hseen, rfl⟩ | ⟨hquoted, rfl, hreserved⟩
    · obtain ⟨⟨hword, _, _⟩, _, _, hinner⟩ := (isUse_iff hk).mp huse
      have hreserved := ((isOverlooked_eq_false hk).mp hseen).1
      obtain ⟨e, he, hnames⟩ := h.covers k hle hlt (isBindable_iff.mpr ⟨hword, hreserved⟩)
      obtain rfl := hnames.resolve_right (hinner e he)
      exact ⟨hname, hreserved, e, he, by simp [Token.spelling, kind_of_isWord hword]⟩
    · obtain ⟨hstring, ⟨e, he, rfl⟩, _⟩ := (isQuoted_iff hk).mp hquoted
      exact ⟨hname, hreserved, e, he, by simp [Token.spelling, kind_of_isString hstring]⟩

/-- **What a statement mentions**, told by its tokens. -/
theorem Mentions.exists_reference_iff (h : o.Mentions i s stop) (hname : name ≠ [])
    (howner : ∀ k, i ≤ k → k < stop → o.owner? k = some (i, s)) :
    (∃ r ∈ s.references, r.name = name) ↔ ∃ k, i ≤ k ∧ k < stop ∧ o.MentionsName k name := by
  cases h with
  | list hlist => exact hlist.exists_reference_iff hname howner
  | link hlink hnone _ =>
    simp only [hnone, List.not_mem_nil, false_and, exists_false, false_iff, not_exists]
    rintro k ⟨hle, hlt, ⟨huse, _⟩ | ⟨hquoted, _⟩⟩
    · exact absurd ((isUse_iff (howner k hle hlt)).mp huse).2.1 (by simp [hlink])
    · exact absurd ((isQuoted_iff (howner k hle hlt)).mp hquoted).2.2 (by simp [hlink])
  | debugger hword _ hkind hnone =>
    have hentries := exportEntries_eq_nil
      (exportBrace_eq_none (is_eq_false (b := "export") hword (by decide)))
    simp only [hnone, List.not_mem_nil, false_and, exists_false, false_iff, not_exists]
    rintro k ⟨hle, hlt, hmention⟩
    exact ((mentionsName_iff (howner k hle hlt) hentries).mp hmention).2.1 hkind
  | tokens hlink hkind hentries htokens =>
    rw [htokens, exists_mem_references]
    refine exists_congr fun k => and_congr_right fun hle => and_congr_right fun hlt => ?_
    simp [mentionsName_iff (howner k hle hlt) hentries, hlink, hkind]

/-- The statement that begins at an index of the module level mentions what its tokens do. -/
theorem exists_reference_statementsAt (ho : o.Regular) (hi : i ∈ o.startsFrom 0)
    (hname : name ≠ []) : (∃ s ∈ o.statementsAt i, ∃ r ∈ s.references, r.name = name) ↔
      ∃ k s, o.owner? k = some (i, s) ∧ o.MentionsName k name := by
  obtain ⟨statements, stop, hstatement⟩ := exists_statement hi
  obtain ⟨s, lifted, rfl, hmentions, hlifted⟩ := mentions_statement ho hstatement
  have hmain : o.mainAt? i = some (s, stop) := mainAt_eq_some.mpr ⟨lifted, hstatement⟩
  have howner (k : Nat) (s' : Statement) :
      o.owner? k = some (i, s') ↔ s' = s ∧ i ≤ k ∧ k < stop := by
    rw [owner_eq_some, hmain]
    constructor
    · rintro ⟨_, stop', hsame, hrange⟩
      cases hsame
      exact ⟨rfl, hrange⟩
    · rintro ⟨rfl, hrange⟩
      exact ⟨hi, stop, rfl, hrange⟩
  have hlifted' : ∀ d ∈ lifted, ¬ ∃ r ∈ d.references, r.name = name := by
    intro d hd
    simp [(hlifted d hd).2]
  simp only [statementsAt, hstatement, List.exists_mem_cons_iff, howner]
  rw [hmentions.exists_reference_iff hname fun k hle hlt => (howner k s).mpr ⟨rfl, hle, hlt⟩]
  constructor
  · rintro (⟨k, hle, hlt, hmention⟩ | ⟨d, hd, hr⟩)
    · exact ⟨k, s, ⟨rfl, hle, hlt⟩, hmention⟩
    · exact absurd hr (hlifted' d hd)
  · rintro ⟨k, _, ⟨rfl, hle, hlt⟩, hmention⟩
    exact .inl ⟨k, hle, hlt, hmention⟩

/-- **The names that statements mention**, told by the tokens. -/
theorem exists_reference_iff (ho : o.Regular) (h : o.body = .ok body) (hname : name ≠ []) :
    (∃ r ∈ body.flatMap Statement.references, r.name = name) ↔ ∃ k, o.MentionsName k name := by
  have hbody := bodyFrom_eq_flatMap h
  constructor
  · rintro ⟨r, hr, hr'⟩
    obtain ⟨s, hs, hr⟩ := List.mem_flatMap.mp hr
    rw [hbody] at hs
    obtain ⟨i, hi, hs⟩ := List.mem_flatMap.mp hs
    obtain ⟨k, _, _, hmention⟩ :=
      (exists_reference_statementsAt ho hi hname).mp ⟨s, hs, r, hr, hr'⟩
    exact ⟨k, hmention⟩
  · rintro ⟨k, hmention⟩
    have hspelled := hmention.isSpelled
    obtain ⟨i, s, hks⟩ := exists_owner ho h (lt_of_isSpelled hspelled)
      (is_eq_false_of_isSpelled ho.worded hspelled (by decide))
    have hi := (owner_eq_some.mp hks).1
    obtain ⟨s', hs', r, hr, hr'⟩ :=
      (exists_reference_statementsAt ho hi hname).mpr ⟨k, s, hks, hmention⟩
    refine ⟨r, List.mem_flatMap.mpr ⟨s', ?_, hr⟩, hr'⟩
    rw [hbody]
    exact List.mem_flatMap.mpr ⟨i, hi, hs'⟩

/-- The words of a `debugger` statement that stands alone are reserved. -/
theorem Mentions.mem_reserved_of_debugger (ho : o.Worded) (h : o.Mentions i s stop)
    (hkind : s.kind = .debugger) (halone : o.is i "debugger" = true → o.StandsAlone i)
    (hle : i ≤ k) (hlt : k < stop) (hword : o.isWord k = true) :
    (o.token k).text ∈ Token.reserved := by
  cases h with
  | link hlink => simp [Statement.linksModules, hkind] at hlink
  | list hlist => simp [hlist.kind] at hkind
  | tokens _ hne => exact absurd hkind hne
  | debugger hdebugger hstop =>
    rw [hstop, statementEnd_of_standsAlone ho hdebugger (halone hdebugger), debuggerEnd] at hlt
    rcases Nat.eq_or_lt_of_le hle with rfl | hgt
    · rw [text_of_is hdebugger]
      decide
    · -- the other token is a semicolon
      split at hlt
      case isTrue hmark =>
        obtain rfl : k = i + 1 := by omega
        rw [ho.is_eq_false hword (by decide)] at hmark
        cases hmark
      case isFalse => omega

/-- A statement other than a `debugger` mentions what its form says. -/
theorem exists_mentions (ho : o.Regular) (h : o.body = .ok body) (hs : s ∈ body)
    (hkind : s.kind ≠ .debugger) : ∃ i stop, o.Mentions i s stop := by
  obtain ⟨i, _, statements, stop, hstatement, hs⟩ := (mem_bodyFrom h).mp hs
  obtain ⟨s', lifted, rfl, hmentions, hlifted⟩ := mentions_statement ho hstatement
  rcases List.mem_cons.mp hs with rfl | hs
  · exact ⟨i, stop, hmentions⟩
  · exact absurd (hlifted s hs).1 hkind

theorem Mentions.spelt (h : o.Mentions i s stop) (hkind : s.kind = .importing) :
    o.Spelt s.bindings := by
  cases h with
  | link _ _ hspelt => exact hspelt hkind
  | debugger _ _ hdebugger => simp [hkind] at hdebugger
  | list hlist => simp [hlist.kind] at hkind
  | tokens hlink => simp [Statement.linksModules, hkind] at hlink

end Outline

/-! ### What the rule reports -/

/-- The names that a script imports, with their places. -/
def Script.imported (script : Script) : List Binding :=
  (script.body.filter fun s => s.kind = .importing).flatMap Statement.bindings

/-- The finding for an import that is never used. -/
def Rule.unusedFinding (b : Binding) : Finding :=
  { span := b.span, message := "'" ++ b.inner ++ "' is imported but never used",
    help := "Remove the unused import" }

theorem Scope.isMentioned_eq_false {scope : Scope} {name : Bytes} :
    scope.isMentioned name = false ↔ ¬ ∃ r ∈ scope.references, r.name = name := by
  simp [isMentioned, mentions]

/-- An imported name has an entry. -/
theorem Script.exists_entry {script : Script} {b : Binding} (hb : b ∈ script.imported) :
    ∃ e ∈ (Scope.ofBody script.body).entries,
      e.kind = .importing ∧ e.name = b.inner ∧ e.span = b.span := by
  obtain ⟨s, hs, hb⟩ := List.mem_flatMap.mp hb
  obtain ⟨hs, hkind⟩ := List.mem_filter.mp hs
  have hkind : s.kind = .importing := by simpa using hkind
  obtain ⟨index, hindex⟩ := List.mem_iff_getElem?.mp hs
  refine ⟨⟨b.inner, .importing, b.span, index, b.typeOnly⟩, ?_, rfl, rfl, rfl⟩
  refine List.mem_flatten.mpr
    ⟨_, List.mem_map.mpr ⟨(s, index), List.mem_zipIdx_iff_getElem?.mpr hindex, rfl⟩, ?_⟩
  simp only [Scope.statementEntries, hkind]
  exact List.mem_map.mpr ⟨b, hb, rfl⟩

/-- **An imported name is reported** if nothing mentions it. -/
theorem Rule.unusedFinding_mem_iff {subject : Subject} {b : Binding}
    (hscope : subject.scope = some (.ofBody subject.script.body))
    (hb : b ∈ subject.script.imported) (hname : b.inner ≠ []) :
    unusedFinding b ∈ (noUnusedImports.check subject).findings ↔
      ¬ ∃ r ∈ subject.script.body.flatMap Statement.references, r.name = b.inner := by
  have hcheck : (noUnusedImports.check subject).findings =
      (((Scope.ofBody subject.script.body).entries.filter
        (isUnusedImport (.ofBody subject.script.body))).map fun e =>
          { span := e.span, message := "'" ++ e.name ++ "' is imported but never used",
            help := "Remove the unused import" }) := by
    simp [noUnusedImports, hscope]
  rw [hcheck]
  constructor
  · intro hmem
    obtain ⟨e, he, hfinding⟩ := List.mem_map.mp hmem
    obtain ⟨_, hunused⟩ := List.mem_filter.mp he
    -- the name can be read off the message
    have hmessage := congrArg Finding.message hfinding
    have hsame : e.name = b.inner := by
      simpa [unusedFinding] using hmessage
    simp only [isUnusedImport, Bool.and_eq_true, Bool.not_eq_true', hsame] at hunused
    exact Scope.isMentioned_eq_false.mp hunused.2
  · intro hnone
    obtain ⟨e, he, hkind, hinner, hspan⟩ := Script.exists_entry hb
    refine List.mem_map.mpr ⟨e, List.mem_filter.mpr ⟨he, ?_⟩, ?_⟩
    · have hunused : (Scope.ofBody subject.script.body).isMentioned b.inner = false :=
        Scope.isMentioned_eq_false.mpr hnone
      simp [isUnusedImport, hkind, hinner, hname, hunused]
    · simp [unusedFinding, hinner, hspan]

/-- The rule reports the imported name. -/
def Subject.ReportsUnused (subject : Subject) (b : Binding) : Prop :=
  Rule.unusedFinding b ∈ (Rule.noUnusedImports.check subject).findings

instance (subject : Subject) (b : Binding) : Decidable (subject.ReportsUnused b) :=
  inferInstanceAs (Decidable (_ ∈ _))

namespace Segment

variable {s : Segment} {o : Outline} {b : Binding}

/-- Tokens are not empty. -/
theorem text_ne_nil {k : Nat} (h : s.outline = .ok o) (hk : k < o.size) :
    (o.token k).text ≠ [] := by
  obtain ⟨place, hplace⟩ := placed_outline h
  have hstands := hplace.stands k hk
  have := hstands.nonempty
  have := hstands.inside
  rw [hstands.cut, ← List.length_pos_iff]
  simp only [Bytes.slice, List.length_take, List.length_drop]
  omega

/-- Local names are not empty. -/
theorem inner_ne_nil {script : Script} (hscript : s.parse = .ok script) (ho : s.outline = .ok o)
    (hb : b ∈ script.imported) : b.inner ≠ [] := by
  obtain ⟨o', ho', hbody⟩ := exists_outline hscript
  obtain rfl := Except.ok.inj (ho.symm.trans ho')
  obtain ⟨statement, hs, hb⟩ := List.mem_flatMap.mp hb
  obtain ⟨hs, hkind⟩ := List.mem_filter.mp hs
  have hkind : statement.kind = .importing := by simpa using hkind
  obtain ⟨i, stop, hmentions⟩ :=
    Outline.exists_mentions (regular_outline ho) hbody hs (by simp [hkind])
  obtain ⟨k, hk, hinner⟩ := hmentions.spelt hkind b hb
  rw [hinner]
  exact text_ne_nil ho (Outline.lt_of_isSpelled hk)

/-- In a segment whose `debugger` statements stand alone, a use of a name that is neither
reserved nor private is not overlooked. -/
theorem isOverlooked_of_isUse {script : Script} {k : Nat} (hscript : s.parse = .ok script)
    (ho : s.outline = .ok o) (halone : s.DebuggersStandAlone)
    (hreserved : (o.token k).text ∉ Token.reserved) (hprivate : (o.token k).text.head? ≠ some '#')
    (huse : o.isUse k = true) : o.isOverlooked k = false := by
  obtain ⟨o', ho', hbody⟩ := exists_outline hscript
  obtain rfl := Except.ok.inj (ho.symm.trans ho')
  have hregular := regular_outline ho
  have hword : o.isWord k = true := by
    simp only [Outline.isUse, Bool.and_eq_true] at huse
    exact huse.1.1.1
  obtain ⟨i, statement, howner⟩ := Outline.exists_owner hregular hbody (Outline.lt_of_isWord hword)
    (hregular.worded.is_eq_false hword (by decide))
  refine (Outline.isOverlooked_eq_false howner).mpr ⟨hreserved, fun h => absurd h hprivate, ?_⟩
  intro hkind
  obtain ⟨hi, stop, hmain, hle, hlt⟩ := Outline.owner_eq_some.mp howner
  obtain ⟨lifted, hstatement⟩ := Outline.mainAt_eq_some.mp hmain
  obtain ⟨_, _, hcons, hmentions, _⟩ := Outline.mentions_statement hregular hstatement
  cases hcons
  simp only [DebuggersStandAlone, hscript, ho] at halone
  exact hreserved
    (hmentions.mem_reserved_of_debugger hregular.worded hkind (halone i hi) hle hlt hword)

/-- **Which imports are reported** as unused: those whose uses are all overlooked and that no
literal in an export list names.  A use is overlooked where its name is one of the words that
may be reserved, `of` or `get` for example, although import lists accept these as local names;
where it is a private name; and where a `debugger` statement has taken it in.  Apart from
these, exactly the imports without a use are reported. -/
theorem reports_unused {e : Extract} (links : Nat → Table Interface) (graph : Option ModuleGraph)
    (m : Module) (index : Nat) (hscript : s.parse = .ok e.script) (ho : s.outline = .ok o)
    (hb : b ∈ e.script.imported) :
    ((AnalysisSettings.subject links graph m index s e).ReportsUnused b ↔
      (∀ k, o.isUse k = true → (o.token k).text = b.inner → o.isOverlooked k = true) ∧
        ∀ k, o.isQuoted k = true → (o.token k).value = b.inner → b.inner ∈ Token.reserved) ∧
    (b.inner ∉ Token.reserved → b.inner.head? ≠ some '#' → s.DebuggersStandAlone →
      (∀ k, o.isQuoted k = true → (o.token k).value ≠ b.inner) →
      ((AnalysisSettings.subject links graph m index s e).ReportsUnused b ↔
        ∀ k, o.isUse k = true → (o.token k).text ≠ b.inner)) := by
  obtain ⟨o', ho', hbody⟩ := exists_outline hscript
  obtain rfl := Except.ok.inj (ho.symm.trans ho')
  have hname := inner_ne_nil hscript ho hb
  have hreports : (AnalysisSettings.subject links graph m index s e).ReportsUnused b ↔
      (∀ k, o.isUse k = true → (o.token k).text = b.inner → o.isOverlooked k = true) ∧
        ∀ k, o.isQuoted k = true → (o.token k).value = b.inner → b.inner ∈ Token.reserved := by
    have hreference := Outline.exists_reference_iff (regular_outline ho) hbody hname
    have hmem : (AnalysisSettings.subject links graph m index s e).ReportsUnused b ↔
        ¬ ∃ r ∈ e.script.body.flatMap Statement.references, r.name = b.inner :=
      Rule.unusedFinding_mem_iff rfl hb hname
    rw [hmem, hreference, not_exists, ← forall_and]
    exact forall_congr' fun k => Outline.not_mentionsName_iff
  refine ⟨hreports, fun hreserved hprivate halone hquoted => ?_⟩
  rw [hreports]
  constructor
  · rintro ⟨hoverlooked, _⟩ k huse htext
    have hseen :=
      isOverlooked_of_isUse hscript ho halone (htext ▸ hreserved) (htext ▸ hprivate) huse
    rw [hoverlooked k huse htext] at hseen
    cases hseen
  · intro hunused
    exact ⟨fun k huse htext => absurd htext (hunused k huse),
      fun k hk hvalue => absurd hvalue (hquoted k hk)⟩

/-- Of three imports one is used, and another one under a word that may be reserved. -/
theorem reports_unused_get : ∃ (s : Segment) (o : Outline) (e : Extract) (used other get : Binding),
    s.text = "import \x7b used, other, get \x7d from 'm';\nused(get);\n" ∧
    s.parse = .ok e.script ∧ s.outline = .ok o ∧ e.script.imported = [used, other, get] ∧
    (used.inner = "used" ∧ other.inner = "other" ∧ get.inner = "get") ∧
    ∀ links graph m index,
      ¬ (AnalysisSettings.subject links graph m index s e).ReportsUnused used ∧
      (AnalysisSettings.subject links graph m index s e).ReportsUnused other ∧
      (AnalysisSettings.subject links graph m index s e).ReportsUnused get := by
  let s : Segment :=
    ⟨"import \x7b used, other, get \x7d from 'm';\nused(get);\n", 0, ⟨false, false⟩⟩
  let used : Binding := ⟨"used", "used", ⟨9, 13⟩, false⟩
  let other : Binding := ⟨"other", "other", ⟨15, 20⟩, false⟩
  let get : Binding := ⟨"get", "get", ⟨22, 25⟩, false⟩
  have hfacts : (s.parse.toOption.bind fun script => s.outline.toOption.map fun o =>
      (script.imported, (List.range o.size).filter o.isUse, (List.range o.size).filter o.isQuoted,
        (o.token 11).text, (o.token 13).text)) =
      some ([used, other, get], [11, 13], [], used.inner, get.inner) := by
    decide +kernel
  have halone : s.DebuggersStandAlone := by decide +kernel
  cases hscript : s.parse with
  | error failure => simp [hscript, Except.toOption] at hfacts
  | ok script =>
    cases ho : s.outline with
    | error failure => simp [hscript, ho, Except.toOption] at hfacts
    | ok o =>
      simp only [hscript, ho, Except.toOption, Option.bind_some, Option.map_some,
        Option.some.injEq, Prod.mk.injEq] at hfacts
      obtain ⟨himported, huses, hliterals, htext, htext'⟩ := hfacts
      have huse (k : Nat) : o.isUse k = true ↔ k = 11 ∨ k = 13 := by
        have hlt (hk : o.isUse k = true) : k < o.size := by
          simp only [Outline.isUse, Bool.and_eq_true] at hk
          exact Outline.lt_of_isWord hk.1.1.1
        have hmem : k ∈ (List.range o.size).filter o.isUse ↔ k ∈ [11, 13] := by rw [huses]
        simpa [and_iff_right_of_imp hlt] using hmem
      have hquoted (k : Nat) : ¬ o.isQuoted k = true := by
        intro hk
        have hlt : k < o.size := by
          simp only [Outline.isQuoted, Bool.and_eq_true] at hk
          exact Outline.lt_of_isString hk.1.1
        have hmem : k ∈ (List.range o.size).filter o.isQuoted := by simp [hlt, hk]
        simp [hliterals] at hmem
      refine ⟨s, o, ⟨script, default, []⟩, used, other, get, rfl, hscript, ho, himported,
        ⟨rfl, rfl, rfl⟩, fun links graph m index => ?_⟩
      refine ⟨fun hreported => ?_, ?_, ?_⟩
      · have hunused := ((reports_unused links graph m index hscript ho (by simp [himported])).2
          (by decide) (by decide) halone fun k hk => absurd hk (hquoted k)).mp hreported
        exact hunused 11 ((huse 11).mpr (.inl rfl)) htext
      · refine ((reports_unused links graph m index hscript ho (by simp [himported])).2
          (by decide) (by decide) halone fun k hk => absurd hk (hquoted k)).mpr fun k hk => ?_
        rcases (huse k).mp hk with rfl | rfl
        · rw [htext]
          decide
        · rw [htext']
          decide
      · refine (reports_unused links graph m index hscript ho (by simp [himported])).1.mpr
          ⟨fun k hk hget => ?_, fun k hk => absurd hk (hquoted k)⟩
        have hreserved : get.inner ∈ Token.reserved := by decide
        simp [Outline.isOverlooked, hget, hreserved]

/-- A word that may be reserved is imported and used, and reported. -/
theorem reports_used_of : ∃ (s : Segment) (o : Outline) (e : Extract) (b : Binding) (k : Nat),
    s.text = "import \x7b of \x7d from 'rxjs';\nof(1);\n" ∧
    s.parse = .ok e.script ∧ s.outline = .ok o ∧ b ∈ e.script.imported ∧
    o.isUse k = true ∧ (o.token k).text = b.inner ∧
    ∀ links graph m index,
      (AnalysisSettings.subject links graph m index s e).ReportsUnused b := by
  let s : Segment := ⟨"import \x7b of \x7d from 'rxjs';\nof(1);\n", 0, ⟨false, false⟩⟩
  let b : Binding := ⟨"of", "of", ⟨9, 11⟩, false⟩
  have hfacts : (s.parse.toOption.bind fun script => s.outline.toOption.map fun o =>
      (script.imported, o.isUse 7, (o.token 7).text,
        script.body.flatMap Statement.references)) = some ([b], true, b.inner, []) := by
    decide +kernel
  cases hscript : s.parse with
  | error failure => simp [hscript, Except.toOption] at hfacts
  | ok script =>
    cases ho : s.outline with
    | error failure => simp [hscript, ho, Except.toOption] at hfacts
    | ok o =>
      simp only [hscript, ho, Except.toOption, Option.bind_some, Option.map_some,
        Option.some.injEq, Prod.mk.injEq] at hfacts
      obtain ⟨himported, huse, htext, hnone⟩ := hfacts
      have hb : b ∈ script.imported := himported ▸ List.mem_singleton_self b
      refine ⟨s, o, ⟨script, default, []⟩, b, 7, rfl, hscript, ho, hb, huse, htext,
        fun links graph m index => ?_⟩
      refine (Rule.unusedFinding_mem_iff rfl hb (by decide)).mpr ?_
      simp [AnalysisSettings.subject, hnone]

end Segment

end ScriptLint
