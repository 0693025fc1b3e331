/-
Names at their places.

A name that a statement declares, imports or mentions is kept with a range of the text.  In
most forms of statements both are taken from one token, so that the range is where the name is
written.  The list of an export without a module name takes them from two: the names that it
mentions are the inner ones, and their ranges those of the outer names.

* **`Span.Shows`** — the name is written at the range;
* **`Statement.NamesAt`** — what the names of a statement have in common with their places;
* **`Outline.namesAt_of_bodyFrom`** — it is that a token is the name, for all statements;
* **`Segment.names_shown`** — which names of a text are written at their ranges;
* **`Segment.shows_other_name`** — a mention with the range of another name.
-/
import ScriptLint.Proofs.Lexing

namespace ScriptLint

/-! ### Names in a text -/

/-- The name is written in the text at the range. -/
def Span.Shows (text : Bytes) (span : Span) (name : Bytes) : Prop :=
  ∃ start, span = .ofOffsets start (start + name.length) ∧ start + name.length ≤ text.length ∧
    text.slice start name.length = name

variable {text name : Bytes} {span : Span}

/-- In a text that is not too long, the range lies inside and its bytes are the name. -/
theorem Span.Shows.cut (h : span.Shows text name) (hlength : text.length < 2 ^ 32) :
    span.Within 0 text.length ∧ span.cut text = name := by
  obtain ⟨start, rfl, hinside, hslice⟩ := h
  obtain ⟨hstart, hstop⟩ := Token.toNat_ofOffsets
    (Nat.lt_of_le_of_lt hinside hlength) (Nat.le_add_right start name.length)
  refine ⟨Span.within_ofOffsets hlength (Nat.le_add_right _ _) hinside, ?_⟩
  rw [Span.cut, hstart, hstop, Nat.add_sub_cancel_left]
  exact hslice

/-- A token shows its text. -/
theorem Token.StandsAt.shows {t : Token} {place : Nat × Nat} (h : t.StandsAt text place) :
    t.span.Shows text t.text := by
  have hlt := h.nonempty
  have hinside := h.inside
  have hlength : t.text.length = place.2 - place.1 := by
    rw [h.cut, Bytes.slice, List.length_take, List.length_drop]
    omega
  have hstop : place.1 + (place.2 - place.1) = place.2 := by omega
  refine ⟨place.1, ?_, ?_, ?_⟩
  · rw [hlength, hstop]
    exact h.span
  · rw [hlength, hstop]
    exact hinside
  · rw [hlength]
    exact h.cut.symm

/-! ### Names of statements -/

/-- The statement exports names of its own module, and mentions the inner one of each with the
place where the outer one is. -/
structure Statement.ListsLocals (Outer : Span → Bytes → Prop) (s : Statement) : Prop where
  kind : s.kind = .exporting
  source : s.source = none
  declared : s.declared = []
  references : ∀ r ∈ s.references, ∃ b ∈ s.bindings, r = ⟨b.inner, b.span⟩
  outer : ∀ b ∈ s.bindings, Outer b.span b.outer

/-- The names that a statement declares, imports and mentions have a property together with
their places.  Where the statement exports names of its own module, only the outer names have
one. -/
structure Statement.NamesAt (Name Outer : Span → Bytes → Prop) (s : Statement) : Prop where
  declared : ∀ d ∈ s.declared, Name d.span d.name
  imported : s.kind = .importing → ∀ b ∈ s.bindings, Name b.span b.inner
  references : (∀ r ∈ s.references, Name r.span r.name) ∨ s.ListsLocals Outer

theorem Statement.NamesAt.mono {Name Name' Outer Outer' : Span → Bytes → Prop} {s : Statement}
    (h : s.NamesAt Name Outer) (hname : ∀ span name, Name span name → Name' span name)
    (houter : ∀ span name, Outer span name → Outer' span name) : s.NamesAt Name' Outer' := by
  refine ⟨fun d hd => hname _ _ (h.declared d hd),
    fun hkind b hb => hname _ _ (h.imported hkind b hb), ?_⟩
  rcases h.references with hreferences | hlist
  · exact .inl fun r hr => hname _ _ (hreferences r hr)
  · exact .inr ⟨hlist.kind, hlist.source, hlist.declared, hlist.references,
      fun b hb => houter _ _ (hlist.outer b hb)⟩

namespace Outline

section

variable (o : Outline)

/-- The range is that of a token whose text is the name. -/
def Names (span : Span) (name : Bytes) : Prop :=
  ∃ k < o.size, span = (o.token k).span ∧ name = (o.token k).text

/-- The range is that of a word or a string that spells the name. -/
def SpellsName (span : Span) (name : Bytes) : Prop :=
  ∃ k, o.isSpelled k = true ∧ span = (o.token k).span ∧ name = (o.token k).spelling

end

variable {o : Outline} {i j k start stop : Nat} {declared : List Identifier}

/-! ### Declared and mentioned names -/

theorem names_identifier (h : o.isBindable k = true) :
    o.Names (o.identifier k).span (o.identifier k).name :=
  ⟨k, lt_of_isWord (isWord_of_isBindable h), rfl, rfl⟩

theorem names_references :
    ∀ r ∈ o.references declared start stop, o.Names r.span r.name := by
  intro r hr
  obtain ⟨k, _, hk⟩ := List.mem_filterMap.mp hr
  split at hk
  case isTrue hmention =>
    obtain rfl := Option.some.inj hk
    simp only [isMention, Bool.and_eq_true] at hmention
    exact names_identifier hmention.1.1.1.1
  case isFalse => cases hk

theorem names_patternNames (opener : Nat) :
    ∀ d ∈ o.patternNames opener, o.Names d.span d.name := by
  intro d hd
  obtain ⟨k, _, hk⟩ := List.mem_filterMap.mp hd
  split at hk
  case isTrue hbinds =>
    obtain rfl := Option.some.inj hk
    simp only [Bool.and_eq_true] at hbinds
    exact names_identifier hbinds.1.1.1
  case isFalse => cases hk

theorem names_variableNames (stop k : Nat) (expecting : Bool) :
    ∀ d ∈ o.variableNames stop k expecting, o.Names d.span d.name := by
  fun_induction variableNames o stop k expecting with
  | case1 k expecting hk hname ih =>
    exact List.forall_mem_cons.mpr ⟨names_identifier (Bool.and_eq_true_iff.mp hname).2, ih⟩
  | case2 k expecting hk hname hpattern ih =>
    exact List.forall_mem_append.mpr ⟨names_patternNames k, ih⟩
  | case3 k expecting hk hname hpattern hopens ih => exact ih
  | case4 k expecting hk hname hpattern hopens ih => exact ih
  | case5 k expecting hk => simp

theorem names_nameAt (j : Nat) : ∀ d ∈ o.nameAt j, o.Names d.span d.name := by
  unfold nameAt
  split
  case isTrue hname => exact List.forall_mem_singleton.mpr (names_identifier hname)
  case isFalse => simp

/-- The names of a declaration. -/
theorem names_declaration {d : Declaration} (h : o.declaration? i = some d) :
    (∀ n ∈ d.declared, o.Names n.span n.name) ∧ ∀ r ∈ d.references, o.Names r.span r.name := by
  unfold declaration? at h
  split at h
  · cases h
    exact ⟨names_nameAt _, names_references⟩
  split at h
  · cases h
    exact ⟨names_nameAt _, names_references⟩
  split at h
  · cases h
    exact ⟨names_variableNames _ _ _, names_references⟩
  · cases h

/-! ### Forms of statements -/

/-- A statement that is no import and no list of names. -/
theorem namesAt_plain {s : Statement} (hkind : s.kind ≠ .importing)
    (hdeclared : ∀ d ∈ s.declared, o.Names d.span d.name)
    (hreferences : ∀ r ∈ s.references, o.Names r.span r.name) :
    s.NamesAt o.Names o.SpellsName :=
  ⟨hdeclared, fun h => absurd h hkind, .inl hreferences⟩

theorem namesAt_importing {s : Statement} (h : o.importing i = .ok (s, stop)) :
    s.NamesAt o.Names o.SpellsName := by
  simp only [importing] at h
  generalize (if o.importsTypes (i + 1) then i + 2 else i + 1) = j at h
  split at h
  case isTrue =>
    cases h
    exact ⟨by simp, by simp, .inl (by simp)⟩
  case isFalse =>
    split at h
    case isTrue hassigned =>
      cases h
      have hname := (Bool.and_eq_true_iff.mp hassigned).1
      refine namesAt_plain (by simp) ?_ names_references
      exact List.forall_mem_singleton.mpr (names_identifier hname)
    case isFalse =>
      split at h
      · cases h
      · rename_i bindings j hclause
        cases h
        refine ⟨by simp, fun _ b hb => ?_, .inl (by simp)⟩
        obtain ⟨k, hk, hinner, hspan⟩ := speltAt_importClause hclause b hb
        exact ⟨k, lt_of_isSpelled hk, hspan, hinner⟩

theorem namesAt_starExport {typeOnly : Bool} {s : Statement}
    (h : o.starExport i typeOnly j = .ok (s, stop)) : s.NamesAt o.Names o.SpellsName := by
  simp only [starExport] at h
  generalize (if o.is (j + 1) "as" && o.isSpelled (j + 2) then j + 3 else j + 1) = j' at h
  split at h
  case isTrue =>
    cases h
    exact namesAt_plain (by simp) (by simp) (by simp)
  case isFalse => cases h

/-- **An export list** mentions inner names at the places of outer ones. -/
theorem namesAt_listExport {typeOnly : Bool} {s : Statement}
    (h : o.listExport i typeOnly j = .ok (s, stop)) : s.NamesAt o.Names o.SpellsName := by
  simp only [listExport] at h
  split at h
  case h_1 => cases h
  case h_2 entries hentries =>
    split at h
    case isTrue =>
      cases h
      exact namesAt_plain (by simp) (by simp) (by simp)
    case isFalse =>
      cases h
      refine ⟨by simp, by simp, .inr ⟨rfl, rfl, rfl, fun r hr => ?_, fun b hb => ?_⟩⟩
      · obtain ⟨b, hb, hr⟩ := List.mem_filterMap.mp hr
        split at hr
        case isTrue =>
          obtain rfl := Option.some.inj hr
          exact ⟨b, hb, rfl⟩
        case isFalse => cases hr
      · obtain ⟨e, he, rfl⟩ := List.mem_map.mp hb
        exact ⟨_, (lists_of_specifiers hentries).spelled e he, rfl, rfl⟩

theorem namesAt_defaultExport (i j : Nat) :
    (o.defaultExport i j).1.NamesAt o.Names o.SpellsName := by
  unfold defaultExport
  cases hd : (o.declaration? (j + 1)).filter fun d => d.kind != .variable with
  | none => exact namesAt_plain (by simp) (by simp) names_references
  | some d =>
    obtain ⟨hdeclared, hreferences⟩ := names_declaration (Option.filter_eq_some_iff.mp hd).1
    exact namesAt_plain (by simp) hdeclared hreferences

theorem namesAt_typeExport (i j : Nat) :
    (o.typeExport i j).1.NamesAt o.Names o.SpellsName := by
  refine namesAt_plain (by simp [typeExport]) ?_ names_references
  simp only [typeExport]
  split
  case isTrue hname =>
    have hname := (Bool.and_eq_true_iff.mp hname).2
    exact List.forall_mem_singleton.mpr (names_identifier hname)
  case isFalse => simp

theorem namesAt_exporting {s : Statement} (h : o.exporting i = .ok (s, stop)) :
    s.NamesAt o.Names o.SpellsName := by
  simp only [exporting] at h
  generalize (o.is (i + 1) "type" && (o.is (i + 2) "\x7b" || o.is (i + 2) "*")) = typeOnly at h
  generalize (if typeOnly then i + 2 else i + 1) = j at h
  split at h
  · exact namesAt_starExport h
  split at h
  · exact namesAt_listExport h
  split at h
  · cases h
    exact namesAt_defaultExport _ _
  split at h
  · rename_i d hd
    cases h
    obtain ⟨hdeclared, hreferences⟩ := names_declaration hd
    exact namesAt_plain (by simp) hdeclared hreferences
  · cases h
    exact namesAt_typeExport _ _

theorem namesAt_plainStatement (i : Nat) : (o.plain i).1.NamesAt o.Names o.SpellsName := by
  unfold plain
  split
  · rename_i d hd
    obtain ⟨hdeclared, hreferences⟩ := names_declaration hd
    exact namesAt_plain (kind_declaration hd).1 hdeclared hreferences
  · exact namesAt_plain (by simp) (by simp) names_references

theorem namesAt_debuggers {s : Statement} (h : s ∈ o.debuggers start stop) :
    s.NamesAt o.Names o.SpellsName := by
  rw [debuggers_eq_map] at h
  obtain ⟨k, _, rfl⟩ := List.mem_map.mp h
  exact namesAt_plain (by simp [debuggerAt]) (by simp [debuggerAt]) (by simp [debuggerAt])

/-! ### All statements -/

theorem namesAt_of_statement {statements : List Statement}
    (h : o.statement i = .ok (statements, stop)) :
    ∀ s ∈ statements, s.NamesAt o.Names o.SpellsName := by
  unfold statement at h
  split at h
  · obtain ⟨⟨s, stop'⟩, himport, h⟩ := bind_ok h
    cases h
    exact List.forall_mem_singleton.mpr (namesAt_importing himport)
  split at h
  · obtain ⟨⟨s, stop'⟩, hexport, h⟩ := bind_ok h
    cases h
    exact List.forall_mem_cons.mpr ⟨namesAt_exporting hexport, fun _ => namesAt_debuggers⟩
  split at h
  · cases h
    exact List.forall_mem_singleton.mpr (namesAt_plain (by simp) (by simp) (by simp))
  · cases h
    exact List.forall_mem_cons.mpr ⟨namesAt_plainStatement i, fun _ => namesAt_debuggers⟩

/-- **The names of all statements of an outline** are those of tokens. -/
theorem namesAt_of_bodyFrom {body : List Statement} (h : o.bodyFrom i = .ok body) :
    ∀ s ∈ body, s.NamesAt o.Names o.SpellsName := by
  intro s hs
  obtain ⟨j, _, statements, stop, hstatement, hs⟩ := (mem_bodyFrom h).mp hs
  exact namesAt_of_statement hstatement s hs

end Outline

/-! ### Texts -/

/-- The name is written in the text at the range, as a word or between quotes. -/
def Span.Writes (text : Bytes) (span : Span) (name : Bytes) : Prop :=
  span.Shows text name ∨
    ∃ quote : UInt8, (quote = '"' ∨ quote = '\'') ∧ span.Shows text (quote :: (name ++ [quote]))

namespace Segment

variable {s : Segment} {o : Outline}

theorem shows_of_names (ho : s.outline = .ok o) (h : o.Names span name) :
    span.Shows s.text name := by
  obtain ⟨k, hk, rfl, rfl⟩ := h
  obtain ⟨place, hplaced⟩ := placed_outline ho
  exact (hplaced.stands k hk).shows

/-- A string of an outline is its value between two quotes. -/
theorem isQuoted_token {k : Nat} (ho : s.outline = .ok o) (hk : k < o.size)
    (hkind : (o.token k).kind = .string) : (o.token k).IsQuoted := by
  obtain ⟨tokens, hscan, houtline⟩ := bind_ok ho
  have htokens := Outline.tokens_ofTokens houtline
  have hlt : k < tokens.length := by simpa [Outline.size, htokens] using hk
  have htoken : o.token k = tokens[k] := by simp [Outline.token, htokens, hlt]
  rw [htoken] at hkind ⊢
  exact Token.isQuoted_of_scan hscan _ (List.getElem_mem hlt) hkind

theorem writes_of_spellsName (ho : s.outline = .ok o) (h : o.SpellsName span name) :
    span.Writes s.text name := by
  obtain ⟨k, hspelled, rfl, rfl⟩ := h
  have hk := Outline.lt_of_isSpelled hspelled
  have hshows : (o.token k).span.Shows s.text (o.token k).text :=
    shows_of_names ho ⟨k, hk, rfl, rfl⟩
  by_cases hkind : (o.token k).kind = .string
  · obtain ⟨quote, hquote, htext⟩ := isQuoted_token ho hk hkind
    refine .inr ⟨quote, hquote, ?_⟩
    rw [Token.spelling, if_pos hkind, ← htext]
    exact hshows
  · rw [Token.spelling, if_neg hkind]
    exact .inl hshows

/-- **The names of a text at their places.**  Every name that a statement declares, imports or
mentions is written at its range, inside of the segment; but an export list without a module
name mentions the inner names of its entries, with the ranges where the outer ones are
written. -/
theorem names_shown {script : Script} (h : s.parse = .ok script) :
    ∀ statement ∈ script.body, statement.NamesAt
      (fun span name => span.Shows s.text name ∧
        (s.text.length < 2 ^ 32 → span.Within 0 s.text.length ∧ span.cut s.text = name))
      (Span.Writes s.text) := by
  intro statement hstatement
  obtain ⟨o, ho, hbody⟩ := exists_outline h
  refine (Outline.namesAt_of_bodyFrom hbody statement hstatement).mono ?_
    fun span name => writes_of_spellsName ho
  intro span name hname
  have hshows := shows_of_names ho hname
  exact ⟨hshows, hshows.cut⟩

/-- Names of an import, of a pattern and of an export list. -/
theorem names_shown_pattern : ∃ (s : Segment) (script : Script),
    s.text = "import \x7b b as c \x7d from 'm';\nlet \x7b d \x7d = c;\nexport \x7b d \x7d;\n" ∧
    s.parse = .ok script ∧
    script.body.map Statement.kind = [.importing, .variable, .exporting] ∧
    ∀ statement ∈ script.body, statement.NamesAt
      (fun span name => span.Shows s.text name ∧
        (s.text.length < 2 ^ 32 → span.Within 0 s.text.length ∧ span.cut s.text = name))
      (Span.Writes s.text) := by
  obtain ⟨s, hs⟩ : ∃ s : Segment,
      s = ⟨"import \x7b b as c \x7d from 'm';\nlet \x7b d \x7d = c;\nexport \x7b d \x7d;\n", 0,
        ⟨false, false⟩⟩ := ⟨_, rfl⟩
  have hkinds : s.parse.map (fun script => script.body.map Statement.kind) =
      .ok [.importing, .variable, .exporting] := by
    rw [hs]
    decide +kernel
  cases hscript : s.parse with
  | error failure => simp [hscript, Except.map] at hkinds
  | ok script =>
    rw [hscript] at hkinds
    exact ⟨s, script, by rw [hs], hscript, Except.ok.inj hkinds, names_shown hscript⟩

/-- A mention with the range of another name: what is exported as `y` is mentioned as `x`. -/
theorem shows_other_name : ∃ (script : Script) (statement : Statement) (r : Identifier),
    parse ⟨"let x = 1;\nexport \x7b x as y \x7d;\n", 0, ⟨false, false⟩⟩ = .ok script ∧
    statement ∈ script.body ∧ r ∈ statement.references ∧
    r.name = "x" ∧ r.span.cut script.text = "y" := by
  have hmentions : (parse ⟨"let x = 1;\nexport \x7b x as y \x7d;\n", 0, ⟨false, false⟩⟩).map
      (fun script => script.body.flatMap fun statement =>
        statement.references.map fun r => (r.name, r.span.cut script.text)) =
      .ok [("x", "y")] := by
    decide +kernel
  cases hscript : parse ⟨"let x = 1;\nexport \x7b x as y \x7d;\n", 0, ⟨false, false⟩⟩ with
  | error failure => simp [hscript, Except.map] at hmentions
  | ok script =>
    rw [hscript] at hmentions
    have hnames : (script.body.flatMap fun statement =>
        statement.references.map fun r => (r.name, r.span.cut script.text)) =
        [(Bytes.ofString "x", Bytes.ofString "y")] := Except.ok.inj hmentions
    have hmem := List.mem_singleton_self (Bytes.ofString "x", Bytes.ofString "y")
    rw [← hnames] at hmem
    obtain ⟨statement, hstatement, hmem⟩ := List.mem_flatMap.mp hmem
    obtain ⟨r, hr, hpair⟩ := List.mem_map.mp hmem
    obtain ⟨hname, hcut⟩ := Prod.mk.inj hpair
    exact ⟨script, statement, r, rfl, hstatement, hr, hname, hcut⟩

end Segment

end ScriptLint
