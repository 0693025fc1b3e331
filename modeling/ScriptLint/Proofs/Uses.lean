/-
Uses of identifiers.

An identifier is in use position unless it names a property or a key, is declared by its own
statement, is the outer name in an export list, or stands in a statement that names another
module.  What a statement mentions is told by all of its tokens: the words at which its reader
does not look are reserved or declared.

* **`Outline.isUse`** — the token is an identifier in use position;
* **`Outline.Mentions`** — which tokens a statement takes for mentions;
* **`Outline.mentions_statement`** — every statement mentions what its form says.
-/
import ScriptLint.Proofs.Owners
import ScriptLint.Proofs.SpecifierLists

namespace ScriptLint

/-- The statement is an import declaration, or an export of another module's names. -/
def Statement.linksModules (s : Statement) : Bool :=
  s.kind = .importing || (s.kind = .exporting && s.source.isSome)

namespace Outline

section

variable (o : Outline)

/-- The token at an index is an identifier in use position: it names no property and no key,
and in its own statement, which names no other module, it is neither declared nor the outer
name in an export list. -/
def isUse (k : Nat) : Bool :=
  o.isWord k && !o.followsDot k && !o.isKey k && (o.owner? k).all fun (i, s) =>
    !s.linksModules && s.declared.all (·.span != (o.token k).span) &&
      !(o.exportEntries i).any fun e => e.renamed = some k

/-- The token at an index is a mention other than the declared names. -/
def mentionsAt (declared : List Identifier) (k : Nat) : Bool :=
  o.isMention k && declared.all (·.span != (o.token k).span)

end

variable {o : Outline} {i j k start stop : Nat} {declared : List Identifier}

/-! ### Ranges of mentions -/

theorem references_succ (h : o.mentionsAt declared k = false) :
    o.references declared k stop = o.references declared (k + 1) stop := by
  rcases Nat.lt_or_ge k stop with hlt | hge
  · have hrange : indices k stop = k :: indices (k + 1) stop := by
      rw [indices, indices, show stop - k = stop - (k + 1) + 1 by omega]
      rfl
    rw [references, hrange, List.filterMap_cons]
    simp only [mentionsAt] at h
    simp only [h, Bool.false_eq_true, if_false]
    rfl
  · have hge' := Nat.le_succ_of_le hge
    simp [references, indices, Nat.sub_eq_zero_of_le hge, Nat.sub_eq_zero_of_le hge']

theorem mentionsAt_eq_false (h : o.isBindable k = false) : o.mentionsAt declared k = false := by
  simp [mentionsAt, isMention, h]

/-- A reserved word is no mention. -/
theorem references_word {text : Bytes} (h : o.is k text = true)
    (hreserved : text ∈ Token.reserved) :
    o.references declared k stop = o.references declared (k + 1) stop :=
  references_succ (mentionsAt_eq_false (isBindable_of_is h hreserved))

/-- The declared name is no mention. -/
theorem references_declared (h : o.identifier k ∈ declared) :
    o.references declared k stop = o.references declared (k + 1) stop := by
  refine references_succ ?_
  rw [mentionsAt, Bool.and_eq_false_iff, List.all_eq_false]
  exact .inr ⟨_, h, by simp [identifier]⟩

theorem references_nameAt (j stop : Nat) :
    o.references (o.nameAt j) j stop =
      o.references (o.nameAt j) (j + (o.nameAt j).length) stop := by
  by_cases hname : o.isBindable j = true
  · rw [nameAt, if_pos hname]
    exact references_declared (List.mem_singleton_self _)
  · rw [nameAt, if_neg hname]
    rfl

/-- The names that a range of tokens mentions. -/
theorem exists_mem_references {name : Bytes} :
    (∃ r ∈ o.references declared start stop, r.name = name) ↔
      ∃ k, start ≤ k ∧ k < stop ∧ o.mentionsAt declared k = true ∧ (o.token k).text = name := by
  constructor
  · rintro ⟨r, hr, rfl⟩
    obtain ⟨k, hk, hr⟩ := List.mem_filterMap.mp hr
    obtain ⟨hstart, hstop⟩ : start ≤ k ∧ k < stop := by
      simp only [indices, List.mem_range'_1] at hk
      omega
    split at hr
    case isTrue hmention =>
      obtain rfl := Option.some.inj hr
      exact ⟨k, hstart, hstop, hmention, rfl⟩
    case isFalse => cases hr
  · rintro ⟨k, hstart, hstop, hmention, rfl⟩
    refine ⟨o.identifier k, List.mem_filterMap.mpr ⟨k, ?_, if_pos hmention⟩, rfl⟩
    simp only [indices, List.mem_range'_1]
    omega

/-! ### Local names of imports -/

/-- The local names of bindings are texts of tokens. -/
def Spelt (o : Outline) (bindings : List Binding) : Prop :=
  ∀ b ∈ bindings, ∃ k, o.isSpelled k = true ∧ b.inner = (o.token k).text

/-- The local names of bindings are texts of tokens, and stand at the places of these. -/
def SpeltAt (o : Outline) (bindings : List Binding) : Prop :=
  ∀ b ∈ bindings, ∃ k, o.isSpelled k = true ∧ b.inner = (o.token k).text ∧
    b.span = (o.token k).span

theorem SpeltAt.spelt {bindings : List Binding} (h : o.SpeltAt bindings) : o.Spelt bindings := by
  intro b hb
  obtain ⟨k, hk, hinner, -⟩ := h b hb
  exact ⟨k, hk, hinner⟩

theorem SpeltAt.append {first others : List Binding} (h : o.SpeltAt first)
    (h' : o.SpeltAt others) : o.SpeltAt (first ++ others) :=
  List.forall_mem_append.mpr ⟨h, h'⟩

theorem isSpelled_of_isBindable (h : o.isBindable k = true) : o.isSpelled k = true := by
  simp [isSpelled, isWord_of_isBindable h]

theorem speltAt_defaultClause {typeOnly : Bool} {bindings : List Binding}
    (h : o.defaultClause typeOnly j = .ok (bindings, k)) : o.SpeltAt bindings := by
  unfold defaultClause at h
  split at h
  case isTrue hname =>
    have hspelt : o.SpeltAt [⟨(o.token j).text, "default", (o.token j).span, typeOnly⟩] := by
      simpa [SpeltAt] using ⟨j, isSpelled_of_isBindable hname, rfl, rfl⟩
    simp only at h
    split at h
    · cases h
      exact hspelt
    split at h
    · cases h
      exact hspelt
    · cases h
  case isFalse =>
    cases h
    simp [SpeltAt]

theorem speltAt_namedClause {typeOnly : Bool} {bindings : List Binding}
    (h : o.namedClause typeOnly j = .ok (bindings, k)) : o.SpeltAt bindings := by
  unfold namedClause at h
  split at h
  case isTrue =>
    split at h
    case isTrue hname =>
      cases h
      simpa [SpeltAt] using
        ⟨j + 2, isSpelled_of_isBindable (Bool.and_eq_true_iff.mp hname).2, rfl, rfl⟩
    case isFalse => cases h
  case isFalse =>
    split at h
    case isTrue =>
      split at h
      case h_1 => cases h
      case h_2 entries hentries =>
        cases h
        intro b hb
        obtain ⟨e, he, rfl⟩ := List.mem_map.mp hb
        exact ⟨_, (lists_of_specifiers hentries).spelled e he, rfl, rfl⟩
    case isFalse =>
      cases h
      simp [SpeltAt]

theorem speltAt_importClause {typeOnly : Bool} {bindings : List Binding}
    (h : o.importClause typeOnly j = .ok (bindings, k)) : o.SpeltAt bindings := by
  obtain ⟨⟨first, j'⟩, hdefault, h⟩ := bind_ok h
  obtain ⟨⟨others, j''⟩, hnamed, h⟩ := bind_ok h
  simp only at h
  split at h
  case isTrue =>
    cases h
    exact (speltAt_defaultClause hdefault).append (speltAt_namedClause hnamed)
  case isFalse => cases h

/-! ### What a statement mentions -/

/-- The statement exports names of its own module, and mentions the ones on the inner side. -/
structure ListsNames (o : Outline) (i : Nat) (s : Statement) (stop : Nat) : Prop where
  kind : s.kind = .exporting
  source : s.source = none
  declared : s.declared = []
  stands : ∀ e ∈ o.exportEntries i, i ≤ e.name ∧ e.name < stop ∧ o.Stands e
  covers : ∀ k, i ≤ k → k < stop → o.isBindable k = true →
    ∃ e ∈ o.exportEntries i, e.name = k ∨ e.renamed = some k
  references : ∀ name, (∃ r ∈ s.references, r.name = name) ↔
    name ≠ [] ∧ name ∉ Token.reserved ∧
      ∃ e ∈ o.exportEntries i, (o.token e.name).spelling = name

/-- What the statement that takes the tokens from `i` up to `stop` mentions: nothing if it
names another module or is a `debugger`, the inner names of an export list, and otherwise
every mention among its tokens that it does not declare.  The local names of an import are
texts of tokens. -/
inductive Mentions (o : Outline) (i : Nat) (s : Statement) (stop : Nat) : Prop
  | link : s.linksModules = true → s.references = [] →
      (s.kind = .importing → o.Spelt s.bindings) → Mentions o i s stop
  | debugger : o.is i "debugger" = true → stop = o.statementEnd i → s.kind = .debugger →
      s.references = [] → Mentions o i s stop
  | list : o.ListsNames i s stop → Mentions o i s stop
  | tokens : s.linksModules = false → s.kind ≠ .debugger → o.exportEntries i = [] →
      s.references = o.references s.declared i stop → Mentions o i s stop

/-- An export list without another module's name. -/
theorem listsNames_listExport {typeOnly : Bool} {s : Statement} {entries : List Specifier}
    (ho : o.Regular) (hbrace : o.exportBrace? i = some j)
    (hentries : o.specifierList j = some entries)
    (hs : s = { kind := .exporting, span := o.spanOf i stop, typeOnly,
                bindings := entries.map (o.exportedBinding typeOnly),
                references := (entries.map (o.exportedBinding typeOnly)).filterMap fun b =>
                  if b.inner ≠ [] ∧ b.inner ∉ Token.reserved then some ⟨b.inner, b.span⟩
                  else none })
    (hstop : stop = if o.is (o.afterGroup j) ";" then o.afterGroup j + 1 else o.afterGroup j) :
    o.ListsNames i s stop := by
  obtain ⟨hexport, hopens, hat⟩ := exportBrace_eq_some hbrace
  have hopens' := opens_of_brace hopens
  have hclose := ho.nested.closes_partnerOf hopens'
  have hlt := ho.nested.lt_partnerOf hopens'
  have hafter := ho.nested.afterGroup_eq hopens'
  have hlist : o.exportEntries i = entries := by
    simp [exportEntries, hbrace, hentries]
  have hlists : o.Lists (o.partnerOf j) (j + 1) entries := lists_of_specifiers hentries
  have hle : o.partnerOf j + 1 ≤ stop := by
    rw [hstop, hafter]
    split <;> omega
  refine ⟨by rw [hs], by rw [hs], by rw [hs], ?_, ?_, fun name => ?_⟩
  · rw [hlist]
    intro e he
    obtain ⟨hname, hname', hstands⟩ :=
      hlists.stands ho.worded hclose (.inr (.inr (.inl hopens))) e he
    exact ⟨by omega, by omega, hstands⟩
  · rw [hlist]
    intro k hk hkstop hword
    have hne {l : Nat} (hl : o.isBindable l = false) : k ≠ l := by
      rintro rfl
      rw [hl] at hword
      cases hword
    -- the other tokens are reserved words and marks
    have hkexport := hne (isBindable_of_is hexport (by decide))
    have hkbrace := hne (isBindable_of_mark ho.worded hopens (by decide))
    have hkclose : k ≠ o.partnerOf j := by
      refine hne (Bool.eq_false_iff.mpr fun hclosing => ?_)
      have hspelled := isSpelled_of_closes ho.worded hclose
      simp [isSpelled, isWord_of_isBindable hclosing] at hspelled
    have hbetween : j < k ∧ k < o.partnerOf j := by
      constructor
      · rcases hat with hat | ⟨hat, htype⟩
        · omega
        · have := hne (isBindable_of_is htype (by decide))
          omega
      · rw [hstop, hafter] at hkstop
        split at hkstop
        case isTrue hmark =>
          have := hne (isBindable_of_mark ho.worded hmark (by decide))
          omega
        case isFalse => omega
    exact hlists.covers ho.worded (by omega) hbetween.2 hword
  · rw [hlist, hs]
    simp only [List.mem_filterMap, List.mem_map, exportedBinding]
    constructor
    · rintro ⟨r, ⟨_, ⟨e, he, rfl⟩, hr⟩, rfl⟩
      split at hr
      case isTrue hname =>
        obtain rfl := Option.some.inj hr
        exact ⟨hname.1, hname.2, e, he, rfl⟩
      case isFalse => cases hr
    · rintro ⟨hnil, hreserved, e, he, rfl⟩
      exact ⟨_, ⟨_, ⟨e, he, rfl⟩, if_pos ⟨hnil, hreserved⟩⟩, rfl⟩

/-- One of two reserved words may stand before the other. -/
theorem references_words {first second : Bytes} (hfirst : first ∈ Token.reserved)
    (hsecond : second ∈ Token.reserved)
    (h : o.is (if o.is i first then i + 1 else i) second = true) :
    o.references declared i stop =
      o.references declared ((if o.is i first then i + 1 else i) + 1) stop := by
  split at h
  case isTrue hword =>
    rw [if_pos hword, references_word hword hfirst, references_word h hsecond]
  case isFalse hword =>
    rw [if_neg hword, references_word h hsecond]

/-- A function mentions what its tokens do. -/
theorem references_function (ho : o.Worded)
    (h : o.is (if o.is i "async" then i + 1 else i) "function" = true) :
    (o.functionDeclaration i).references = o.references (o.functionDeclaration i).declared i
      (o.functionDeclaration i).stop := by
  simp only [functionDeclaration]
  rw [references_words (i := i) (by decide) (by decide) h]
  generalize (if o.is i "async" then i + 1 else i) + 1 = j
  have hstar (declared : List Identifier) (stop : Nat) : o.references declared j stop =
      o.references declared (if o.is j "*" then j + 1 else j) stop := by
    split
    case isTrue hmark =>
      exact references_succ (mentionsAt_eq_false (isBindable_of_mark ho hmark (by decide)))
    case isFalse => rfl
  rw [hstar]
  exact (references_nameAt _ _).symm

/-- A class mentions what its tokens do. -/
theorem references_class (h : o.is (if o.is i "abstract" then i + 1 else i) "class" = true) :
    (o.classDeclaration i).references = o.references (o.classDeclaration i).declared i
      (o.classDeclaration i).stop := by
  simp only [classDeclaration]
  rw [references_words (i := i) (by decide) (by decide) h]
  exact (references_nameAt _ _).symm

/-- A declaration mentions what its tokens do. -/
theorem references_declaration {d : Declaration} (ho : o.Worded) (h : o.declaration? i = some d) :
    d.references = o.references d.declared i d.stop := by
  unfold declaration? at h
  simp only [Bool.or_eq_true, Bool.and_eq_true] at h
  split at h
  case isTrue hfunction =>
    obtain rfl := Option.some.inj h
    refine references_function ho ?_
    rcases hfunction with hword | ⟨⟨hasync, hword⟩, _⟩
    · rwa [if_neg (by simp [is_eq_false (b := "async") hword (by decide)])]
    · rwa [if_pos hasync]
  case isFalse =>
    split at h
    case isTrue hclass =>
      obtain rfl := Option.some.inj h
      refine references_class ?_
      rcases hclass with hword | ⟨habstract, hword⟩
      · rwa [if_neg (by simp [is_eq_false (b := "abstract") hword (by decide)])]
      · rwa [if_pos habstract]
    case isFalse =>
      split at h
      case isTrue hvariable =>
        obtain rfl := Option.some.inj h
        simp only [variableDeclaration]
        rcases hvariable with (hvar | hconst) | hlet
        · rw [references_word hvar (by decide)]
        · rw [references_word hconst.1 (by decide)]
        · rw [references_word hlet.1 (by decide)]
      case isFalse => cases h

theorem kind_declaration {d : Declaration} (h : o.declaration? i = some d) :
    d.kind ≠ .importing ∧ d.kind ≠ .exporting ∧ d.kind ≠ .debugger := by
  unfold declaration? at h
  split at h
  · obtain rfl := Option.some.inj h
    simp [functionDeclaration]
  split at h
  · obtain rfl := Option.some.inj h
    simp [classDeclaration]
  split at h
  · obtain rfl := Option.some.inj h
    simp [variableDeclaration]
  · cases h

theorem mentions_importing {s : Statement} (himport : o.is i "import" = true)
    (hs : o.importing i = .ok (s, stop)) : o.Mentions i s stop := by
  unfold importing at hs
  simp only at hs
  have htype : ∀ declared, o.references declared i stop =
      o.references declared (if o.importsTypes (i + 1) then i + 2 else i + 1) stop := by
    intro declared
    rw [references_word himport (by decide)]
    split
    case isTrue htype =>
      exact references_word (Bool.and_eq_true_iff.mp htype).1 (by decide)
    case isFalse => rfl
  generalize (if o.importsTypes (i + 1) then i + 2 else i + 1) = j at hs htype
  split at hs
  case isTrue =>
    cases hs
    exact .link rfl rfl fun _ => by simp [Spelt]
  case isFalse =>
    split at hs
    case isTrue =>
      cases hs
      refine .tokens rfl (by simp) ?_ ?_
      · exact exportEntries_eq_nil (exportBrace_eq_none (is_eq_false himport (by decide)))
      · rw [htype]
        exact (references_declared (List.mem_singleton_self _)).symm
    case isFalse =>
      split at hs
      case h_1 => cases hs
      case h_2 hclause =>
        cases hs
        exact .link rfl rfl fun _ => (speltAt_importClause hclause).spelt

theorem mentions_defaultExport (ho : o.Worded) (hexport : o.is i "export" = true)
    (hdefault : o.is (i + 1) "default" = true) :
    o.Mentions i (o.defaultExport i (i + 1)).1 (o.defaultExport i (i + 1)).2 := by
  have hentries : o.exportEntries i = [] := by
    refine exportEntries_eq_nil ?_
    simp [exportBrace?, hexport, is_eq_false (b := "\x7b") hdefault (by decide),
      is_eq_false (b := "type") hdefault (by decide)]
  have hwords : ∀ stop declared, o.references declared i stop =
      o.references declared (i + 1 + 1) stop := by
    intro stop declared
    rw [references_word hexport (by decide), references_word hdefault (by decide)]
  unfold defaultExport
  simp only
  split
  case h_1 d hd =>
    refine .tokens rfl (by simp) hentries ?_
    simp only
    rw [hwords, references_declaration ho (Option.filter_eq_some_iff.mp hd).1]
  case h_2 =>
    refine .tokens rfl (by simp) hentries ?_
    simp only
    rw [hwords]

theorem mentions_starExport {typeOnly : Bool} {s : Statement}
    (hs : o.starExport i typeOnly j = .ok (s, stop)) : o.Mentions i s stop := by
  unfold starExport at hs
  simp only at hs
  generalize (if o.is (j + 1) "as" && o.isSpelled (j + 2) then j + 3 else j + 1) = k at hs
  split at hs
  case isTrue =>
    cases hs
    exact .link rfl rfl nofun
  case isFalse => cases hs

theorem mentions_listExport {typeOnly : Bool} {s : Statement} (ho : o.Regular)
    (hbrace : o.exportBrace? i = some j) (hs : o.listExport i typeOnly j = .ok (s, stop)) :
    o.Mentions i s stop := by
  unfold listExport at hs
  split at hs
  case h_1 => cases hs
  case h_2 entries hentries =>
    simp only at hs
    split at hs
    case isTrue =>
      cases hs
      exact .link rfl rfl nofun
    case isFalse =>
      cases hs
      exact .list (listsNames_listExport ho hbrace hentries rfl rfl)

theorem mentions_exporting {s : Statement} (ho : o.Regular) (hexport : o.is i "export" = true)
    (hs : o.exporting i = .ok (s, stop)) : o.Mentions i s stop := by
  unfold exporting at hs
  simp only at hs
  by_cases htype : (o.is (i + 1) "type" && (o.is (i + 2) "\x7b" || o.is (i + 2) "*")) = true
  · -- behind `export type` there is a star or a list
    simp only [htype, if_true] at hs
    simp only [Bool.and_eq_true, Bool.or_eq_true] at htype
    split at hs
    case isTrue => exact mentions_starExport hs
    case isFalse hstar =>
      have hbrace := htype.2.resolve_right hstar
      rw [if_pos hbrace] at hs
      refine mentions_listExport ho ?_ hs
      simp [exportBrace?, hexport, is_eq_false (b := "\x7b") htype.1 (by decide), htype.1, hbrace]
  · simp only [htype, Bool.false_eq_true, if_false] at hs
    split at hs
    case isTrue => exact mentions_starExport hs
    case isFalse =>
      split at hs
      case isTrue hbrace =>
        exact mentions_listExport ho (by simp [exportBrace?, hexport, hbrace]) hs
      case isFalse hbrace =>
        split at hs
        case isTrue hdefault =>
          have hmentions := mentions_defaultExport ho.worded hexport hdefault
          rwa [Except.ok.inj hs] at hmentions
        case isFalse =>
          have hentries : o.exportEntries i = [] := by
            refine exportEntries_eq_nil ?_
            simp only [Bool.and_eq_true, Bool.or_eq_true, not_and, not_or] at htype
            simp only [exportBrace?, hexport, hbrace, if_true, Bool.false_eq_true, if_false]
            exact if_neg fun h => (htype (Bool.and_eq_true_iff.mp h).1).1
              (Bool.and_eq_true_iff.mp h).2
          split at hs
          case h_1 d hd =>
            cases hs
            refine .tokens rfl (by simp) hentries ?_
            rw [references_word hexport (by decide)]
            exact references_declaration ho.worded hd
          case h_2 =>
            cases hs
            refine .tokens rfl (by simp) hentries ?_
            rw [references_word hexport (by decide)]

theorem mentions_plain (ho : o.Worded) (hexport : o.is i "export" = false) :
    o.Mentions i (o.plain i).1 (o.plain i).2 := by
  have hentries := exportEntries_eq_nil (exportBrace_eq_none hexport)
  unfold plain
  split
  case h_1 d hd =>
    obtain ⟨himporting, hexporting, hdebugger⟩ := kind_declaration hd
    refine .tokens ?_ hdebugger hentries (references_declaration ho hd)
    simp [Statement.linksModules, himporting, hexporting]
  case h_2 => exact .tokens rfl (by simp) hentries rfl

theorem debugger_of_mem {s : Statement} (h : s ∈ o.debuggers start stop) :
    s.kind = .debugger ∧ s.references = [] := by
  rw [debuggers, List.mem_filterMap] at h
  obtain ⟨k, _, hk⟩ := h
  split at hk
  case isTrue =>
    obtain rfl := Option.some.inj hk
    exact ⟨rfl, rfl⟩
  case isFalse => cases hk

/-- **What is read at an index** is a statement that mentions what its form says, and
`debugger` statements in it, which mention nothing. -/
theorem mentions_statement {statements : List Statement} (ho : o.Regular)
    (h : o.statement i = .ok (statements, stop)) :
    ∃ s lifted, statements = s :: lifted ∧ o.Mentions i s stop ∧
      ∀ d ∈ lifted, d.kind = .debugger ∧ d.references = [] := by
  unfold statement at h
  split at h
  case isTrue himport =>
    obtain ⟨⟨s, stop'⟩, hs, h⟩ := bind_ok h
    cases h
    simp only [Bool.and_eq_true] at himport
    exact ⟨s, [], rfl, mentions_importing himport.1.1 hs, by simp⟩
  case isFalse =>
    split at h
    case isTrue hexport =>
      obtain ⟨⟨s, stop'⟩, hs, h⟩ := bind_ok h
      cases h
      exact ⟨s, _, rfl, mentions_exporting ho hexport hs, fun d => debugger_of_mem⟩
    case isFalse hexport =>
      split at h
      case isTrue hdebugger =>
        cases h
        exact ⟨_, [], rfl, .debugger hdebugger rfl rfl rfl, by simp⟩
      case isFalse =>
        cases h
        exact ⟨_, _, rfl, mentions_plain ho.worded (by simpa using hexport),
          fun d => debugger_of_mem⟩

end Outline

end ScriptLint
