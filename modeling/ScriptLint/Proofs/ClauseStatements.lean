/-
Clauses as statements.

Every form of clause is read as one statement, which ends where the clause ends and shares
with other modules what the clause says:

* **`Clause.Node`** — a statement is the clause;
* **`Outline.statement_clause`** — the statement at a clause is the clause.
-/
import ScriptLint.Proofs.ClauseReading

namespace ScriptLint

/-- The statement is the clause: of its kind, with its requests, imports and exports. -/
structure Clause.Node (c : Clause) (s : Statement) : Prop where
  kind : s.kind = c.kind
  requests : ∀ offset, (Interface.requestOf offset s).toList = c.requests offset
  imports : ∀ offset, Interface.importsOf offset s = c.imports offset
  exports : ((Interface.exportsOf s).filter (!Interface.isStar ·)).map Binding.outer = c.exports
  exportsAll : (Interface.exportsOf s).any Interface.isStar = c.exportsAll

namespace Outline

open Clause

variable {o : Outline} {i j k : Nat} {typeOnly semicolon : Bool} {source : Literal}
  {lexemes : List Lexeme}

/-- The brackets of an outline are nested, and it has no word or mark of other statements than
clauses. -/
structure Clausal (o : Outline) : Prop where
  nested : o.Nested
  is_foreign : ∀ i, ∀ text ∈ Lexeme.foreign, o.is i text = false

theorem Clausal.debuggers_eq_nil (ho : o.Clausal) (i stop : Nat) : o.debuggers i stop = [] := by
  rw [debuggers, List.filterMap_eq_nil_iff]
  intro k _
  have hk : o.isDebugger k = false := by
    rw [isDebugger, ho.is_foreign k "debugger" (by decide), Bool.false_and]
  rw [hk]
  rfl

/-! ### Imports -/

/-- The word `type` in front of the bindings is recognized, and only there. -/
theorem importsTypes_eq (h : o.Carries i (typeWord typeOnly ++ lexemes))
    (hj : j = i + (typeWord typeOnly).length) (htype : o.is j "type" = false)
    (hfirst : ((o.isWord j && !o.is j "from") || o.is j "\x7b" || o.is j "*") = true) :
    o.importsTypes i = typeOnly ∧ (if typeOnly then i + 1 else i) = j := by
  subst hj
  cases typeOnly with
  | false =>
    have htype : o.is i "type" = false := htype
    rw [importsTypes, htype]
    exact ⟨rfl, rfl⟩
  | true =>
    obtain ⟨hat, -⟩ := h
    refine ⟨?_, rfl⟩
    rw [importsTypes, hat.is]
    exact hfirst

/-- An import without names. -/
theorem importing_effect (h : o.At (i + 1) (.literal source)) :
    ∃ span, o.importing i =
      .ok ({ kind := .importing, span, source := some source.source }, o.moduleEnd (i + 2)) := by
  have htypes : o.importsTypes (i + 1) = false := by
    rw [importsTypes, h.is]
    rfl
  refine ⟨o.spanOf i (o.moduleEnd (i + 2)), ?_⟩
  rw [importing, htypes]
  simp only [Bool.false_eq_true, if_false, h.isString_literal, if_true, h.moduleName]

/-- An import with names. -/
theorem importing_names {bindings : List Binding} (htypes : o.importsTypes (i + 1) = typeOnly)
    (hj : (if typeOnly then i + 2 else i + 1) = j) (hstring : o.isString j = false)
    (hequals : (o.isBindable j && o.is (j + 1) "=") = false)
    (hclause : o.importClause typeOnly j = .ok (bindings, k))
    (hsource : o.At (k + 1) (.literal source)) :
    ∃ span, o.importing i =
      .ok ({ kind := .importing, span, source := some source.source, typeOnly, bindings },
        o.moduleEnd (k + 2)) := by
  refine ⟨o.spanOf i (o.moduleEnd (k + 2)), ?_⟩
  rw [importing, htypes]
  simp only [hj, hstring, hequals, hclause, hsource.moduleName, Bool.false_eq_true, if_false]

/-! ### Exports -/

/-- The word `type` in front of a star or list is recognized, and only there. -/
theorem exportsTypes_eq (h : o.Carries i (typeWord typeOnly ++ lexemes))
    (hj : j = i + (typeWord typeOnly).length) (htype : o.is j "type" = false)
    (hfirst : (o.is j "\x7b" || o.is j "*") = true) :
    (o.is i "type" && (o.is (i + 1) "\x7b" || o.is (i + 1) "*")) = typeOnly ∧
      (if typeOnly then i + 1 else i) = j := by
  subst hj
  cases typeOnly with
  | false =>
    have htype : o.is i "type" = false := htype
    rw [htype]
    exact ⟨rfl, rfl⟩
  | true =>
    obtain ⟨hat, -⟩ := h
    rw [hat.is]
    exact ⟨hfirst, rfl⟩

/-- The binding of an exported star, given the place of the star. -/
def starBinding (typeOnly : Bool) (span : Span) : Option Identifier → Binding
  | some name => ⟨[], name.name, name.span, typeOnly⟩
  | none => ⟨[], "*", span, typeOnly⟩

/-- An export of everything. -/
theorem starExport_eq {name : Option Identifier} (i : Nat)
    (h : o.Carries j (.mark '*' :: (aliased name ++ origin source)))
    (hend : o.Finishes (j + 1 + (aliased name).length + 2) semicolon) :
    ∃ span star, o.starExport i typeOnly j =
      .ok ({ kind := .exporting, span, source := some source.source, typeOnly,
             bindings := [starBinding typeOnly star name] },
        behind (j + 1 + (aliased name).length + 2) semicolon) := by
  refine ⟨o.spanOf i (behind (j + 1 + (aliased name).length + 2) semicolon), (o.token j).span, ?_⟩
  obtain ⟨hfrom, hsource, -⟩ := h.2.right
  have hfrom' : o.is (j + 1 + (aliased name).length) "from" = true := hfrom.is_eq
  -- with a name everything stands two lexemes further on
  cases name with
  | none =>
    have has : o.is (j + 1) "as" = false := hfrom.is_eq
    rw [starExport]
    simp only [has, Bool.false_and, Bool.false_eq_true, if_false]
    simp only [aliased, List.length_nil, Nat.add_zero] at hfrom' hsource hend ⊢
    simp only [hfrom', hsource.isString_literal, Bool.and_self, if_true, hend.moduleEnd,
      hsource.moduleName]
    rfl
  | some name =>
    obtain ⟨has, hname, -⟩ := h.2
    have has : o.is (j + 1) "as" = true := has.is_eq
    have hspelled : o.isSpelled (j + 2) = true := by
      rw [hname.isSpelled]
      rfl
    rw [starExport]
    simp only [has, hspelled, Bool.and_self, if_true, hname.spelling, hname.span rfl]
    simp only [aliased, List.length_cons, List.length_nil] at hfrom' hsource hend ⊢
    simp only [hfrom', hsource.isString_literal, Bool.and_self, if_true, hend.moduleEnd,
      hsource.moduleName]
    rfl

/-- The bindings of an exported list. -/
def exportedBindings (typeOnly : Bool) (entries : List ListEntry) : List Binding :=
  entries.map fun e => ⟨e.name.name, e.inner.name, e.inner.span, typeOnly || e.typeOnly⟩

/-- An export of a list from another module. -/
theorem listExport_source {entries : List ListEntry} {comma : Bool} (ho : o.Nested) (i : Nat)
    (hlegal : ∀ e ∈ entries, e.Legal) (h : o.Carries j (braces entries comma ++ origin source))
    (hend : o.Finishes (j + (braces entries comma).length + 2) semicolon) :
    ∃ span, o.listExport i typeOnly j =
      .ok ({ kind := .exporting, span, source := some source.source, typeOnly,
             bindings := exportedBindings typeOnly entries },
        behind (j + (braces entries comma).length + 2) semicolon) := by
  refine ⟨o.spanOf i (behind (j + (braces entries comma).length + 2) semicolon), ?_⟩
  obtain ⟨⟨specs, hspecs, hall⟩, hafter⟩ := h.left.specifierList ho hlegal
  obtain ⟨hfrom, hsource, -⟩ := h.right
  have hfrom : o.is (j + (braces entries comma).length) "from" = true :=
    hfrom.is_eq
  rw [listExport, hspecs, hafter]
  simp only [map_eq_of_forall₂ hall fun e s hes => exportedBinding_eq hes typeOnly, hfrom,
    hsource.isString_literal, Bool.and_self, if_true, hend.moduleEnd, hsource.moduleName]
  rfl

/-- An export of a list of this module. -/
theorem listExport_none {entries : List ListEntry} {comma : Bool} (ho : o.Nested) (i : Nat)
    (hlegal : ∀ e ∈ entries, e.Legal) (h : o.Carries j (braces entries comma))
    (hend : o.Finishes (j + (braces entries comma).length) semicolon) :
    ∃ span references, o.listExport i typeOnly j =
      .ok ({ kind := .exporting, span, typeOnly,
             bindings := exportedBindings typeOnly entries, references },
        behind (j + (braces entries comma).length) semicolon) := by
  obtain ⟨⟨specs, hspecs, hall⟩, hafter⟩ := h.specifierList ho hlegal
  rw [listExport, hspecs, hafter]
  simp only [map_eq_of_forall₂ hall fun e s hes => exportedBinding_eq hes typeOnly, hend.noFrom,
    hend.mark, Bool.false_and, Bool.false_eq_true, if_false]
  exact ⟨_, _, rfl⟩

/-- The word `export` and what follows it. -/
theorem exporting_star (h : o.Carries (i + 1) (typeWord typeOnly ++ .mark '*' :: lexemes)) :
    o.exporting i = o.starExport i typeOnly (i + 1 + (typeWord typeOnly).length) := by
  have hat : o.At (i + 1 + (typeWord typeOnly).length) (.mark '*') := h.right.1
  have hstar : o.is (i + 1 + (typeWord typeOnly).length) "*" = true := hat.is_eq
  obtain ⟨htypes, hj⟩ := exportsTypes_eq h rfl hat.is_eq
    (by rw [hstar, Bool.or_true])
  rw [exporting, htypes]
  simp only [hj, hstar, if_true]

theorem exporting_list {entries : List ListEntry} {comma : Bool}
    (h : o.Carries (i + 1) (typeWord typeOnly ++ (braces entries comma ++ lexemes))) :
    o.exporting i = o.listExport i typeOnly (i + 1 + (typeWord typeOnly).length) := by
  have hat : o.At (i + 1 + (typeWord typeOnly).length) (.mark '\x7b') := h.right.1
  have hbrace : o.is (i + 1 + (typeWord typeOnly).length) "\x7b" = true :=
    hat.is_eq
  have hstar : o.is (i + 1 + (typeWord typeOnly).length) "*" = false := hat.is_eq
  obtain ⟨htypes, hj⟩ := exportsTypes_eq h rfl hat.is_eq
    (by rw [hbrace, Bool.true_or])
  rw [exporting, htypes]
  simp only [hj, hstar, hbrace, Bool.false_eq_true, if_false, if_true]

/-! ### Statements -/

/-- The statement at an index is the clause, and ends with it. -/
def ReadsAs (o : Outline) (i : Nat) (c : Clause) : Prop :=
  ∃ s, o.statement i = .ok ([s], behind (i + c.form.lexemes.length) c.semicolon) ∧ c.Node s

/-- The word `import` begins an import, unless a bracket or dot follows. -/
theorem statement_of_import (h : o.At i (.keyword "import")) (hparen : o.is (i + 1) "(" = false)
    (hdot : o.is (i + 1) "." = false) :
    o.statement i = (o.importing i).map fun read => ([read.1], read.2) := by
  have himport : o.is i "import" = true := h.is_eq
  rw [statement, himport, hparen, hdot]
  show (o.importing i >>= _) = _
  cases o.importing i <;> rfl

theorem statement_importing {s : Statement} {stop : Nat} (ho : o.Clausal)
    (h : o.At i (.keyword "import")) (hread : o.importing i = .ok (s, stop)) :
    o.statement i = .ok ([s], stop) := by
  rw [statement_of_import h (ho.is_foreign (i + 1) "(" (by decide))
    (ho.is_foreign (i + 1) "." (by decide)), hread]
  rfl

theorem statement_exporting {s : Statement} {stop : Nat} (ho : o.Clausal)
    (h : o.At i (.keyword "export")) (hread : o.exporting i = .ok (s, stop)) :
    o.statement i = .ok ([s], stop) := by
  have himport : o.is i "import" = false := h.is_eq
  have hexport : o.is i "export" = true := h.is_eq
  rw [statement, himport, hexport, hread]
  show Except.ok (s :: o.debuggers i stop, stop) = _
  rw [ho.debuggers_eq_nil]

theorem readsAs_effect (ho : o.Clausal) (h : o.Carries i (Form.effect source).lexemes)
    (hend : o.Finishes (i + (Form.effect source).lexemes.length) semicolon) :
    o.ReadsAs i ⟨.effect source, semicolon⟩ := by
  obtain ⟨hhead, hsource, -⟩ := h
  obtain ⟨span, hread⟩ := importing_effect hsource
  rw [show o.moduleEnd (i + 2) = _ from hend.moduleEnd] at hread
  exact ⟨_, statement_importing ho hhead hread, rfl, fun _ => rfl, fun _ => rfl, rfl, rfl⟩

theorem readsAs_single {name : Identifier} (ho : o.Clausal)
    (hlegal : (Form.single typeOnly name source).Legal)
    (h : o.Carries i (Form.single typeOnly name source).lexemes)
    (hend : o.Finishes (i + (Form.single typeOnly name source).lexemes.length) semicolon) :
    o.ReadsAs i ⟨.single typeOnly name source, semicolon⟩ := by
  obtain ⟨hhead, htail⟩ := h
  have hrest := htail.right
  have hat := hrest.1
  have hlength : i + (Form.single typeOnly name source).lexemes.length =
      i + 1 + (typeWord typeOnly).length + 1 + 2 := by
    simp only [Form.lexemes, origin, List.length_cons, List.length_append, List.length_nil]
    omega
  rw [hlength] at hend
  have hname := isOuterName_of_isFreeName hlegal.1
  obtain ⟨htypes, hj⟩ := importsTypes_eq htail rfl (hat.is_name hname (by decide)) (by
    rw [hat.isWord, hat.is_name hname (by decide)]
    rfl)
  obtain ⟨span, hread⟩ := importing_names htypes hj (by rw [hat.isString]; rfl)
    (by rw [ho.is_foreign _ "=" (by decide), Bool.and_false])
    (importClause_single (not_mem_reserved hlegal.1) hrest) hrest.2.2.1
  rw [hend.moduleEnd] at hread
  have hstatement := statement_importing ho hhead hread
  rw [← hlength] at hstatement
  exact ⟨_, hstatement, rfl, fun _ => rfl, fun _ => rfl, rfl, rfl⟩

/-- What a group imports is what it binds. -/
theorem groupBindings_map (typeOnly : Bool) (group : Group) (source : Bytes) (offset : UInt32) :
    (groupBindings typeOnly group).map
        (fun b => ⟨source, b.outer, b.inner, b.span.shifted offset, b.typeOnly⟩) =
      group.imports offset source typeOnly := by
  cases group with
  | all name => rfl
  | list entries comma =>
    rw [groupBindings, List.map_map]
    rfl

/-- An import of a group is its clause, with or without a default before it. -/
theorem node_grouped (first : Option Identifier) (group : Group) (span : Span) :
    Clause.Node ⟨.grouped typeOnly first group source, semicolon⟩
      { kind := .importing, span, source := some source.source, typeOnly,
        bindings := first.toList.map (defaultBinding typeOnly) ++
          groupBindings typeOnly group } := by
  refine ⟨rfl, fun _ => rfl, fun offset => ?_, rfl, rfl⟩
  show List.map _ (_ ++ _) = _
  rw [List.map_append, groupBindings_map, List.map_map]
  rfl

theorem readsAs_grouped {first : Option Identifier} {group : Group} (ho : o.Clausal)
    (hlegal : (Form.grouped typeOnly first group source).Legal)
    (h : o.Carries i (Form.grouped typeOnly first group source).lexemes)
    (hend : o.Finishes (i + (Form.grouped typeOnly first group source).lexemes.length) semicolon) :
    o.ReadsAs i ⟨.grouped typeOnly first group source, semicolon⟩ := by
  obtain ⟨hfirst, hgroup, -⟩ := hlegal
  cases first with
  | none =>
    obtain ⟨hhead, htail⟩ := h
    have hrest := htail.right
    have hlength : i + (Form.grouped typeOnly none group source).lexemes.length =
        i + 1 + (typeWord typeOnly).length + group.lexemes.length + 2 := by
      simp only [Form.lexemes, origin, List.length_cons, List.length_append, List.length_nil]
      omega
    rw [hlength] at hend
    obtain ⟨hbind, hstring, htype, hopen⟩ := hrest.groupHead
    obtain ⟨htypes, hj⟩ := importsTypes_eq htail rfl htype
      (by rw [Bool.or_assoc, hopen, Bool.or_true])
    have hnamed := @namedClause_group o _ _ typeOnly _ ho.nested hgroup hrest
    have hclause := importClause_group hbind hnamed hrest.right
    obtain ⟨span, hread⟩ := importing_names htypes hj hstring (by rw [hbind, Bool.false_and])
      hclause hrest.right.2.1
    rw [hend.moduleEnd] at hread
    refine ⟨_, ?_, node_grouped none group span⟩
    rw [hlength]
    exact statement_importing ho hhead hread
  | some name =>
    obtain ⟨hhead, htail⟩ := h
    have hrest := htail.right
    have hat := hrest.1
    have hlength : i + (Form.grouped typeOnly (some name) group source).lexemes.length =
        i + 1 + (typeWord typeOnly).length + 2 + group.lexemes.length + 2 := by
      simp only [Form.lexemes, origin, List.length_cons, List.length_append, List.length_nil]
      omega
    rw [hlength] at hend
    have hfree := hfirst name rfl
    have hname := isOuterName_of_isFreeName hfree
    obtain ⟨htypes, hj⟩ := importsTypes_eq htail rfl (hat.is_name hname (by decide)) (by
      rw [hat.isWord, hat.is_name hname (by decide)]
      rfl)
    have hnamed := @namedClause_group o _ _ typeOnly _ ho.nested hgroup hrest.2.2
    have hclause := importClause_both (not_mem_reserved hfree) hat hrest.2.1 hnamed
      hrest.2.2.right
    obtain ⟨span, hread⟩ := importing_names htypes hj (by rw [hat.isString]; rfl)
      (by rw [ho.is_foreign _ "=" (by decide), Bool.and_false]) hclause hrest.2.2.right.2.1
    rw [hend.moduleEnd] at hread
    refine ⟨_, ?_, node_grouped (some name) group span⟩
    rw [hlength]
    exact statement_importing ho hhead hread

/-- A name of another module does not stand for everything. -/
theorem isStar_eq_false {inner name : Bytes} {span : Span} (h : isOuterName name = true) :
    Interface.isStar ⟨inner, name, span, typeOnly⟩ = false := by
  have hne : name ≠ "*" := by
    rintro rfl
    exact absurd h (by decide)
  simp [Interface.isStar, hne]

theorem node_star {name : Option Identifier} (hlegal : ∀ n ∈ name, isOuterName n.name = true)
    (span star : Span) :
    Clause.Node ⟨.star typeOnly name source, semicolon⟩
      { kind := .exporting, span, source := some source.source, typeOnly,
        bindings := [starBinding typeOnly star name] } := by
  refine ⟨rfl, fun _ => rfl, fun _ => rfl, ?_, ?_⟩
  all_goals cases name with
  | none => rfl
  | some name =>
    simp [Interface.exportsOf, starBinding, isStar_eq_false (hlegal name rfl), Clause.exports,
      Clause.exportsAll]

theorem readsAs_star {name : Option Identifier} (ho : o.Clausal)
    (hlegal : (Form.star typeOnly name source).Legal)
    (h : o.Carries i (Form.star typeOnly name source).lexemes)
    (hend : o.Finishes (i + (Form.star typeOnly name source).lexemes.length) semicolon) :
    o.ReadsAs i ⟨.star typeOnly name source, semicolon⟩ := by
  obtain ⟨hhead, htail⟩ := h
  have hlength : i + (Form.star typeOnly name source).lexemes.length =
      i + 1 + (typeWord typeOnly).length + 1 + (aliased name).length + 2 := by
    simp only [Form.lexemes, origin, List.length_cons, List.length_append, List.length_nil]
    omega
  rw [hlength] at hend
  obtain ⟨span, star, hread⟩ := starExport_eq i htail.right hend
  refine ⟨_, ?_, node_star hlegal.1 span star⟩
  rw [hlength]
  exact statement_exporting ho hhead ((exporting_star htail).trans hread)

theorem node_list {entries : List ListEntry} (hlegal : ∀ e ∈ entries, e.Legal) (comma : Bool)
    (source : Option Literal) (span : Span) (references : List Identifier) :
    Clause.Node ⟨.list typeOnly entries comma source, semicolon⟩
      { kind := .exporting, span, source := source.map Literal.source, typeOnly,
        bindings := exportedBindings typeOnly entries, references } := by
  have hstar : ∀ b ∈ exportedBindings typeOnly entries, Interface.isStar b = false := by
    intro b hb
    obtain ⟨e, he, rfl⟩ := List.mem_map.mp hb
    obtain ⟨hname, hrenamed⟩ := hlegal e he
    refine isStar_eq_false ?_
    cases hr : e.renamed with
    | none => simpa [ListEntry.inner, hr] using hname
    | some renamed => simpa [ListEntry.inner, hr] using hrenamed renamed hr
  refine ⟨rfl, fun _ => by cases source <;> rfl, fun _ => rfl, ?_, ?_⟩
  · show ((exportedBindings typeOnly entries).filter _).map _ = _
    rw [List.filter_eq_self.mpr fun b hb => by rw [hstar b hb]; rfl, exportedBindings, List.map_map]
    rfl
  · show (exportedBindings typeOnly entries).any _ = _
    rw [List.any_eq_false.mpr fun b hb => by rw [hstar b hb]; exact Bool.false_ne_true]
    rfl

theorem readsAs_list {entries : List ListEntry} {comma : Bool} {source : Option Literal}
    (ho : o.Clausal) (hlegal : (Form.list typeOnly entries comma source).Legal)
    (h : o.Carries i (Form.list typeOnly entries comma source).lexemes)
    (hend : o.Finishes (i + (Form.list typeOnly entries comma source).lexemes.length) semicolon) :
    o.ReadsAs i ⟨.list typeOnly entries comma source, semicolon⟩ := by
  obtain ⟨hentries, -⟩ := hlegal
  cases source with
  | none =>
    obtain ⟨hhead, htail⟩ := h
    have hlength : i + (Form.list typeOnly entries comma none).lexemes.length =
        i + 1 + (typeWord typeOnly).length + (braces entries comma).length := by
      simp only [Form.lexemes, List.length_cons, List.length_append]
      omega
    rw [hlength] at hend
    obtain ⟨span, references, hread⟩ := listExport_none ho.nested i hentries htail.right hend
    -- nothing follows the braces that belongs to the clause
    rw [← List.append_nil (braces entries comma)] at htail
    refine ⟨_, ?_, node_list hentries comma none span references⟩
    rw [hlength]
    exact statement_exporting ho hhead ((exporting_list htail).trans hread)
  | some source =>
    obtain ⟨hhead, htail⟩ := h
    have hlength : i + (Form.list typeOnly entries comma (some source)).lexemes.length =
        i + 1 + (typeWord typeOnly).length + (braces entries comma).length + 2 := by
      simp only [Form.lexemes, origin, List.length_cons, List.length_append, List.length_nil]
      omega
    rw [hlength] at hend
    obtain ⟨span, hread⟩ := listExport_source ho.nested i hentries htail.right hend
    refine ⟨_, ?_, node_list hentries comma (some source) span []⟩
    rw [hlength]
    exact statement_exporting ho hhead ((exporting_list htail).trans hread)

/-- **The statement at a clause** is the clause, and ends where the clause does. -/
theorem statement_clause {c : Clause} (ho : o.Clausal) (hlegal : c.form.Legal)
    (h : o.Carries i c.form.lexemes) (hend : o.Finishes (i + c.form.lexemes.length) c.semicolon) :
    ∃ s, o.statement i = .ok ([s], behind (i + c.form.lexemes.length) c.semicolon) ∧ c.Node s := by
  obtain ⟨form, semicolon⟩ := c
  cases form with
  | effect source => exact readsAs_effect ho h hend
  | single typeOnly name source => exact readsAs_single ho hlegal h hend
  | grouped typeOnly first group source => exact readsAs_grouped ho hlegal h hend
  | star typeOnly name source => exact readsAs_star ho hlegal h hend
  | list typeOnly entries comma source => exact readsAs_list ho hlegal h hend

end Outline

end ScriptLint
