/-
No guard fails.

In an outline with nested brackets every look-up of the guarded readers succeeds and every
jump goes forward, so nothing that reads statements relies on a default, and the loop over
the statements ends:

* **`Outline.Guarded.statement_eq`** — the guarded reader of a statement finds what the plain
  one finds;
* **`Outline.guarded_body`** — so does the guarded loop.
-/
import ScriptLint.Proofs.Guarded
import ScriptLint.Proofs.Landing

namespace ScriptLint

namespace Outline

variable {o : Outline} {i j k start stop : Nat}

namespace Guarded

/-! ### Look-ups and ends -/

theorem token_eq (hi : i < o.size) : token o i = some (o.token i) := by
  rw [token, Outline.token, Array.getElem?_eq_getElem hi, Option.getD_some]

theorem partner_eq (ho : o.Nested) (h : o.opens k = true) :
    partner o k = some ⟨o.partnerOf k, ho.lt_partnerOf h⟩ := by
  simp [partner, ho.partner_eq h, ho.lt_partnerOf h]

theorem afterGroup_eq (ho : o.Nested) (h : o.opens k = true) :
    afterGroup o k = some ⟨o.afterGroup k, o.lt_afterGroup k⟩ := by
  simp only [afterGroup, partner_eq ho h, Option.map_some, ho.afterGroup_eq h]

theorem identifier_eq (hi : i < o.size) : identifier o i = some (o.identifier i) := by
  rw [identifier, token_eq hi]
  rfl

theorem spanOf_eq (hi : i < o.size) (hstop : stop ≤ o.size) :
    spanOf o i stop = some (o.spanOf i stop) := by
  simp only [spanOf, Outline.spanOf, token_eq hi, Option.bind_eq_bind, Option.bind_some]
  split
  case isTrue => rfl
  case isFalse hlt => rw [token_eq (by omega), Option.bind_some]; rfl

/-- If every look-up succeeds, everything is collected. -/
theorem collect_eq {α : Type} {f : Nat → Option (List α)} {g : Nat → Option α} {l : List Nat}
    (h : ∀ i ∈ l, f i = some (g i).toList) : collect f l = some (l.filterMap g) := by
  induction l with
  | nil => rfl
  | cons i l ih =>
    obtain ⟨hi, hl⟩ := List.forall_mem_cons.mp h
    rw [collect, hi, ih hl, List.filterMap_cons]
    cases g i <;> rfl

theorem mem_indices : i ∈ indices start stop ↔ start ≤ i ∧ i < stop := by
  simp only [indices, List.mem_range'_1]
  omega

theorem references_eq (declared : List Identifier) (hstop : stop ≤ o.size) :
    references o declared start stop = some (o.references declared start stop) := by
  rw [references, Nat.min_eq_left hstop]
  refine collect_eq fun i hi => ?_
  rw [token_eq (by have := (mem_indices.mp hi).2; omega)]
  simp only [Option.bind_eq_bind, Option.bind_some]
  split <;> rfl

theorem debuggers_eq (hstop : stop ≤ o.size) :
    debuggers o start stop = some (o.debuggers start stop) := by
  rw [debuggers, Nat.min_eq_left hstop]
  refine collect_eq fun i hi => ?_
  have hi : i < o.size := by have := (mem_indices.mp hi).2; omega
  split
  case isTrue =>
    have hend : (if o.is (i + 1) ";" then i + 2 else i + 1) ≤ o.size := by
      split
      case isTrue hmark => exact lt_of_is hmark
      case isFalse => exact hi
    rw [spanOf_eq hi hend]
    rfl
  case isFalse => rfl

theorem breaksBefore_eq (hi : i < o.size) :
    breaksBefore o start i = some (decide (start < i) && o.breaksBefore i) := by
  rw [breaksBefore]
  split
  case isTrue hlt =>
    rw [token_eq hi, token_eq (by omega)]
    simp [hlt, Outline.breaksBefore]
  case isFalse hle => simp [hle]

theorem statementEndFrom_eq (ho : o.Nested) (start i : Nat) :
    statementEndFrom o start i = some (o.statementEndFrom start i) := by
  fun_induction Outline.statementEndFrom o start i with
  | case1 i hi hbreak => rw [statementEndFrom, if_pos hi, breaksBefore_eq hi, hbreak]
  | case2 i hi hbreak hopens ih =>
    rw [statementEndFrom, if_pos hi, breaksBefore_eq hi, Bool.eq_false_iff.mpr hbreak]
    simp only [hopens, if_true, afterGroup_eq ho hopens, ih]
  | case3 i hi hbreak hopens hmark =>
    rw [statementEndFrom, if_pos hi, breaksBefore_eq hi, Bool.eq_false_iff.mpr hbreak]
    simp [hopens, hmark]
  | case4 i hi hbreak hopens hmark hcloses =>
    rw [statementEndFrom, if_pos hi, breaksBefore_eq hi, Bool.eq_false_iff.mpr hbreak]
    simp [hopens, hmark, hcloses]
  | case5 i hi hbreak hopens hmark hcloses ih =>
    rw [statementEndFrom, if_pos hi, breaksBefore_eq hi, Bool.eq_false_iff.mpr hbreak]
    simp [hopens, hmark, hcloses, ih]
  | case6 i hi => rw [statementEndFrom, if_neg hi]

theorem functionEnd_eq (ho : o.Nested) (k : Nat) : functionEnd o k = some (o.functionEnd k) := by
  fun_induction Outline.functionEnd o k with
  | case1 k hk hbrace =>
    rw [functionEnd, if_pos hk, if_pos hbrace, afterGroup_eq ho (opens_of_brace hbrace)]
    rfl
  | case2 k hk hbrace hopens ih =>
    rw [functionEnd, if_pos hk, if_neg hbrace, if_pos hopens, afterGroup_eq ho hopens]
    exact ih
  | case3 k hk hbrace hopens hmark =>
    rw [functionEnd, if_pos hk, if_neg hbrace, if_neg hopens, if_pos hmark]
  | case4 k hk hbrace hopens hmark ih =>
    rw [functionEnd, if_pos hk, if_neg hbrace, if_neg hopens, if_neg hmark, ih]
  | case5 k hk => rw [functionEnd, if_neg hk]

theorem classEnd_eq (ho : o.Nested) (k : Nat) : classEnd o k = some (o.classEnd k) := by
  fun_induction Outline.classEnd o k with
  | case1 k hk hbody =>
    rw [classEnd, if_pos hk, if_pos hbody, afterGroup_eq ho (opens_of_opensClassBody hbody)]
    rfl
  | case2 k hk hbody hopens ih =>
    rw [classEnd, if_pos hk, if_neg hbody, if_pos hopens, afterGroup_eq ho hopens]
    exact ih
  | case3 k hk hbody hopens ih => rw [classEnd, if_pos hk, if_neg hbody, if_neg hopens, ih]
  | case4 k hk => rw [classEnd, if_neg hk]

/-! ### No guard fails in a declaration -/

theorem patternNames_eq (ho : o.Nested) (h : o.opens k = true) :
    patternNames o k = some (o.patternNames k) := by
  simp only [patternNames, partner_eq ho h, Option.bind_eq_bind, Option.bind_some]
  refine collect_eq fun i hi => ?_
  have hi : i < o.size := by
    have := (mem_indices.mp hi).2
    have := lt_of_closes (ho.closes_partnerOf h)
    omega
  split
  case isTrue => rw [identifier_eq hi]; rfl
  case isFalse => rfl

theorem opens_of_pattern (h : o.is k "\x7b" = true ∨ o.is k "[" = true) : o.opens k = true := by
  rcases h with h | h
  · exact opens_of_brace h
  · exact opens_iff.mpr ⟨_, by decide, h⟩

theorem variableNames_eq (ho : o.Nested) (hstop : stop ≤ o.size) (k : Nat) (expecting : Bool) :
    variableNames o stop k expecting = some (o.variableNames stop k expecting) := by
  fun_induction Outline.variableNames o stop k expecting with
  | case1 k expecting hk hname ih =>
    rw [variableNames, if_pos hk, if_pos hname, identifier_eq (by omega), ih]
    rfl
  | case2 k expecting hk hname hpattern ih =>
    have hopens := hpattern
    simp only [Bool.and_eq_true, Bool.or_eq_true] at hopens
    have hopens := opens_of_pattern hopens.2
    rw [variableNames, if_pos hk, if_neg hname, if_pos hpattern, afterGroup_eq ho hopens,
      patternNames_eq ho hopens]
    simp only [ih, Option.bind_eq_bind, Option.bind_some]
    rfl
  | case3 k expecting hk hname hpattern hopens ih =>
    rw [variableNames, if_pos hk, if_neg hname, if_neg hpattern, if_pos hopens,
      afterGroup_eq ho hopens]
    exact ih
  | case4 k expecting hk hname hpattern hopens ih =>
    rw [variableNames, if_pos hk, if_neg hname, if_neg hpattern, if_neg hopens, ih]
  | case5 k expecting hk => rw [variableNames, if_neg hk]

theorem nameAt_eq (j : Nat) : nameAt o j = some (o.nameAt j) := by
  rw [nameAt, Outline.nameAt]
  split
  case isTrue hname =>
    rw [identifier_eq (lt_of_isWord (isWord_of_isBindable hname))]
    rfl
  case isFalse => rfl

theorem functionEnd_le (ho : o.Nested) (k : Nat) : o.functionEnd k ≤ o.size := by
  fun_induction Outline.functionEnd o k with
  | case1 k hk hbrace => exact ho.afterGroup_le (opens_of_brace hbrace)
  | case3 k hk => exact hk
  | _ => omega

theorem classEnd_le (ho : o.Nested) (k : Nat) : o.classEnd k ≤ o.size := by
  fun_induction Outline.classEnd o k with
  | case1 k hk hbody => exact ho.afterGroup_le (opens_of_opensClassBody hbody)
  | _ => omega

theorem functionDeclaration_eq (ho : o.Nested) (i : Nat) :
    functionDeclaration o i = some (o.functionDeclaration i) := by
  simp only [functionDeclaration, nameAt_eq, functionEnd_eq ho,
    references_eq _ (functionEnd_le ho _), Option.bind_eq_bind, Option.bind_some]
  rfl

theorem classDeclaration_eq (ho : o.Nested) (i : Nat) :
    classDeclaration o i = some (o.classDeclaration i) := by
  simp only [classDeclaration, nameAt_eq, classEnd_eq ho, references_eq _ (classEnd_le ho _),
    Option.bind_eq_bind, Option.bind_some]
  rfl

theorem variableDeclaration_eq (ho : o.Nested) (i : Nat) :
    variableDeclaration o i = some (o.variableDeclaration i) := by
  have hstop := o.statementEndFrom_le i i
  simp only [variableDeclaration, statementEndFrom_eq ho, variableNames_eq ho hstop,
    references_eq _ hstop, Option.bind_eq_bind, Option.bind_some]
  rfl

theorem declaration_eq (ho : o.Nested) (i : Nat) : declaration o i = some (o.declaration? i) := by
  have hasync : beginsAsync o i =
      some (o.is i "async" && o.is (i + 1) "function" && !(o.token (i + 1)).onNewLine) := by
    rw [beginsAsync]
    split
    case isTrue h =>
      rw [h, token_eq (lt_of_is (Bool.and_eq_true_iff.mp h).2)]
      rfl
    case isFalse h => rw [Bool.eq_false_iff.mpr h, Bool.false_and]
  rw [declaration, declaration?, hasync, functionDeclaration_eq ho, classDeclaration_eq ho,
    variableDeclaration_eq ho]
  simp only [Option.bind_eq_bind, Option.bind_some, Option.pure_def]
  split
  · rfl
  split
  · rfl
  split <;> rfl

/-! ### No guard fails in an import or export -/

theorem moduleEnd_eq (ho : o.Nested) (j : Nat) : moduleEnd o j = some (o.moduleEnd j) := by
  rw [moduleEnd, Outline.moduleEnd]
  by_cases hattributes : ((o.is j "with" || o.is j "assert") && o.is (j + 1) "\x7b") = true
  · have hword := hattributes
    simp only [Bool.and_eq_true, Bool.or_eq_true] at hword
    have hj : j < o.size := by rcases hword.1 with h | h <;> exact lt_of_is h
    rw [if_pos hattributes, token_eq hj, afterGroup_eq ho (opens_of_brace hword.2)]
    cases hline : (o.token j).onNewLine <;> simp [hline, hattributes]
  · simp [hattributes]

theorem moduleEnd_le (ho : o.Nested) (hj : j ≤ o.size) : o.moduleEnd j ≤ o.size := by
  have hsemicolon {k : Nat} (hk : k ≤ o.size) : (if o.is k ";" then k + 1 else k) ≤ o.size := by
    split
    case isTrue hmark => exact lt_of_is hmark
    case isFalse => exact hk
  unfold Outline.moduleEnd
  refine hsemicolon ?_
  split
  case isTrue hattributes =>
    simp only [Bool.and_eq_true] at hattributes
    exact ho.afterGroup_le (opens_of_brace hattributes.1.2)
  case isFalse => exact hj

theorem moduleName_eq (hj : o.isString j = true) : moduleName o j = some (o.moduleName j) := by
  rw [moduleName, token_eq (lt_of_isString hj)]
  rfl

/-- The entry of a specifier list names tokens of the outline. -/
def Names (o : Outline) (s : Specifier) : Prop :=
  s.name < o.size ∧ ∀ renamed ∈ s.renamed, renamed < o.size

theorem specifiers_eq {bind : Specifier → Option Binding} {f : Specifier → Binding}
    (hbind : ∀ s, Names o s → bind s = some (f s)) (close k : Nat) :
    specifiers o bind close k = some ((o.specifiers close k).map (List.map f)) := by
  induction hn : close - k using Nat.strongRecOn generalizing k with
  | _ n ih =>
    rw [specifiers, Outline.specifiers]
    by_cases hk : k < close
    case neg => simp [hk]
    rw [if_pos hk, if_pos hk]
    by_cases hcomma : o.is k "," = true
    · rw [if_pos hcomma, if_pos hcomma]
      exact ih _ (by omega) _ rfl
    rw [if_neg hcomma, if_neg hcomma]
    simp only
    -- of the choices made for an entry only the indices they lead to matter
    generalize (o.is k "type" && o.isSpelled (k + 1) && !o.is (k + 1) "as") = typeOnly
    have hname : k ≤ if typeOnly then k + 1 else k := by split <;> omega
    generalize (if typeOnly then k + 1 else k) = name at hname ⊢
    by_cases hspelled : o.isSpelled name = true
    case neg => simp [hspelled]
    by_cases hrenamed : (o.is (name + 1) "as" && !o.isSpelled (name + 2)) = true
    · simp [hspelled, hrenamed]
    have hnext : name < if o.is (name + 1) "as" then name + 3 else name + 1 := by split <;> omega
    have hentry : Names o ⟨name, if o.is (name + 1) "as" then some (name + 2) else none,
        typeOnly⟩ := by
      refine ⟨lt_of_isSpelled hspelled, fun renamed hmem => ?_⟩
      split at hmem
      case isTrue has =>
        obtain rfl := Option.some.inj hmem
        exact lt_of_isSpelled (by simpa [has] using hrenamed)
      case isFalse => cases hmem
    generalize (if o.is (name + 1) "as" then name + 3 else name + 1) = next at hnext ⊢
    by_cases hend : (decide (next < close) && !o.is next ",") = true
    · simp [hspelled, hrenamed, hend]
    -- the entry is bound, and the list goes on
    simp only [hspelled, hrenamed, hend, hbind _ hentry, ih _ (by omega) next rfl,
      Option.bind_eq_bind, Option.bind_some]
    cases o.specifiers close next <;> rfl

theorem specifierList_eq {bind : Specifier → Option Binding} {f : Specifier → Binding}
    (ho : o.Nested) (hbind : ∀ s, Names o s → bind s = some (f s))
    (hbrace : o.is j "\x7b" = true) :
    specifierList o bind j = some ((o.specifierList j).map (List.map f)) := by
  rw [specifierList, partner_eq ho (opens_of_brace hbrace)]
  exact specifiers_eq hbind _ _

theorem renamed_lt {s : Specifier} (hs : Names o s) : s.renamed.getD s.name < o.size := by
  cases hrenamed : s.renamed with
  | none => exact hs.1
  | some renamed => exact hs.2 renamed hrenamed

theorem importedBinding_eq (typeOnly : Bool) {s : Specifier} (hs : Names o s) :
    importedBinding o typeOnly s = some (o.importedBinding typeOnly s) := by
  rw [importedBinding, token_eq (renamed_lt hs), token_eq hs.1]
  rfl

theorem exportedBinding_eq (typeOnly : Bool) {s : Specifier} (hs : Names o s) :
    exportedBinding o typeOnly s = some (o.exportedBinding typeOnly s) := by
  rw [exportedBinding, token_eq (renamed_lt hs), token_eq hs.1]
  rfl

theorem defaultClause_eq (typeOnly : Bool) (j : Nat) :
    defaultClause o typeOnly j = some (o.defaultClause typeOnly j) := by
  rw [defaultClause, Outline.defaultClause]
  split
  case isTrue hname =>
    rw [token_eq (lt_of_isWord (isWord_of_isBindable hname))]
    rfl
  case isFalse => rfl

theorem namedClause_eq (ho : o.Nested) (typeOnly : Bool) (j : Nat) :
    namedClause o typeOnly j = some (o.namedClause typeOnly j) := by
  rw [namedClause, Outline.namedClause]
  split
  case isTrue hstar =>
    split
    case isTrue hname =>
      rw [token_eq (lt_of_isWord (isWord_of_isBindable (Bool.and_eq_true_iff.mp hname).2))]
      rfl
    case isFalse => rfl
  case isFalse =>
    split
    case isTrue hbrace =>
      rw [specifierList_eq ho (fun s hs => importedBinding_eq typeOnly hs) hbrace,
        afterGroup_eq ho (opens_of_brace hbrace)]
      cases o.specifierList j <;> rfl
    case isFalse => rfl

theorem importClause_eq (ho : o.Nested) (typeOnly : Bool) (j : Nat) :
    importClause o typeOnly j = some (o.importClause typeOnly j) := by
  rw [importClause, Outline.importClause, defaultClause_eq]
  cases o.defaultClause typeOnly j with
  | error => rfl
  | ok first =>
    simp only [Option.bind_eq_bind, Option.bind_some, namedClause_eq ho]
    cases hnamed : o.namedClause typeOnly first.2 with
    | error => simp only [Except.bind, bind]; rw [hnamed]; rfl
    | ok others =>
      simp only [Except.bind, bind]
      rw [hnamed]
      simp only
      split <;> rfl

theorem importing_eq (ho : o.Nested) (hi : i < o.size) :
    importing o i = some (o.importing i) := by
  simp only [importing, Outline.importing]
  generalize (if o.importsTypes (i + 1) then i + 2 else i + 1) = j
  split
  case isTrue hstring =>
    have hstop := moduleEnd_le ho (lt_of_isString hstring)
    rw [moduleEnd_eq ho, Option.bind_eq_bind, Option.bind_some, spanOf_eq hi hstop,
      moduleName_eq hstring]
    rfl
  case isFalse =>
    split
    case isTrue hequals =>
      have hj := lt_of_isWord (isWord_of_isBindable (Bool.and_eq_true_iff.mp hequals).1)
      have hstop := o.statementEndFrom_le j j
      rw [statementEndFrom_eq ho, Option.bind_eq_bind, Option.bind_some, identifier_eq hj,
        spanOf_eq hi hstop]
      simp only [Option.bind_eq_bind, Option.bind_some, references_eq _ hstop]
      rfl
    case isFalse =>
      rw [importClause_eq ho]
      cases hclause : o.importClause (o.importsTypes (i + 1)) j with
      | error j =>
        -- the place of the fault is cut off at the end of the tokens
        simp only [Option.bind_eq_bind, Option.bind_some, spanOf_eq hi (Nat.min_le_right _ _)]
        rfl
      | ok clause =>
        have hstring := isString_of_importClause hclause
        have hstop := moduleEnd_le ho (lt_of_isString hstring)
        simp only [Option.bind_eq_bind, Option.bind_some, moduleEnd_eq ho, spanOf_eq hi hstop,
          moduleName_eq hstring]
        rfl

theorem starExport_eq (ho : o.Nested) (hi : i < o.size) (typeOnly : Bool)
    (hstar : o.is j "*" = true) : starExport o i typeOnly j = some (o.starExport i typeOnly j) := by
  have hname : (if o.is (j + 1) "as" && o.isSpelled (j + 2) then j + 2 else j) < o.size := by
    split
    case isTrue h => exact lt_of_isSpelled (Bool.and_eq_true_iff.mp h).2
    case isFalse => exact lt_of_is hstar
  simp only [starExport, Outline.starExport, token_eq hname, Option.bind_eq_bind,
    Option.bind_some]
  cases o.is (j + 1) "as" && o.isSpelled (j + 2) <;>
  · simp only [if_true, Bool.false_eq_true, if_false]
    split
    case isTrue hfrom =>
      have hstring := (Bool.and_eq_true_iff.mp hfrom).2
      have hstop := moduleEnd_le ho (lt_of_isString hstring)
      simp only [moduleEnd_eq ho, spanOf_eq hi hstop, moduleName_eq hstring, Option.bind_some]
      rfl
    case isFalse =>
      rw [spanOf_eq hi (Nat.min_le_right _ _)]
      rfl

theorem listExport_eq (ho : o.Nested) (hi : i < o.size) (typeOnly : Bool)
    (hbrace : o.is j "\x7b" = true) :
    listExport o i typeOnly j = some (o.listExport i typeOnly j) := by
  have hopens := opens_of_brace hbrace
  have hgroup := ho.afterGroup_le hopens
  rw [listExport, Outline.listExport,
    specifierList_eq ho (fun s hs => exportedBinding_eq typeOnly hs) hbrace]
  cases o.specifierList j with
  | none =>
    simp only [Option.bind_eq_bind, Option.bind_some, Option.map_none, afterGroup_eq ho hopens,
      spanOf_eq hi hgroup]
    rfl
  | some entries =>
    simp only [Option.bind_eq_bind, Option.bind_some, Option.map_some, afterGroup_eq ho hopens]
    split
    case isTrue hfrom =>
      have hstring := (Bool.and_eq_true_iff.mp hfrom).2
      have hstop := moduleEnd_le ho (lt_of_isString hstring)
      simp only [moduleEnd_eq ho, spanOf_eq hi hstop, moduleName_eq hstring, Option.bind_some]
      rfl
    case isFalse =>
      have hstop : (if o.is (o.afterGroup j) ";" then o.afterGroup j + 1 else o.afterGroup j) ≤
          o.size := by
        split
        case isTrue hmark => exact lt_of_is hmark
        case isFalse => exact hgroup
      rw [spanOf_eq hi hstop]
      rfl

theorem declaration_le (ho : o.Nested) {d : Declaration} (h : o.declaration? i = some d) :
    d.stop ≤ o.size := by
  unfold declaration? at h
  split at h
  · obtain rfl := Option.some.inj h
    exact functionEnd_le ho _
  split at h
  · obtain rfl := Option.some.inj h
    exact classEnd_le ho _
  split at h
  · obtain rfl := Option.some.inj h
    exact o.statementEndFrom_le i i
  · cases h

theorem defaultExport_eq (ho : o.Nested) (hi : i < o.size) (hdefault : o.is j "default" = true) :
    defaultExport o i j = some (o.defaultExport i j) := by
  have hstop := o.statementEndFrom_le (j + 1) (j + 1)
  rw [defaultExport, Outline.defaultExport, declaration_eq ho]
  simp only [Option.bind_eq_bind, Option.bind_some, token_eq (lt_of_is hdefault)]
  cases hd : (o.declaration? (j + 1)).filter fun d => d.kind != .variable with
  | none =>
    simp only [statementEndFrom_eq ho, references_eq _ hstop, Option.bind_some, Option.pure_def,
      spanOf_eq hi hstop]
    rfl
  | some d =>
    have hstop := declaration_le ho (Option.filter_eq_some_iff.mp hd).1
    simp only [Option.pure_def, Option.bind_some, spanOf_eq hi hstop]

theorem declaredExport_eq {d : Declaration} (ho : o.Nested) (hi : i < o.size)
    (hd : o.declaration? j = some d) : declaredExport o i d = some (o.declaredExport i d) := by
  rw [declaredExport, spanOf_eq hi (declaration_le ho hd)]
  rfl

theorem typeExport_eq (ho : o.Nested) (hi : i < o.size) :
    typeExport o i j = some (o.typeExport i j) := by
  have hstop := o.statementEndFrom_le j j
  rw [typeExport, Outline.typeExport]
  split
  case isTrue hname =>
    have hname := lt_of_isWord (isWord_of_isBindable (Bool.and_eq_true_iff.mp hname).2)
    simp only [identifier_eq hname, statementEndFrom_eq ho, references_eq _ hstop,
      spanOf_eq hi hstop, Option.bind_eq_bind, Option.bind_some, Option.pure_def]
    rfl
  case isFalse =>
    simp only [statementEndFrom_eq ho, references_eq _ hstop, spanOf_eq hi hstop,
      Option.bind_eq_bind, Option.bind_some, Option.pure_def]
    rfl

theorem exporting_eq (ho : o.Nested) (hi : i < o.size) :
    exporting o i = some (o.exporting i) := by
  simp only [exporting, Outline.exporting]
  generalize (o.is (i + 1) "type" && (o.is (i + 2) "\x7b" || o.is (i + 2) "*")) = typeOnly
  generalize (if typeOnly then i + 2 else i + 1) = j
  split
  case isTrue hstar => exact starExport_eq ho hi typeOnly hstar
  case isFalse =>
    split
    case isTrue hbrace => exact listExport_eq ho hi typeOnly hbrace
    case isFalse =>
      split
      case isTrue hdefault => rw [defaultExport_eq ho hi hdefault, Option.map_some]
      case isFalse =>
        rw [declaration_eq ho, Option.bind_eq_bind, Option.bind_some]
        cases hd : o.declaration? j with
        | none => simp only [typeExport_eq ho hi, Option.map_some]
        | some d => simp only [declaredExport_eq ho hi hd, Option.map_some]

/-! ### No guard fails in the loop -/

theorem plain_eq (ho : o.Nested) (hi : i < o.size) : plain o i = some (o.plain i) := by
  rw [plain, Outline.plain, declaration_eq ho, Option.bind_eq_bind, Option.bind_some]
  cases hd : o.declaration? i with
  | none =>
    have hstop := o.statementEndFrom_le i i
    simp only [statementEndFrom_eq ho, references_eq _ hstop, spanOf_eq hi hstop,
      Option.bind_eq_bind, Option.bind_some]
    rfl
  | some d =>
    simp only [spanOf_eq hi (declaration_le ho hd)]
    rfl

/-- **The guarded reader of a statement** finds what the plain one finds. -/
theorem statement_eq (ho : o.Regular) (h : o.AtTop i) (hi : i < o.size) :
    statement o i = some (o.statement i) := by
  unfold statement Outline.statement
  split
  case isTrue =>
    rw [importing_eq ho.nested hi]
    cases o.importing i <;> rfl
  case isFalse =>
    split
    case isTrue hexport =>
      rw [exporting_eq ho.nested hi, Option.bind_eq_bind, Option.bind_some]
      cases hs : o.exporting i with
      | error => rfl
      | ok read =>
        have hstop := (covers_exporting ho h hexport hs).top.le
        simp only [debuggers_eq hstop]
        rfl
    case isFalse =>
      split
      case isTrue =>
        have hstop := o.statementEndFrom_le i i
        simp only [statementEndFrom_eq ho.nested, spanOf_eq hi hstop, Option.bind_eq_bind,
          Option.bind_some]
        rfl
      case isFalse =>
        have hstop := (covers_plain ho h hi).top.le
        rw [plain_eq ho.nested hi, Option.bind_eq_bind, Option.bind_some]
        simp only [debuggers_eq hstop]
        rfl

theorem bodyFrom_eq (ho : o.Regular) (h : o.AtTop i) : bodyFrom o i = some (o.bodyFrom i) := by
  fun_induction Outline.bodyFrom o i with
  | case1 i hi hmark ih =>
    rw [bodyFrom, if_pos hi, if_pos hmark]
    exact ih (h.mark ho.nested hmark (by decide))
  | case2 i hi hmark ih =>
    rw [bodyFrom, if_pos hi, if_neg hmark, statement_eq ho h hi]
    cases hs : o.statement i with
    | error failure => rfl
    | ok read =>
      obtain ⟨s, lifted, _, hcovers, _⟩ := covers_statement ho h hi hs
      have hlt : i < read.2 := hcovers.reach
      have hnext := ih read.2
      rw [Nat.max_eq_left hcovers.reach] at hnext
      simp only [hlt, if_true, hnext hcovers.top]
      simp only [Option.bind_some, Except.bind, bind, pure, Nat.max_eq_left hcovers.reach]
      cases o.bodyFrom read.2 <;> rfl
  | case3 i hi => rw [bodyFrom, if_neg hi]

end Guarded

/-- **Reading an outline** ends, and needs no token and no partner that is not there. -/
theorem guarded_body (ho : o.Regular) : Guarded.body o = some o.body :=
  Guarded.bodyFrom_eq ho (.start o)

end Outline

end ScriptLint
