/-
Where statements end.

Each form of statement looks for its end in its own way: over names and marks, over groups
of brackets as a whole, up to a semicolon or a line break.  All of them leave off outside of
brackets if they began there, and behind their first token:

* **`Outline.AtTop`** — the index is outside of all brackets;
* **`Outline.Ends`** — a reader leaves off outside of brackets, and not between a `debugger`
  and its semicolon;
* **`Outline.covers_statement`** — every statement that begins outside of brackets ends so.
-/
import ScriptLint.Proofs.Outlines

namespace ScriptLint

namespace Outline

/-- The brackets are nested, and words look like words. -/
structure Regular (o : Outline) : Prop where
  nested : o.Nested
  worded : o.Worded

end Outline

theorem Segment.regular_outline {o : Outline} {s : Segment} (h : s.outline = .ok o) :
    o.Regular := by
  obtain ⟨place, hplace⟩ := placed_outline h
  obtain ⟨tokens, _, hnested⟩ := bind_ok h
  exact ⟨Outline.nested_ofTokens hnested, hplace.worded⟩

namespace Outline

variable {o : Outline} {i j k stop : Nat}

/-! ### Indices outside of brackets -/

/-- No bracket is open before the index, which is one of the tokens or their end. -/
structure AtTop (o : Outline) (i : Nat) : Prop where
  le : i ≤ o.size
  depth : o.depth i = 0

theorem isWord_of_isBindable (h : o.isBindable i = true) : o.isWord i = true := by
  simp only [isBindable, isWord, Option.any_eq_true] at h ⊢
  obtain ⟨t, ht, hword⟩ := h
  exact ⟨t, ht, (Bool.and_eq_true_iff.mp hword).1⟩

theorem lt_of_isWord (h : o.isWord i = true) : i < o.size := by
  simp only [isWord, Option.any_eq_true] at h
  obtain ⟨t, ht, _⟩ := h
  exact (Array.getElem?_eq_some_iff.mp ht).1

theorem lt_of_isString (h : o.isString i = true) : i < o.size := by
  simp only [isString, Option.any_eq_true] at h
  obtain ⟨t, ht, _⟩ := h
  exact (Array.getElem?_eq_some_iff.mp ht).1

theorem lt_of_isSpelled (h : o.isSpelled i = true) : i < o.size := by
  rcases Bool.or_eq_true_iff.mp h with hword | hstring
  · exact lt_of_isWord hword
  · exact lt_of_isString hstring

/-- A word is no mark. -/
theorem Worded.is_eq_false {mark : Bytes} (ho : o.Worded) (h : o.isWord i = true)
    (hmark : mark.head?.any isWordStart = false) : o.is i mark = false := by
  cases hi : o.is i mark with
  | false => rfl
  | true =>
    have hkind := ho.kind_of_is hi hmark
    simp only [isWord, Option.any_eq_true] at h
    obtain ⟨t, ht, hword⟩ := h
    have htoken : o.token i = t := by simp [token, ht]
    rw [htoken] at hkind
    simp [hkind] at hword

namespace AtTop

theorem start (o : Outline) : o.AtTop 0 := ⟨Nat.zero_le _, rfl⟩

theorem finish (ho : o.Nested) : o.AtTop o.size := ⟨Nat.le_refl _, ho.whole⟩

theorem closes_eq_false (h : o.AtTop i) (ho : o.Nested) : o.closes i = false :=
  ho.closes_eq_false h.depth

/-- Behind what opens no bracket. -/
theorem pass (h : o.AtTop i) (ho : o.Nested) (hi : i < o.size) (hopens : o.opens i = false) :
    o.AtTop (i + 1) :=
  ⟨hi, by rw [depth_succ hopens (h.closes_eq_false ho), h.depth]⟩

/-- Behind a group of brackets. -/
theorem group (h : o.AtTop i) (ho : o.Nested) (hopens : o.opens i = true) :
    o.AtTop (o.afterGroup i) :=
  ⟨ho.afterGroup_le hopens, by rw [ho.depth_afterGroup hopens, h.depth]⟩

/-- Behind a given word or mark that opens no bracket. -/
theorem mark {text : Bytes} (h : o.AtTop i) (ho : o.Nested) (hi : o.is i text = true)
    (hne : text ∉ Token.openers) : o.AtTop (i + 1) :=
  h.pass ho (lt_of_is hi) (opens_eq_false hi hne)

theorem string (h : o.AtTop i) (ho : o.Nested) (hi : o.isString i = true) :
    o.AtTop (i + 1) := by
  refine h.pass ho (lt_of_isString hi) ?_
  rw [Bool.eq_false_iff]
  intro hopens
  obtain ⟨opener, _, hopener⟩ := opens_iff.mp hopens
  rw [is_eq_false_of_isString hi] at hopener
  cases hopener

theorem word (h : o.AtTop i) (ho : o.Regular) (hi : o.isWord i = true) : o.AtTop (i + 1) := by
  refine h.pass ho.nested (lt_of_isWord hi) ?_
  rw [Bool.eq_false_iff]
  intro hopens
  obtain ⟨opener, hmem, hopener⟩ := opens_iff.mp hopens
  have hmark : ∀ text ∈ Token.openers, text.head?.any isWordStart = false := by decide
  rw [ho.worded.is_eq_false hi (hmark opener hmem)] at hopener
  cases hopener

theorem spelled (h : o.AtTop i) (ho : o.Regular) (hi : o.isSpelled i = true) :
    o.AtTop (i + 1) := by
  rcases Bool.or_eq_true_iff.mp hi with hword | hstring
  · exact h.word ho hword
  · exact h.string ho.nested hstring

/-- Behind a word or mark that may stand there. -/
theorem optional (h : o.AtTop i) (ho : o.Nested) (text : Bytes) (hne : text ∉ Token.openers) :
    o.AtTop (if o.is i text then i + 1 else i) := by
  split
  case isTrue hi => exact h.mark ho hi hne
  case isFalse => exact h

end AtTop

/-! ### The loops that look for an end -/

/-- A reader that is at `j` leaves off at `stop`: outside of brackets, and not between a
`debugger` and its semicolon. -/
structure Ends (o : Outline) (j stop : Nat) : Prop where
  reach : j ≤ stop
  top : o.AtTop stop
  whole : o.is stop ";" = true → o.is (stop - 1) "debugger" = false

theorem Ends.mono (h : o.Ends j stop) (hij : i ≤ j) : o.Ends i stop :=
  ⟨Nat.le_trans hij h.reach, h.top, h.whole⟩

/-- Where no semicolon stands. -/
theorem AtTop.ends (h : o.AtTop i) (hmark : o.is i ";" = false) : o.Ends i i :=
  ⟨Nat.le_refl _, h, fun hi => by simp [hmark] at hi⟩

theorem AtTop.ends_size (h : o.AtTop i) (ho : o.Nested) : o.Ends i o.size := by
  refine ⟨h.le, .finish ho, fun hi => ?_⟩
  exact absurd (lt_of_is hi) (Nat.lt_irrefl _)

/-- Behind a word or mark other than `debugger`. -/
theorem AtTop.ends_after {text : Bytes} (h : o.AtTop i) (ho : o.Nested)
    (hi : o.is i text = true) (hne : text ∉ Bytes.ofString "debugger" :: Token.openers) :
    o.Ends (i + 1) (i + 1) := by
  simp only [List.mem_cons, not_or] at hne
  exact ⟨Nat.le_refl _, h.mark ho hi hne.2, fun _ => is_eq_false hi hne.1⟩

theorem AtTop.ends_group (h : o.AtTop i) (ho : o.Nested) (hopens : o.opens i = true) :
    o.Ends (i + 1) (o.afterGroup i) := by
  refine ⟨o.lt_afterGroup i, h.group ho hopens, fun _ => ?_⟩
  rw [ho.afterGroup_eq hopens, Nat.add_sub_cancel]
  exact is_eq_false_of_closes (ho.closes_partnerOf hopens) (by decide)

theorem ends_statementEndFrom (ho : o.Regular) (start : Nat) (h : o.AtTop i) :
    o.Ends i (o.statementEndFrom start i) := by
  fun_induction statementEndFrom o start i with
  | case1 i hi hbreak =>
    refine h.ends ?_
    rw [Bool.eq_false_iff]
    intro hmark
    simp [breaksBefore_eq_false ho.worded hmark] at hbreak
  | case2 i hi hbreak hopens ih =>
    exact (ih (h.group ho.nested hopens)).mono (Nat.le_of_lt (o.lt_afterGroup i))
  | case3 i hi hbreak hopens hmark =>
    exact (h.ends_after ho.nested hmark (by decide)).mono (Nat.le_succ i)
  | case4 i hi hbreak hopens hmark hcloses =>
    exact absurd hcloses (by simp [h.closes_eq_false ho.nested])
  | case5 i hi hbreak hopens hmark hcloses ih =>
    exact (ih (h.pass ho.nested hi (by simpa using hopens))).mono (Nat.le_succ i)
  | case6 i hi => exact h.ends_size ho.nested

/-- A statement takes its first token. -/
theorem ends_statementEnd (ho : o.Regular) (h : o.AtTop i) (hi : i < o.size) :
    o.Ends (i + 1) (o.statementEnd i) := by
  rw [statementEnd, statementEndFrom, if_pos hi]
  simp only [Nat.lt_irrefl, decide_false, Bool.false_and, Bool.false_eq_true, if_false,
    h.closes_eq_false ho.nested]
  split
  case isTrue hopens =>
    exact (ends_statementEndFrom ho i (h.group ho.nested hopens)).mono (o.lt_afterGroup i)
  case isFalse hopens =>
    split
    case isTrue hmark => exact h.ends_after ho.nested hmark (by decide)
    case isFalse =>
      exact ends_statementEndFrom ho i (h.pass ho.nested hi (by simpa using hopens))

theorem ends_functionEnd (ho : o.Nested) (h : o.AtTop k) : o.Ends k (o.functionEnd k) := by
  fun_induction functionEnd o k with
  | case1 k hk hbrace =>
    exact (h.ends_group ho (opens_of_brace hbrace)).mono (Nat.le_succ k)
  | case2 k hk hbrace hopens ih =>
    exact (ih (h.group ho hopens)).mono (Nat.le_of_lt (o.lt_afterGroup k))
  | case3 k hk hbrace hopens hmark =>
    exact (h.ends_after ho hmark (by decide)).mono (Nat.le_succ k)
  | case4 k hk hbrace hopens hmark ih =>
    exact (ih (h.pass ho hk (by simpa using hopens))).mono (Nat.le_succ k)
  | case5 k hk => exact h.ends_size ho

theorem opens_of_opensClassBody (h : o.opensClassBody k = true) : o.opens k = true := by
  simp only [opensClassBody, Bool.and_eq_true] at h
  exact opens_of_brace h.1.1.1

theorem ends_classEnd (ho : o.Nested) (h : o.AtTop k) : o.Ends k (o.classEnd k) := by
  fun_induction classEnd o k with
  | case1 k hk hbody =>
    exact (h.ends_group ho (opens_of_opensClassBody hbody)).mono (Nat.le_succ k)
  | case2 k hk hbody hopens ih =>
    exact (ih (h.group ho hopens)).mono (Nat.le_of_lt (o.lt_afterGroup k))
  | case3 k hk hbody hopens ih =>
    exact (ih (h.pass ho hk (by simpa using hopens))).mono (Nat.le_succ k)
  | case4 k hk => exact h.ends_size ho

/-! ### Declarations -/

/-- Behind the name that may follow the words of a declaration. -/
theorem AtTop.nameAt (h : o.AtTop j) (ho : o.Regular) :
    o.AtTop (j + (o.nameAt j).length) := by
  unfold Outline.nameAt
  split
  case isTrue hname => exact h.word ho (isWord_of_isBindable hname)
  case isFalse => exact h

/-- The words before the name of a declaration: one that may stand before the keyword, and
the keyword. -/
theorem AtTop.keywords {first keyword : Bytes} (h : o.AtTop i) (ho : o.Nested)
    (hi : o.is i keyword = true ∨ o.is i first = true ∧ o.is (i + 1) keyword = true)
    (hfirst : first ∉ keyword :: Token.openers) (hkeyword : keyword ∉ Token.openers) :
    o.AtTop ((if o.is i first then i + 1 else i) + 1) := by
  simp only [List.mem_cons, not_or] at hfirst
  rcases hi with hi | ⟨hi, hnext⟩
  · rw [is_eq_false hi (Ne.symm hfirst.1), if_neg (by simp)]
    exact h.mark ho hi hkeyword
  · rw [if_pos hi]
    exact (h.mark ho hi hfirst.2).mark ho hnext hkeyword

theorem ends_functionDeclaration (ho : o.Regular) (h : o.AtTop i)
    (hi : o.is i "function" = true ∨ o.is i "async" = true ∧ o.is (i + 1) "function" = true) :
    o.Ends (i + 1) (o.functionDeclaration i).stop := by
  have hwords := h.keywords ho.nested hi (by decide) (by decide)
  have hname := (hwords.optional ho.nested "*" (by decide)).nameAt ho
  refine (ends_functionEnd ho.nested hname).mono ?_
  split <;> split <;> omega

theorem ends_classDeclaration (ho : o.Regular) (h : o.AtTop i)
    (hi : o.is i "class" = true ∨ o.is i "abstract" = true ∧ o.is (i + 1) "class" = true) :
    o.Ends (i + 1) (o.classDeclaration i).stop := by
  have hname := (h.keywords ho.nested hi (by decide) (by decide)).nameAt ho
  refine (ends_classEnd ho.nested hname).mono ?_
  split <;> omega

theorem ends_declaration {d : Declaration} (ho : o.Regular) (h : o.AtTop i)
    (hd : o.declaration? i = some d) : o.Ends (i + 1) d.stop := by
  unfold declaration? at hd
  split at hd
  case isTrue hi =>
    obtain rfl := Option.some.inj hd
    simp only [Bool.or_eq_true, Bool.and_eq_true] at hi
    exact ends_functionDeclaration ho h (hi.imp_right And.left)
  case isFalse =>
    split at hd
    case isTrue hi =>
      obtain rfl := Option.some.inj hd
      simp only [Bool.or_eq_true, Bool.and_eq_true] at hi
      exact ends_classDeclaration ho h hi
    case isFalse =>
      split at hd
      case isTrue hi =>
        obtain rfl := Option.some.inj hd
        simp only [Bool.or_eq_true, Bool.and_eq_true] at hi
        refine ends_statementEnd ho h ?_
        rcases hi with (hi | hi) | hi
        · exact lt_of_is hi
        · exact lt_of_is hi.1
        · exact lt_of_is hi.1
      case isFalse => cases hd

/-! ### Statements -/

/-- The statement covers the tokens from `i` up to where its reader leaves off. -/
structure Covers (o : Outline) (i : Nat) (s : Statement) (stop : Nat) : Prop
    extends o.Ends (i + 1) stop where
  span : s.span = o.spanOf i stop

theorem ends_moduleEnd (ho : o.Nested) (h : o.AtTop j) : o.Ends j (o.moduleEnd j) := by
  have hsemicolon {k : Nat} (hk : o.AtTop k) : o.Ends k (if o.is k ";" then k + 1 else k) := by
    split
    case isTrue hmark => exact (hk.ends_after ho hmark (by decide)).mono (Nat.le_succ k)
    case isFalse hmark => exact hk.ends (by simpa using hmark)
  unfold moduleEnd
  split
  case isTrue hattributes =>
    simp only [Bool.and_eq_true, Bool.or_eq_true] at hattributes
    obtain ⟨⟨hword, hbrace⟩, _⟩ := hattributes
    have hnext : o.AtTop (j + 1) := by
      rcases hword with hword | hword
      · exact h.mark ho hword (by decide)
      · exact h.mark ho hword (by decide)
    refine (hsemicolon (hnext.group ho (opens_of_brace hbrace))).mono ?_
    have := o.lt_afterGroup (j + 1)
    omega
  case isFalse => exact hsemicolon h

/-- Behind the default binding of an import. -/
theorem AtTop.defaultClause {typeOnly : Bool} {bindings : List Binding} (h : o.AtTop j)
    (ho : o.Regular) (hclause : o.defaultClause typeOnly j = .ok (bindings, k)) :
    j ≤ k ∧ o.AtTop k := by
  unfold Outline.defaultClause at hclause
  split at hclause
  case isTrue hname =>
    have hnext := h.word ho (isWord_of_isBindable hname)
    simp only at hclause
    split at hclause
    case isTrue hcomma =>
      cases hclause
      exact ⟨by omega, hnext.mark ho.nested hcomma (by decide)⟩
    case isFalse =>
      split at hclause <;> cases hclause
      exact ⟨Nat.le_succ j, hnext⟩
  case isFalse =>
    cases hclause
    exact ⟨Nat.le_refl _, h⟩

/-- Behind the namespace or the named bindings of an import. -/
theorem AtTop.namedClause {typeOnly : Bool} {bindings : List Binding} (h : o.AtTop j)
    (ho : o.Regular) (hclause : o.namedClause typeOnly j = .ok (bindings, k)) :
    j ≤ k ∧ o.AtTop k := by
  unfold Outline.namedClause at hclause
  split at hclause
  case isTrue hstar =>
    split at hclause
    case isTrue hname =>
      cases hclause
      obtain ⟨has, hname⟩ := Bool.and_eq_true_iff.mp hname
      have hnext := (h.mark ho.nested hstar (by decide)).mark ho.nested has (by decide)
      exact ⟨by omega, hnext.word ho (isWord_of_isBindable hname)⟩
    case isFalse => cases hclause
  case isFalse =>
    split at hclause
    case isTrue hbrace =>
      split at hclause <;> cases hclause
      exact ⟨Nat.le_of_lt (o.lt_afterGroup j), h.group ho.nested (opens_of_brace hbrace)⟩
    case isFalse =>
      cases hclause
      exact ⟨Nat.le_refl _, h⟩

/-- Behind the word `from` and the literal. -/
theorem AtTop.source (h : o.AtTop j) (ho : o.Nested) (hfrom : o.is j "from" = true)
    (hstring : o.isString (j + 1) = true) : o.AtTop (j + 2) :=
  (h.mark ho hfrom (by decide)).string ho hstring

/-- Behind the literal of an import. -/
theorem AtTop.importClause {typeOnly : Bool} {bindings : List Binding} (h : o.AtTop j)
    (ho : o.Regular) (hclause : o.importClause typeOnly j = .ok (bindings, k)) :
    j ≤ k ∧ o.AtTop (k + 2) := by
  obtain ⟨⟨first, j₁⟩, hdefault, hclause⟩ := bind_ok hclause
  obtain ⟨⟨others, j₂⟩, hnamed, hclause⟩ := bind_ok hclause
  obtain ⟨hle, htop⟩ := h.defaultClause ho hdefault
  obtain ⟨hle', htop'⟩ := htop.namedClause ho hnamed
  simp only at hclause
  split at hclause
  case isTrue hfrom =>
    obtain ⟨hfrom, hstring⟩ := Bool.and_eq_true_iff.mp hfrom
    obtain rfl : j₂ = k := congrArg Prod.snd (Except.ok.inj hclause)
    exact ⟨Nat.le_trans hle hle', htop'.source ho.nested hfrom hstring⟩
  case isFalse => cases hclause

variable {s : Statement}

theorem covers_importing (ho : o.Regular) (h : o.AtTop i) (himport : o.is i "import" = true)
    (hs : o.importing i = .ok (s, stop)) : o.Covers i s stop := by
  have hnext := h.mark ho.nested himport (by decide)
  unfold importing at hs
  simp only at hs
  -- the bindings begin behind `type`, if it is there
  have hj : i < (if o.importsTypes (i + 1) then i + 2 else i + 1) ∧
      o.AtTop (if o.importsTypes (i + 1) then i + 2 else i + 1) := by
    split
    case isTrue htype =>
      have htype := (Bool.and_eq_true_iff.mp htype).1
      exact ⟨by omega, hnext.mark ho.nested htype (by decide)⟩
    case isFalse => exact ⟨Nat.lt_succ_self i, hnext⟩
  generalize (if o.importsTypes (i + 1) then i + 2 else i + 1) = j at hs hj
  obtain ⟨hij, htop⟩ := hj
  split at hs
  case isTrue hstring =>
    cases hs
    exact ⟨(ends_moduleEnd ho.nested (htop.string ho.nested hstring)).mono (by omega), rfl⟩
  case isFalse =>
    split at hs
    case isTrue hequals =>
      -- the import of a name for another one ends as an expression does
      cases hs
      have hlt := lt_of_isWord (isWord_of_isBindable (Bool.and_eq_true_iff.mp hequals).1)
      exact ⟨(ends_statementEnd ho htop hlt).mono (by omega), rfl⟩
    case isFalse =>
      split at hs
      case h_1 => cases hs
      case h_2 hclause =>
        cases hs
        obtain ⟨hle, htop⟩ := htop.importClause ho hclause
        exact ⟨(ends_moduleEnd ho.nested htop).mono (by omega), rfl⟩

theorem covers_starExport {typeOnly : Bool} (ho : o.Regular) (h : o.AtTop j) (hij : i < j)
    (hstar : o.is j "*" = true) (hs : o.starExport i typeOnly j = .ok (s, stop)) :
    o.Covers i s stop := by
  have hnext := h.mark ho.nested hstar (by decide)
  unfold starExport at hs
  simp only at hs
  have hk : j < (if o.is (j + 1) "as" && o.isSpelled (j + 2) then j + 3 else j + 1) ∧
      o.AtTop (if o.is (j + 1) "as" && o.isSpelled (j + 2) then j + 3 else j + 1) := by
    split
    case isTrue hname =>
      obtain ⟨has, hname⟩ := Bool.and_eq_true_iff.mp hname
      exact ⟨by omega, (hnext.mark ho.nested has (by decide)).spelled ho hname⟩
    case isFalse => exact ⟨Nat.lt_succ_self j, hnext⟩
  generalize (if o.is (j + 1) "as" && o.isSpelled (j + 2) then j + 3 else j + 1) = k at hs hk
  obtain ⟨hjk, htop⟩ := hk
  split at hs
  case isTrue hfrom =>
    cases hs
    obtain ⟨hfrom, hstring⟩ := Bool.and_eq_true_iff.mp hfrom
    have hend := ends_moduleEnd ho.nested (htop.source ho.nested hfrom hstring)
    exact ⟨hend.mono (by omega), rfl⟩
  case isFalse => cases hs

theorem covers_listExport {typeOnly : Bool} (ho : o.Nested) (h : o.AtTop j) (hij : i < j)
    (hbrace : o.is j "\x7b" = true) (hs : o.listExport i typeOnly j = .ok (s, stop)) :
    o.Covers i s stop := by
  have htop := h.group ho (opens_of_brace hbrace)
  have hlt := o.lt_afterGroup j
  unfold listExport at hs
  split at hs
  case h_1 => cases hs
  case h_2 =>
    simp only at hs
    split at hs
    case isTrue hfrom =>
      cases hs
      obtain ⟨hfrom, hstring⟩ := Bool.and_eq_true_iff.mp hfrom
      exact ⟨(ends_moduleEnd ho (htop.source ho hfrom hstring)).mono (by omega), rfl⟩
    case isFalse =>
      cases hs
      refine ⟨?_, rfl⟩
      split
      case isTrue hmark => exact (htop.ends_after ho hmark (by decide)).mono (by omega)
      case isFalse hmark => exact (htop.ends (by simpa using hmark)).mono (by omega)

theorem covers_defaultExport (ho : o.Regular) (h : o.AtTop j) (hij : i < j)
    (hdefault : o.is j "default" = true) :
    o.Covers i (o.defaultExport i j).1 (o.defaultExport i j).2 := by
  have htop := h.mark ho.nested hdefault (by decide)
  refine ⟨?_, rfl⟩
  unfold defaultExport
  simp only
  split
  case h_1 d hd =>
    have hend := ends_declaration ho htop (Option.filter_eq_some_iff.mp hd).1
    exact hend.mono (by omega)
  case h_2 => exact (ends_statementEndFrom ho (j + 1) htop).mono (by omega)

theorem covers_exporting (ho : o.Regular) (h : o.AtTop i) (hexport : o.is i "export" = true)
    (hs : o.exporting i = .ok (s, stop)) : o.Covers i s stop := by
  have hnext := h.mark ho.nested hexport (by decide)
  unfold exporting at hs
  simp only at hs
  -- what is exported begins behind `type`, if it is there
  have hj : i < (if o.is (i + 1) "type" && (o.is (i + 2) "\x7b" || o.is (i + 2) "*") then i + 2
        else i + 1) ∧
      o.AtTop (if o.is (i + 1) "type" && (o.is (i + 2) "\x7b" || o.is (i + 2) "*") then i + 2
        else i + 1) := by
    split
    case isTrue htype =>
      have htype := (Bool.and_eq_true_iff.mp htype).1
      exact ⟨by omega, hnext.mark ho.nested htype (by decide)⟩
    case isFalse => exact ⟨Nat.lt_succ_self i, hnext⟩
  generalize (if o.is (i + 1) "type" && (o.is (i + 2) "\x7b" || o.is (i + 2) "*") then i + 2
    else i + 1) = j at hs hj
  generalize (o.is (i + 1) "type" && (o.is (i + 2) "\x7b" || o.is (i + 2) "*")) = typeOnly at hs
  obtain ⟨hij, htop⟩ := hj
  split at hs
  case isTrue hstar => exact covers_starExport ho htop hij hstar hs
  case isFalse =>
    split at hs
    case isTrue hbrace => exact covers_listExport ho.nested htop hij hbrace hs
    case isFalse =>
      split at hs
      case isTrue hdefault =>
        have hcovers := covers_defaultExport ho htop hij hdefault
        rwa [Except.ok.inj hs] at hcovers
      case isFalse =>
        split at hs
        case h_1 d hd =>
          cases hs
          exact ⟨(ends_declaration ho htop hd).mono (by omega), rfl⟩
        case h_2 =>
          cases hs
          exact ⟨(ends_statementEndFrom ho j htop).mono (by omega), rfl⟩

theorem covers_plain (ho : o.Regular) (h : o.AtTop i) (hi : i < o.size) :
    o.Covers i (o.plain i).1 (o.plain i).2 := by
  unfold plain
  split
  case h_1 d hd => exact ⟨ends_declaration ho h hd, rfl⟩
  case h_2 => exact ⟨ends_statementEnd ho h hi, rfl⟩

/-- **A statement that begins outside of brackets** ends outside of them, behind its first
token.  Other `debugger` statements come from the tokens that it covers. -/
theorem covers_statement {statements : List Statement} (ho : o.Regular) (h : o.AtTop i)
    (hi : i < o.size) (hs : o.statement i = .ok (statements, stop)) :
    ∃ s lifted, statements = s :: lifted ∧ o.Covers i s stop ∧
      (lifted = [] ∨ lifted = o.debuggers i stop) := by
  unfold statement at hs
  split at hs
  case isTrue himport =>
    obtain ⟨⟨s, stop'⟩, hs', hs⟩ := bind_ok hs
    cases hs
    simp only [Bool.and_eq_true] at himport
    exact ⟨s, [], rfl, covers_importing ho h himport.1.1 hs', .inl rfl⟩
  case isFalse =>
    split at hs
    case isTrue hexport =>
      obtain ⟨⟨s, stop'⟩, hs', hs⟩ := bind_ok hs
      cases hs
      exact ⟨s, _, rfl, covers_exporting ho h hexport hs', .inr rfl⟩
    case isFalse =>
      split at hs
      case isTrue =>
        cases hs
        exact ⟨_, [], rfl, ⟨ends_statementEnd ho h hi, rfl⟩, .inl rfl⟩
      case isFalse =>
        cases hs
        exact ⟨_, _, rfl, covers_plain ho h hi, .inr rfl⟩

end Outline

end ScriptLint
