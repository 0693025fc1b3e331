/-
Imports and exports without the `debugger` words.

Whether an import or export can be read is decided by its own tokens.  If none of these is
left out, it can be read as before.

* **`Outline.Shows`** — both outlines show the same tokens for a while;
* **`Outline.Shows.importing`**, **`Outline.Shows.exporting`** — what can be read in the one
  outline can be read in the other one.
-/
import ScriptLint.Proofs.Thinning

namespace ScriptLint

namespace Outline

/-- From two indices on both outlines show the same `n` tokens, as deep in brackets. -/
structure Shows (o o' : Outline) (i i' n : Nat) : Prop where
  alike : ∀ d < n, o.Alike o' (i + d) (i' + d)
  depth : ∀ d ≤ n, o'.depth (i' + d) = o.depth (i + d)

variable {o o' : Outline} {i i' j j' k stop n d e : Nat}

/-- Where every token stays, both outlines show the same ones. -/
theorem Keeps.shows (h : o.Keeps o' i i') (hn : i + n ≤ o.size)
    (hspared : ∀ k, i ≤ k → k < i + n → o.isSpared k = true) : o.Shows o' i i' n := by
  have hkeeps {d : Nat} (hd : d ≤ n) : o.Keeps o' (i + d) (i' + d) :=
    h.window (by omega) fun k hk hlt => hspared k hk (by omega)
  refine ⟨fun d hd => ?_, fun d hd => (hkeeps hd).depth⟩
  exact ((hkeeps (Nat.le_of_lt hd)).keep (by omega) (hspared _ (by omega) (by omega))).1

/-! ### How far imports reach -/

/-- Behind `import`, and behind `type` if it makes the import one of types. -/
theorem AtTop.imported (h : o.AtTop i) (ho : o.Nested) (himport : o.is i "import" = true) :
    o.AtTop (if o.importsTypes (i + 1) then i + 2 else i + 1) := by
  have hnext := h.mark ho himport (by decide)
  split
  case isTrue htype => exact hnext.mark ho (Bool.and_eq_true_iff.mp htype).1 (by decide)
  case isFalse => exact hnext

/-- A name and the mark behind it belong to one statement. -/
theorem le_statementEnd (ho : o.Worded) (hname : o.isBindable j = true)
    (hmark : o.is (j + 1) "=" = true) : j + 2 ≤ o.statementEnd j := by
  have hword := isWord_of_isBindable hname
  have hmarks : ∀ mark ∈ Token.openers ++ Token.closers, mark.head?.any isWordStart = false := by
    decide
  have hopens : o.opens j = false := by
    rw [Bool.eq_false_iff]
    intro h
    obtain ⟨opener, hmem, h⟩ := opens_iff.mp h
    rw [ho.is_eq_false hword (hmarks opener (List.mem_append_left _ hmem))] at h
    cases h
  have hcloses : o.closes j = false := by
    rw [Bool.eq_false_iff]
    intro h
    obtain ⟨closer, hmem, h⟩ := closes_iff.mp h
    rw [ho.is_eq_false hword (hmarks closer (List.mem_append_right _ hmem))] at h
    cases h
  have hbreak : o.breaksBefore (j + 1) = false := by
    simp [breaksBefore, Token.startsStatement, ho.kind_of_is hmark (by decide)]
  have hsize := lt_of_is hmark
  rw [statementEnd, statementEndFrom, if_pos (lt_of_isWord hword)]
  simp only [Nat.lt_irrefl, decide_false, Bool.false_and, Bool.false_eq_true, if_false, hopens,
    ho.is_eq_false hword (show (Bytes.ofString ";").head?.any isWordStart = false by decide),
    hcloses]
  rw [statementEndFrom, if_pos hsize]
  simp only [hbreak, Bool.and_false, Bool.false_eq_true, if_false,
    opens_eq_false hmark (by decide), closes_eq_false hmark (by decide),
    is_eq_false hmark (show Bytes.ofString "=" ≠ ";" by decide)]
  exact Nat.le_trans (Nat.le_min.mpr ⟨Nat.le_refl _, hsize⟩) (o.le_statementEndFrom j (j + 2))

/-- An import reaches over the token behind `import`, and over one more unless it is the
literal. -/
theorem le_of_importing {s : Statement} (ho : o.Regular) (htop : o.AtTop i)
    (himport : o.is i "import" = true) (hs : o.importing i = .ok (s, stop)) :
    i + 2 ≤ stop ∧ (o.isString (i + 1) = false → i + 3 ≤ stop) := by
  have hj : o.AtTop (if o.importsTypes (i + 1) then i + 2 else i + 1) ∧
      i + 1 ≤ (if o.importsTypes (i + 1) then i + 2 else i + 1) ∧
      (o.isString (i + 1) = false →
        o.isString (if o.importsTypes (i + 1) then i + 2 else i + 1) = true →
          i + 2 ≤ (if o.importsTypes (i + 1) then i + 2 else i + 1)) := by
    refine ⟨htop.imported ho.nested himport, by split <;> omega, fun hfirst hsecond => ?_⟩
    by_cases htype : o.importsTypes (i + 1) = true
    · rw [if_pos htype]
    · rw [if_neg htype, hfirst] at hsecond
      cases hsecond
  unfold Outline.importing at hs
  simp only at hs
  generalize (if o.importsTypes (i + 1) then i + 2 else i + 1) = j at hs hj
  obtain ⟨htop, hij, hliteral⟩ := hj
  split at hs
  case isTrue hstring =>
    cases hs
    have hreach := (ends_moduleEnd ho.nested (htop.string ho.nested hstring)).reach
    refine ⟨by omega, fun hfirst => ?_⟩
    have := hliteral hfirst hstring
    omega
  case isFalse =>
    split at hs
    case isTrue hequals =>
      cases hs
      obtain ⟨hname, hmark⟩ := Bool.and_eq_true_iff.mp hequals
      have := le_statementEnd ho.worded hname hmark
      omega
    case isFalse =>
      split at hs
      case h_1 => cases hs
      case h_2 hclause =>
        cases hs
        obtain ⟨hle, htop⟩ := htop.importClause ho hclause
        have := (ends_moduleEnd ho.nested htop).reach
        omega

/-! ### How far exports reach -/

theorem le_moduleEnd (j : Nat) : j ≤ o.moduleEnd j := by
  have := o.lt_afterGroup (j + 1)
  unfold moduleEnd
  simp only
  split <;> split <;> omega

theorem lt_of_starExport {first : Nat} {typeOnly : Bool} {s : Statement}
    (hs : o.starExport first typeOnly i = .ok (s, stop)) : i < stop := by
  unfold starExport at hs
  simp only at hs
  have hj : i < if o.is (i + 1) "as" && o.isSpelled (i + 2) then i + 3 else i + 1 := by
    split <;> omega
  generalize (if o.is (i + 1) "as" && o.isSpelled (i + 2) then i + 3 else i + 1) = j at hs hj
  split at hs
  case isFalse => cases hs
  case isTrue =>
    cases hs
    exact Nat.lt_of_lt_of_le (Nat.lt_add_right 2 hj) (le_moduleEnd _)

theorem afterGroup_le_of_listExport {first : Nat} {typeOnly : Bool} {s : Statement}
    (hs : o.listExport first typeOnly i = .ok (s, stop)) : o.afterGroup i ≤ stop := by
  unfold listExport at hs
  split at hs
  case h_1 => cases hs
  case h_2 =>
    simp only at hs
    split at hs
    case isTrue =>
      cases hs
      exact Nat.le_trans (Nat.le_add_right _ 2) (le_moduleEnd _)
    case isFalse =>
      cases hs
      split
      · exact Nat.le_succ _
      · exact Nat.le_refl _

/-- The export that begins at an index names what it exports in a list, or exports
everything. -/
def listsNames (o : Outline) (i : Nat) : Bool :=
  o.is (i + 1) "*" || o.is (i + 1) "\x7b" ||
    (o.is (i + 1) "type" && (o.is (i + 2) "\x7b" || o.is (i + 2) "*"))

/-- Where the star or the brace stands. -/
theorem exists_of_listsNames (h : o.listsNames i = true) :
    ∃ d, (d = 1 ∨ d = 2 ∧ o.is (i + 1) "type" = true) ∧
      (o.is (i + d) "*" = true ∨ o.is (i + d) "\x7b" = true) := by
  simp only [listsNames, Bool.or_eq_true, Bool.and_eq_true] at h
  rcases h with hmark | ⟨htype, hmark⟩
  · exact ⟨1, .inl rfl, hmark⟩
  · exact ⟨2, .inr ⟨rfl, htype⟩, hmark.symm⟩

/-- A star or a brace decides how an export is read. -/
theorem exporting_eq (hd : d = 1 ∨ d = 2 ∧ o.is (i + 1) "type" = true)
    (hmark : o.is (i + d) "*" = true ∨ o.is (i + d) "\x7b" = true) :
    ∃ typeOnly, o.exporting i = if o.is (i + d) "*" then o.starExport i typeOnly (i + d)
      else o.listExport i typeOnly (i + d) := by
  -- with neither of them, the export would be read as something else
  have hmarks (typeOnly : Bool) (other : Except Failure (Statement × Nat)) :
      (if o.is (i + d) "*" then o.starExport i typeOnly (i + d)
        else if o.is (i + d) "\x7b" then o.listExport i typeOnly (i + d) else other) =
      if o.is (i + d) "*" then o.starExport i typeOnly (i + d)
      else o.listExport i typeOnly (i + d) := by
    split
    · rfl
    · rw [if_pos (hmark.resolve_left (by assumption))]
  rcases hd with rfl | ⟨rfl, htype⟩
  · have htype : o.is (i + 1) "type" = false := by
      rcases hmark with hmark | hmark <;> exact is_eq_false hmark (by decide)
    refine ⟨false, ?_⟩
    rw [← hmarks, exporting, htype]
    rfl
  · have hmark' : (o.is (i + 2) "\x7b" || o.is (i + 2) "*") = true := by
      rw [Bool.or_eq_true]
      exact hmark.symm
    refine ⟨true, ?_⟩
    rw [← hmarks, exporting, htype, hmark']
    rfl

/-- Any other export can be read. -/
theorem exists_exporting (h : o.listsNames i = false) : ∃ read, o.exporting i = .ok read := by
  simp only [listsNames, Bool.or_eq_false_iff] at h
  obtain ⟨⟨hstar, hbrace⟩, htype⟩ := h
  unfold exporting
  rw [htype]
  simp only [Bool.false_eq_true, if_false, hstar, hbrace]
  split
  · exact ⟨_, rfl⟩
  split
  · exact ⟨_, rfl⟩
  · exact ⟨_, rfl⟩

namespace Shows

theorem shift (h : o.Shows o' i i' n) (hd : d ≤ n) : o.Shows o' (i + d) (i' + d) (n - d) := by
  refine ⟨fun e he => ?_, fun e he => ?_⟩
  · rw [Nat.add_assoc, Nat.add_assoc]
    exact h.alike (d + e) (by omega)
  · rw [Nat.add_assoc, Nat.add_assoc]
    exact h.depth (d + e) (by omega)

/-! ### Lists -/

/-- A list of names up to a closing brace. -/
theorem specifiers (h : o.Shows o' i i' n) (ho : o.Worded) (hclose : o.closes (i + e) = true)
    (he : e < n) : (o'.specifiers (i' + e) (i' + d)).isSome =
      (o.specifiers (i + e) (i + d)).isSome := by
  induction hn : e - d using Nat.strongRecOn generalizing d with
  | _ m ih =>
    rw [Outline.specifiers.eq_1 o', Outline.specifiers.eq_1 o]
    by_cases hd : d < e
    case neg => rw [if_neg (show ¬ i' + d < i' + e by omega), if_neg (by omega)]
    rw [if_pos (show i' + d < i' + e by omega), if_pos (show i + d < i + e by omega),
      (h.alike d (by omega)).is]
    by_cases hcomma : o.is (i + d) "," = true
    · rw [if_pos hcomma, if_pos hcomma]
      exact ih (e - (d + 1)) (by omega) rfl
    rw [if_neg hcomma, if_neg hcomma]
    -- the bracket ends the look-ahead, for it spells nothing
    have hlt {c : Nat} (hc : c ≤ e) (hspelled : o.isSpelled (i + c) = true) : c < e := by
      refine Nat.lt_of_le_of_ne hc ?_
      rintro rfl
      rw [isSpelled_of_closes ho hclose] at hspelled
      cases hspelled
    have hrest {c : Nat} (hdc : d < c) (hce : c ≤ e) (first first' : Specifier) :
        (if (decide (i' + c < i' + e) && !o'.is (i' + c) ",") = true then none
          else (o'.specifiers (i' + e) (i' + c)).bind fun rest => some (first' :: rest)).isSome =
        (if (decide (i + c < i + e) && !o.is (i + c) ",") = true then none
          else (o.specifiers (i + e) (i + c)).bind fun rest => some (first :: rest)).isSome := by
      have hbound : decide (i' + c < i' + e) = decide (i + c < i + e) :=
        decide_eq_decide.mpr (by omega)
      rw [hbound, (h.alike c (by omega)).is]
      split
      case isTrue => rfl
      case isFalse =>
        rw [Option.isSome_bind, Option.isSome_bind]
        simpa using ih (e - c) (by omega) rfl
    have hsecond : o.Alike o' (i + d + 1) (i' + d + 1) := h.alike (d + 1) (by omega)
    simp only [(h.alike d (by omega)).is, hsecond.is, hsecond.isSpelled]
    generalize (o.is (i + d) "type" && o.isSpelled (i + d + 1) && !o.is (i + d + 1) "as") =
      typeOnly
    obtain ⟨c, hdc, hce, hname, hname'⟩ : ∃ c, d ≤ c ∧ c ≤ e ∧
        (if typeOnly = true then i + d + 1 else i + d) = i + c ∧
        (if typeOnly = true then i' + d + 1 else i' + d) = i' + c := by
      cases typeOnly
      · exact ⟨d, Nat.le_refl d, Nat.le_of_lt hd, rfl, rfl⟩
      · exact ⟨d + 1, Nat.le_succ d, hd, rfl, rfl⟩
    rw [hname, hname', (h.alike c (by omega)).isSpelled]
    by_cases hspelled : o.isSpelled (i + c) = true
    case neg => simp [hspelled]
    have hce := hlt hce hspelled
    have hbehind : o.Alike o' (i + c + 1) (i' + c + 1) := h.alike (c + 1) (by omega)
    rw [hbehind.is]
    by_cases has : o.is (i + c + 1) "as" = true
    case neg =>
      simp only [hspelled, has, Bool.not_true, Bool.false_and, Bool.false_eq_true, if_false]
      exact hrest (show d < c + 1 by omega) hce _ _
    have hce : c + 1 < e := by
      refine Nat.lt_of_le_of_ne hce ?_
      rintro rfl
      have hno : o.is (i + (c + 1)) "as" = false := is_eq_false_of_closes hclose (by decide)
      exact absurd has (by rw [Nat.add_assoc, hno]; decide)
    have hthird : o.Alike o' (i + c + 2) (i' + c + 2) := h.alike (c + 2) (by omega)
    rw [hthird.isSpelled]
    by_cases hrenamed : o.isSpelled (i + c + 2) = true
    case neg => simp [hspelled, has, hrenamed]
    simp only [hspelled, has, hrenamed, Bool.not_true, Bool.and_false, Bool.false_eq_true,
      if_false, if_true]
    exact hrest (show d < c + 3 by omega) (hlt (c := c + 2) (by omega) hrenamed) _ _

/-- A group that both outlines show as a whole ends at the same place. -/
theorem group (h : o.Shows o' i i' n) (ho : o.Nested) (ho' : o'.Nested) (hn : 0 < n)
    (hopens : o.opens i = true) (hend : o.afterGroup i ≤ i + n) :
    ∃ e, e < n ∧ o.partnerOf i = i + e ∧ o'.partnerOf i' = i' + e := by
  obtain ⟨m, hm, hlt, hcloses, hdepth, hinside⟩ := ho.closed i hopens
  have hpartner : o.partnerOf i = m := by simp [partnerOf, hm]
  rw [ho.afterGroup_eq hopens, hpartner] at hend
  obtain ⟨e, rfl⟩ : ∃ e, m = i + e := ⟨m - i, by omega⟩
  refine ⟨e, by omega, hpartner, ho'.partnerOf_eq ?_ (by omega) ?_ fun j hj hle => ?_⟩
  · rw [← hopens]
    exact (h.alike 0 hn).opens
  · have hbehind := h.depth (e + 1) (by omega)
    exact hbehind.trans (hdepth.trans (h.depth 0 (Nat.zero_le n)).symm)
  · obtain ⟨c, rfl⟩ : ∃ c, j = i' + c := ⟨j - i', by omega⟩
    have hdeep := hinside (i + c) (by omega) (by omega)
    rw [h.depth c (by omega)]
    exact (h.depth 0 (Nat.zero_le n)).symm ▸ hdeep

/-- A list of names in braces. -/
theorem specifierList {entries : List Specifier} (h : o.Shows o' i i' n) (ho : o.Regular)
    (ho' : o'.Nested) (hn : 0 < n) (hbrace : o.is i "\x7b" = true)
    (hend : o.afterGroup i ≤ i + n) (hentries : o.specifierList i = some entries) :
    ∃ e entries', o.afterGroup i = i + e ∧ o'.afterGroup i' = i' + e ∧
      o'.specifierList i' = some entries' := by
  have hopens := opens_of_brace hbrace
  have hopens' : o'.opens i' = true := by
    rw [← hopens]
    exact (h.alike 0 hn).opens
  obtain ⟨e, he, hpartner, hpartner'⟩ := h.group ho.nested ho' hn hopens hend
  have hcloses := ho.nested.closes_partnerOf hopens
  rw [hpartner] at hcloses
  have hsome := h.specifiers (d := 1) ho.worded hcloses he
  rw [Outline.specifierList, hpartner] at hentries
  rw [hentries] at hsome
  obtain ⟨entries', hentries'⟩ := Option.isSome_iff_exists.mp hsome
  refine ⟨e + 1, entries', ?_, ?_, ?_⟩
  · rw [ho.nested.afterGroup_eq hopens, hpartner]
    rfl
  · rw [ho'.afterGroup_eq hopens', hpartner']
    rfl
  · rw [Outline.specifierList, hpartner']
    exact hentries'

/-! ### Imports -/

variable {typeOnly t : Bool} {bindings : List Binding}

/-- The default binding of an import, with the token behind it. -/
theorem defaultClause (h : o.Shows o' i i' n) (hn : 0 < n)
    (hclause : o.defaultClause typeOnly i = .ok (bindings, k)) (hk : k < i + n) :
    ∃ e bindings', k = i + e ∧ o'.defaultClause t i' = .ok (bindings', i' + e) := by
  have hfirst : o.Alike o' i i' := h.alike 0 hn
  unfold Outline.defaultClause at hclause ⊢
  rw [hfirst.isBindable]
  split at hclause
  case isFalse hname =>
    cases hclause
    exact ⟨0, [], rfl, by rw [if_neg hname]; rfl⟩
  case isTrue hname =>
    simp only at hclause
    simp only [hname, if_true]
    split at hclause
    case isTrue hcomma =>
      cases hclause
      have hcomma' := hcomma
      rw [← (h.alike 1 (by omega)).is] at hcomma'
      exact ⟨2, _, rfl, if_pos hcomma'⟩
    case isFalse hcomma =>
      split at hclause
      case isFalse => cases hclause
      case isTrue hfrom =>
        cases hclause
        have hsecond : o.Alike o' (i + 1) (i' + 1) := h.alike 1 (by omega)
        rw [← hsecond.is] at hcomma hfrom
        exact ⟨1, _, rfl, by rw [if_neg hcomma, if_pos hfrom]⟩

/-- The namespace or the named bindings of an import, with the token behind them. -/
theorem namedClause (h : o.Shows o' i i' n) (ho : o.Regular) (ho' : o'.Nested) (hn : 0 < n)
    (hclause : o.namedClause typeOnly i = .ok (bindings, k)) (hk : k < i + n) :
    ∃ e bindings', k = i + e ∧ o'.namedClause t i' = .ok (bindings', i' + e) := by
  have hfirst : o.Alike o' i i' := h.alike 0 hn
  unfold Outline.namedClause at hclause ⊢
  rw [hfirst.is, hfirst.is]
  split at hclause
  case isTrue hstar =>
    split at hclause
    case isFalse => cases hclause
    case isTrue hname =>
      cases hclause
      have hname' := hname
      rw [← (h.alike 1 (by omega)).is, ← (h.alike 2 (by omega)).isBindable] at hname'
      exact ⟨3, _, rfl, by rw [if_pos hstar, if_pos hname']⟩
  case isFalse hstar =>
    split at hclause
    case isFalse hbrace =>
      cases hclause
      exact ⟨0, [], rfl, by rw [if_neg hstar, if_neg hbrace]; rfl⟩
    case isTrue hbrace =>
      split at hclause
      case h_1 => cases hclause
      case h_2 entries hentries =>
        cases hclause
        obtain ⟨e, entries', hend, hend', hentries'⟩ :=
          h.specifierList ho ho' hn hbrace (Nat.le_of_lt hk) hentries
        exact ⟨e, _, hend, by rw [if_neg hstar, if_pos hbrace, hentries', hend']⟩

/-- The word `from` and the literal behind it. -/
theorem source (h : o.Shows o' i i' n) (hd : d + 1 < n)
    (hfrom : (o.is (i + d) "from" && o.isString (i + d + 1)) = true) :
    (o'.is (i' + d) "from" && o'.isString (i' + d + 1)) = true := by
  have hliteral : o.Alike o' (i + d + 1) (i' + d + 1) := h.alike (d + 1) hd
  rw [(h.alike d (Nat.lt_of_succ_lt hd)).is, hliteral.isString, hfrom]

/-- The bindings of an import, with `from` and the literal behind it. -/
theorem importClause (h : o.Shows o' i i' n) (ho : o.Regular) (ho' : o'.Nested)
    (htop : o.AtTop i) (hclause : o.importClause typeOnly i = .ok (bindings, k))
    (hk : k + 2 ≤ i + n) : ∃ read, o'.importClause t i' = .ok read := by
  obtain ⟨⟨first, j⟩, hdefault, hclause⟩ := bind_ok hclause
  obtain ⟨⟨others, k'⟩, hnamed, hclause⟩ := bind_ok hclause
  simp only at hnamed hclause
  split at hclause
  case isFalse => cases hclause
  case isTrue hfrom =>
    obtain rfl : k' = k := congrArg Prod.snd (Except.ok.inj hclause)
    obtain ⟨hij, htop⟩ := htop.defaultClause ho hdefault
    have hjk := (htop.namedClause ho hnamed).1
    obtain ⟨d, first', rfl, hdefault'⟩ := h.defaultClause (t := t) (by omega)
      hdefault (by omega)
    obtain ⟨e, others', rfl, hnamed'⟩ := (h.shift (d := d) (by omega)).namedClause
      (t := t) ho ho' (by omega) hnamed (by omega)
    rw [Nat.add_assoc] at hfrom
    have hfrom' := h.source (by omega) hfrom
    rw [← Nat.add_assoc] at hfrom'
    simp only [Outline.importClause, hdefault', hnamed', bind, Except.bind, hfrom', if_true]
    exact ⟨_, rfl⟩

/-- Whether an import is one of types. -/
theorem importsTypes (h : o.Shows o' i i' n) (hn : 1 < n) :
    o'.importsTypes i' = o.importsTypes i := by
  have hfirst : o.Alike o' i i' := h.alike 0 (by omega)
  have hsecond : o.Alike o' (i + 1) (i' + 1) := h.alike 1 hn
  simp only [Outline.importsTypes, hfirst.is, hsecond.is, hsecond.isWord]

/-- **An import** that both outlines show as a whole. -/
theorem importing {s : Statement} (h : o.Shows o' i i' n) (ho : o.Regular) (ho' : o'.Nested)
    (htop : o.AtTop i) (himport : o.is i "import" = true)
    (hs : o.importing i = .ok (s, stop)) (hstop : stop ≤ i + n) :
    ∃ read, o'.importing i' = .ok read := by
  obtain ⟨hshort, hlong⟩ := le_of_importing ho htop himport hs
  have hsecond : o.Alike o' (i + 1) (i' + 1) := h.alike 1 (by omega)
  by_cases hstring : o.isString (i + 1) = true
  case pos =>
    have hstring' : o'.isString (i' + 1) = true := hsecond.isString.trans hstring
    have htypes : o'.importsTypes (i' + 1) = false := by
      simp [Outline.importsTypes, is_eq_false_of_isString hstring']
    simp only [Outline.importing, htypes, Bool.false_eq_true, if_false, hstring', if_true]
    exact ⟨_, rfl⟩
  have hlong := hlong (by simpa using hstring)
  have htypes := (h.shift (d := 1) (by omega)).importsTypes (by omega)
  have hat := htop.imported ho.nested himport
  unfold Outline.importing at hs ⊢
  simp only [htypes] at hs ⊢
  obtain ⟨d, hd, hj, hj'⟩ : ∃ d ≤ 2, (if o.importsTypes (i + 1) then i + 2 else i + 1) = i + d ∧
      (if o.importsTypes (i + 1) then i' + 2 else i' + 1) = i' + d := by
    cases o.importsTypes (i + 1)
    · exact ⟨1, by omega, rfl, rfl⟩
    · exact ⟨2, by omega, rfl, rfl⟩
  rw [hj] at hs hat
  rw [hj', (h.alike d (by omega)).isString, (h.alike d (by omega)).isBindable]
  split at hs
  case isTrue hliteral =>
    rw [if_pos hliteral]
    exact ⟨_, rfl⟩
  case isFalse hliteral =>
    rw [if_neg hliteral]
    split at hs
    case isTrue hequals =>
      cases hs
      obtain ⟨hname, hmark⟩ := Bool.and_eq_true_iff.mp hequals
      have hle := le_statementEnd ho.worded hname hmark
      have hbehind : o.Alike o' (i + d + 1) (i' + d + 1) := h.alike (d + 1) (by omega)
      rw [hbehind.is, if_pos hequals]
      exact ⟨_, rfl⟩
    case isFalse =>
      split at hs
      case h_1 => cases hs
      case h_2 bindings k hclause =>
        cases hs
        obtain ⟨hle, htop'⟩ := hat.importClause ho hclause
        have hreach := (ends_moduleEnd ho.nested htop').reach
        obtain ⟨read, hread⟩ := (h.shift (d := d) (by omega)).importClause ho ho' hat
          (t := o.importsTypes (i + 1)) hclause (by omega)
        rw [hread]
        split
        · exact ⟨_, rfl⟩
        · exact ⟨_, rfl⟩

/-! ### Exports -/

/-- The export of everything, or of everything under a name. -/
theorem starExport {first first' : Nat} {s : Statement} (h : o.Shows o' i i' n)
    (hs : o.starExport first typeOnly i = .ok (s, stop)) (hstop : stop ≤ i + n) :
    ∃ read, o'.starExport first' t i' = .ok read := by
  unfold Outline.starExport at hs ⊢
  simp only at hs ⊢
  obtain ⟨d, hd, hj⟩ : ∃ d, (d = 3 ∧ (o.is (i + 1) "as" && o.isSpelled (i + 2)) = true ∨
      d = 1 ∧ (o.is (i + 1) "as" && o.isSpelled (i + 2)) = false) ∧
      (if o.is (i + 1) "as" && o.isSpelled (i + 2) then i + 3 else i + 1) = i + d := by
    cases o.is (i + 1) "as" && o.isSpelled (i + 2)
    · exact ⟨1, .inr ⟨rfl, rfl⟩, rfl⟩
    · exact ⟨3, .inl ⟨rfl, rfl⟩, rfl⟩
  rw [hj] at hs
  split at hs
  case isFalse => cases hs
  case isTrue hfrom =>
    cases hs
    have hle := le_moduleEnd (o := o) (i + d + 2)
    have hsecond : o.Alike o' (i + 1) (i' + 1) := h.alike 1 (by omega)
    have hj' : (if o'.is (i' + 1) "as" && o'.isSpelled (i' + 2) then i' + 3 else i' + 1) =
        i' + d := by
      rw [hsecond.is]
      rcases hd with ⟨rfl, hname⟩ | ⟨rfl, _⟩
      · have hthird : o.Alike o' (i + 2) (i' + 2) := h.alike 2 (by omega)
        rw [hthird.isSpelled, if_pos hname]
      · have has : o.is (i + 1) "as" = false :=
          is_eq_false (Bool.and_eq_true_iff.mp hfrom).1 (by decide)
        rw [has, Bool.false_and]
        rfl
    rw [hj', if_pos (h.source (by omega) hfrom)]
    exact ⟨_, rfl⟩

/-- A list of exports, which needs no more than its braces. -/
theorem listExport {first first' : Nat} {s : Statement} (h : o.Shows o' i i' n)
    (ho : o.Regular) (ho' : o'.Nested) (hbrace : o.is i "\x7b" = true)
    (hs : o.listExport first typeOnly i = .ok (s, stop)) (hstop : stop ≤ i + n) :
    ∃ read, o'.listExport first' t i' = .ok read := by
  have hlt := o.lt_afterGroup i
  have hend := afterGroup_le_of_listExport hs
  unfold Outline.listExport at hs ⊢
  split at hs
  case h_1 => cases hs
  case h_2 entries hentries =>
    obtain ⟨e, entries', _, _, hentries'⟩ :=
      h.specifierList ho ho' (by omega) hbrace (by omega) hentries
    rw [hentries']
    simp only
    split
    · exact ⟨_, rfl⟩
    · exact ⟨_, rfl⟩

/-- **An export** of names that both outlines show as a whole. -/
theorem exporting {s : Statement} (h : o.Shows o' i i' n) (ho : o.Regular) (ho' : o'.Nested)
    (hlists : o.listsNames i = true) (hs : o.exporting i = .ok (s, stop))
    (hstop : stop ≤ i + n) : ∃ read, o'.exporting i' = .ok read := by
  obtain ⟨d, hd, hmark⟩ := exists_of_listsNames hlists
  obtain ⟨typeOnly, hread⟩ := exporting_eq hd hmark
  rw [hread] at hs
  have hlt : i + d < stop := by
    split at hs
    · exact lt_of_starExport hs
    · exact Nat.lt_of_lt_of_le (o.lt_afterGroup _) (afterGroup_le_of_listExport hs)
  have hd' : d = 1 ∨ d = 2 ∧ o'.is (i' + 1) "type" = true := by
    refine hd.imp_right fun ⟨htwo, htype⟩ => ⟨htwo, ?_⟩
    have hsecond : o.Alike o' (i + 1) (i' + 1) := h.alike 1 (by omega)
    rw [hsecond.is, htype]
  have hat : o.Alike o' (i + d) (i' + d) := h.alike d (by omega)
  obtain ⟨t, hread'⟩ := exporting_eq (o := o') (i := i') hd' (by rwa [hat.is, hat.is])
  have hshift := h.shift (d := d) (by omega)
  rw [hread', hat.is]
  split at hs
  case isTrue hstar =>
    rw [if_pos hstar]
    exact hshift.starExport hs (by omega)
  case isFalse hstar =>
    rw [if_neg hstar]
    exact hshift.listExport ho ho' (hmark.resolve_left hstar) hs (by omega)

end Shows

end Outline

end ScriptLint
