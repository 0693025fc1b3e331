/-
Cutting a markup file without its `debugger` statements.

What is deleted lies within script elements, so all tags stay as they are.  If no element comes to
hold a closing tag, a markup file without the `debugger` statements is cut into its segments
without theirs:

* **`Bytes.find?_append_left`**, **`OpenTag.parseFrom_append_left`** — what is found in the
  beginning of a text does not depend on what follows;
* **`Segment.exists_cut`** — a text begins with what is passed, or with a script element;
* **`Segment.ofMarkupFrom_without`** — what is cut out of the rest of a file.
-/
import ScriptLint.Proofs.Markup
import ScriptLint.Proofs.Settling

namespace ScriptLint

variable {text rest rest' : Bytes}

/-! ### The beginning of a text -/

namespace Bytes

variable {pattern : Bytes} {n : Nat}

theorem startsWith_append_left (h : pattern.length ≤ text.length) :
    startsWith (text ++ rest) pattern = startsWith (text ++ rest') pattern := by
  have hforth {rest rest' : Bytes} (hstart : startsWith (text ++ rest) pattern = true) :
      startsWith (text ++ rest') pattern = true := by
    have hbegin := List.prefix_of_prefix_length_le (List.isPrefixOf_iff_prefix.mp hstart)
      (List.prefix_append text rest) h
    exact List.isPrefixOf_iff_prefix.mpr (hbegin.trans (List.prefix_append text rest'))
  exact Bool.eq_iff_iff.mpr ⟨hforth, hforth⟩

/-- What is found as a whole in the beginning of a text is found there whatever follows. -/
theorem find?_append_left (hn : n + pattern.length ≤ text.length)
    (h : find? pattern (text ++ rest) = some n) : find? pattern (text ++ rest') = some n := by
  induction text generalizing n with
  | nil =>
    simp only [List.length_nil, Nat.le_zero, Nat.add_eq_zero_iff, List.length_eq_zero_iff] at hn
    obtain ⟨rfl, rfl⟩ := hn
    cases rest' <;> rfl
  | cons b text ih =>
    have hstart : startsWith (b :: (text ++ rest)) pattern =
        startsWith (b :: (text ++ rest')) pattern := by
      simp only [← List.cons_append]
      exact startsWith_append_left (by omega)
    rw [List.cons_append, find?, hstart] at h
    rw [List.cons_append, find?]
    split at h
    case isTrue hfirst => rw [if_pos hfirst, h]
    case isFalse hfirst =>
      obtain ⟨m, hm, rfl⟩ := Option.map_eq_some_iff.mp h
      rw [if_neg hfirst, ih (by simp only [List.length_cons] at hn; omega) hm]
      rfl

theorem findFolded?_append_left (hn : n + pattern.length ≤ text.length)
    (h : findFolded? pattern (text ++ rest) = some n) :
    findFolded? pattern (text ++ rest') = some n := by
  rw [findFolded?, List.map_append] at h ⊢
  exact find?_append_left (by rwa [List.length_map]) h

/-- What is found lies in the text. -/
theorem find?_inside (hpattern : pattern ≠ []) (h : find? pattern text = some n) :
    n + pattern.length ≤ text.length := by
  obtain ⟨before, after, rfl, rfl, _⟩ := find?_split hpattern h
  simp only [List.length_append]
  omega

theorem findFolded?_inside (hpattern : pattern ≠ []) (h : findFolded? pattern text = some n) :
    n + pattern.length ≤ text.length := by
  simpa using find?_inside hpattern h

end Bytes

theorem takeWhile_append_left {p : UInt8 → Bool}
    (h : ((text ++ rest).takeWhile p).length < text.length) :
    (text ++ rest').takeWhile p = (text ++ rest).takeWhile p := by
  induction text with
  | nil => cases h
  | cons b text ih =>
    simp only [List.cons_append, List.takeWhile_cons] at h ⊢
    split
    case isTrue hb =>
      rw [if_pos hb] at h
      rw [ih (by simp only [List.length_cons] at h; omega)]
    case isFalse => rfl

namespace OpenTag

variable {language language' : Option Bytes} {before : UInt8} {tag : OpenTag} {content : Bytes}
  {taken : Nat}

/-- The value of an attribute does not depend on what follows. -/
theorem value_append_left (h : value (text ++ rest) = some (content, taken))
    (htaken : taken < text.length) : value (text ++ rest') = some (content, taken) := by
  cases text with
  | nil => cases htaken
  | cons b text =>
    simp only [List.cons_append, value] at h ⊢
    split at h
    case isTrue hname => rw [if_pos hname, h]
    case isFalse hname =>
      rw [if_neg hname]
      cases text with
      | nil =>
        -- the equals sign is taken
        exfalso
        rw [List.length_singleton, Nat.lt_one_iff] at htaken
        subst htaken
        split at h
        · cases h
        · split at h
          · split at h <;> cases h
          · cases h
      | cons quote text =>
        simp only [List.cons_append] at h ⊢
        split at h
        case isTrue hquote =>
          rw [if_pos hquote]
          split at h
          case isTrue => cases h
          case isFalse hclosed =>
            obtain ⟨rfl, rfl⟩ := Prod.ext_iff.mp (Option.some.inj h)
            simp only [List.length_cons] at htaken
            have hsame : (text ++ rest').takeWhile (· != quote) =
                (text ++ rest).takeWhile (· != quote) := takeWhile_append_left (by omega)
            rw [hsame, if_neg (by rw [List.length_append]; omega)]
        case isFalse hquote =>
          rw [if_neg hquote]
          obtain ⟨rfl, rfl⟩ := Prod.ext_iff.mp (Option.some.inj h)
          simp only [List.length_cons] at htaken
          have hsame : (quote :: text ++ rest').takeWhile isValueByte =
              (quote :: text ++ rest).takeWhile isValueByte :=
            takeWhile_append_left (by simp only [List.length_cons, List.cons_append]; omega)
          rw [List.cons_append, List.cons_append] at hsame
          rw [hsame]

/-- A tag that is read lies in the text. -/
theorem length_of_parseFrom (h : parseFrom before language text = some tag) :
    0 < tag.length ∧ tag.length ≤ text.length := by
  fun_induction parseFrom before language text generalizing tag with
  | case1 => cases h
  | case2 =>
    rw [← Option.some.inj h]
    exact ⟨Nat.one_pos, Nat.succ_pos _⟩
  | case3 _ _ _ _ _ _ ih =>
    obtain ⟨tag', htag', rfl⟩ := Option.map_eq_some_iff.mp h
    have := ih htag'
    simp only [grow, List.length_cons]
    omega
  | case4 => cases h
  | case5 =>
    rename_i ih
    obtain ⟨tag', htag', rfl⟩ := Option.map_eq_some_iff.mp h
    have := ih htag'
    simp only [grow, List.length_cons, List.length_drop] at this ⊢
    omega

/-- **A tag that ends in the beginning of a text** is read there whatever follows. -/
theorem parseFrom_append_left (h : parseFrom before language (text ++ rest) = some tag)
    (htag : tag.length ≤ text.length) :
    parseFrom before language (text ++ rest') = some tag := by
  induction hn : text.length using Nat.strongRecOn generalizing before language text tag with
  | _ n ih =>
    cases text with
    | nil =>
      have := (length_of_parseFrom h).1
      simp only [List.length_nil] at htag
      omega
    | cons b text =>
      simp only [List.length_cons] at htag hn
      rw [List.cons_append, parseFrom] at h
      rw [List.cons_append, parseFrom]
      split at h
      case isTrue hend => rw [if_pos hend, h]
      rename_i hend
      rw [if_neg hend]
      split at h
      case isTrue hblank =>
        obtain ⟨tag', htag', rfl⟩ := Option.map_eq_some_iff.mp h
        simp only [grow] at htag
        rw [if_pos hblank, ih _ (by omega) htag' (by omega) rfl]
        rfl
      case isFalse hblank =>
        rw [if_neg hblank]
        simp only at h ⊢
        cases hvalue : value ((b :: (text ++ rest)).drop
            ((b :: (text ++ rest)).takeWhile isNameByte).length) with
        | none => simp [hvalue] at h
        | some x =>
          obtain ⟨content, taken⟩ := x
          simp only [hvalue] at h
          obtain ⟨tag', htag', rfl⟩ := Option.map_eq_some_iff.mp h
          have := (length_of_parseFrom htag').1
          simp only [grow] at htag
          have hname : (b :: text ++ rest').takeWhile isNameByte =
              (b :: text ++ rest).takeWhile isNameByte :=
            takeWhile_append_left (by simp only [List.length_cons, List.cons_append]; omega)
          simp only [List.cons_append] at hname
          rw [hname]
          generalize (b :: (text ++ rest)).takeWhile isNameByte = name at hvalue htag htag' ⊢
          have hinside : name.length ≤ (b :: text).length := by
            rw [List.length_cons]
            omega
          have hdrop (rest : Bytes) : (b :: (text ++ rest)).drop name.length =
              (b :: text).drop name.length ++ rest := by
            rw [← List.cons_append, List.drop_append_of_le_length hinside]
          have hvalue' : value ((b :: (text ++ rest')).drop name.length) =
              some (content, taken) := by
            rw [hdrop] at hvalue ⊢
            exact value_append_left hvalue (by rw [List.length_drop, List.length_cons]; omega)
          have hextra : name.length + taken - 1 ≤ text.length := by omega
          rw [List.take_append_of_le_length hextra, List.drop_append_of_le_length hextra] at htag'
          simp only [hvalue', List.take_append_of_le_length hextra,
            List.drop_append_of_le_length hextra]
          rw [ih _ (by rw [List.length_drop]; omega) htag' (by rw [List.length_drop]; omega) rfl]
          rfl

end OpenTag

/-! ### How the beginning of a markup text is cut -/

namespace Segment

variable {pos : Nat} {segments : List Segment}

/-- The beginning of a text is passed; of what follows only the first byte is looked at. -/
def Passes (head rest : Bytes) : Prop :=
  ∀ pos rest', rest'.head? = rest.head? →
    ofMarkupFrom pos (head ++ rest') = ofMarkupFrom (pos + head.length) rest'

/-- The beginning of a text opens a script element of a flavour, and what stands behind the
contents closes it, if they hold no closing tag. -/
def Opens (head closing rest : Bytes) (dialect : Dialect) : Prop :=
  ∀ pos content rest', ¬ ("</script" : Bytes) <:+: content.map Bytes.toLower →
    rest'.head? = rest.head? →
    ofMarkupFrom pos (head ++ (content ++ (closing ++ rest'))) =
      (ofMarkupFrom (pos + head.length + content.length + closing.length) rest').map
        (⟨content, (pos + head.length).toUInt32, dialect⟩ :: ·)

variable {head : Bytes} {tag comment n : Nat}

theorem filter_comment (h : ∀ comment, Bytes.find? "<!--" text = some comment → tag ≤ comment) :
    (Bytes.find? "<!--" text).filter (· < tag) = none := by
  rw [Option.filter_eq_none_iff]
  intro comment hfind
  simpa using h comment hfind

/-- A script tag with another name is passed. -/
theorem ofMarkupFrom_of_other (htag : Bytes.findFolded? "<script" text = some tag)
    (hcomment : ∀ comment, Bytes.find? "<!--" text = some comment → tag ≤ comment)
    (hname : (text.drop (tag + 7)).head?.any (!endsTagName ·) = true) :
    ofMarkupFrom pos text = ofMarkupFrom (pos + (tag + 7)) (text.drop (tag + 7)) := by
  rw [ofMarkupFrom]
  split
  · rename_i h
    rw [htag] at h
    cases h
  · rename_i tag' htag'
    obtain rfl := Option.some.inj (htag.symm.trans htag')
    simp only [filter_comment hcomment, hname, if_true]

/-- A script tag that does not end. -/
theorem ofMarkupFrom_of_openTag (htag : Bytes.findFolded? "<script" text = some tag)
    (hcomment : ∀ comment, Bytes.find? "<!--" text = some comment → tag ≤ comment)
    (hname : (text.drop (tag + 7)).head?.any (!endsTagName ·) = false)
    (hopening : OpenTag.parse (text.drop (tag + 7)) = none) : ofMarkupFrom pos text =
      .error ⟨.openScriptTag, .ofOffsets (pos + tag) (pos + text.length)⟩ := by
  rw [ofMarkupFrom]
  split
  · rename_i h
    rw [htag] at h
    cases h
  · rename_i tag' htag'
    obtain rfl := Option.some.inj (htag.symm.trans htag')
    simp only [filter_comment hcomment, hname, hopening, Bool.false_eq_true, if_false]

/-- A comment in the beginning of a text, before the first script tag. -/
theorem passes_comment
    (htag : ∀ tag, Bytes.findFolded? "<script" (head ++ rest) = some tag → comment < tag)
    (hcomment : Bytes.find? "<!--" (head ++ rest) = some comment)
    (hend : Bytes.find? "-->" ((head ++ rest).drop (comment + 4)) = some n)
    (hlength : head.length = comment + n + 7) : Passes head rest := by
  intro pos rest' _
  have hdrop (rest : Bytes) : (head ++ rest).drop (comment + 4) = head.drop (comment + 4) ++ rest :=
    List.drop_append_of_le_length (by omega)
  have hrest : (head ++ rest').drop (comment + n + 7) = rest' := by rw [← hlength, List.drop_left]
  have hcomment' : Bytes.find? "<!--" (head ++ rest') = some comment := by
    refine Bytes.find?_append_left ?_ hcomment
    rw [show ("<!--" : Bytes).length = 4 by decide]
    omega
  have hend' : Bytes.find? "-->" ((head ++ rest').drop (comment + 4)) = some n := by
    rw [hdrop] at hend ⊢
    refine Bytes.find?_append_left ?_ hend
    rw [show ("-->" : Bytes).length = 3 by decide, List.length_drop]
    omega
  have htag' : ∀ tag, Bytes.findFolded? "<script" (head ++ rest') = some tag → comment < tag := by
    intro tag hfind
    by_contra hle
    refine hle (htag tag (Bytes.findFolded?_append_left ?_ hfind))
    rw [show ("<script" : Bytes).length = 7 by decide]
    omega
  rw [ofMarkupFrom_of_comment htag' hcomment' hend', hrest, hlength]

/-- A script tag in the beginning of a text, before the first comment. -/
theorem tag_append_left (hlength : tag + 7 ≤ head.length)
    (htag : Bytes.findFolded? "<script" (head ++ rest) = some tag)
    (hcomment : ∀ comment, Bytes.find? "<!--" (head ++ rest) = some comment → tag ≤ comment) :
    Bytes.findFolded? "<script" (head ++ rest') = some tag ∧
      ∀ comment, Bytes.find? "<!--" (head ++ rest') = some comment → tag ≤ comment := by
  constructor
  · refine Bytes.findFolded?_append_left ?_ htag
    rwa [show ("<script" : Bytes).length = 7 by decide]
  · intro comment hfind
    by_contra hlt
    refine hlt (hcomment comment (Bytes.find?_append_left ?_ hfind))
    rw [show ("<!--" : Bytes).length = 4 by decide]
    omega

theorem passes_other (hlength : head.length = tag + 7)
    (htag : Bytes.findFolded? "<script" (head ++ rest) = some tag)
    (hcomment : ∀ comment, Bytes.find? "<!--" (head ++ rest) = some comment → tag ≤ comment)
    (hname : rest.head?.any (!endsTagName ·) = true) : Passes head rest := by
  intro pos rest' hrest
  obtain ⟨htag', hcomment'⟩ := tag_append_left (by omega) htag hcomment
  have hdrop : (head ++ rest').drop (tag + 7) = rest' := by rw [← hlength, List.drop_left]
  rw [ofMarkupFrom_of_other htag' hcomment' (by rw [hdrop, hrest, hname]), hdrop, hlength]

variable {opening : OpenTag}

/-- The opening tag of a script element in the beginning of a text. -/
theorem opening_append_left (hlength : head.length = tag + 7 + opening.length)
    (hname : ((head ++ rest).drop (tag + 7)).head?.any (!endsTagName ·) = false)
    (hopening : OpenTag.parse ((head ++ rest).drop (tag + 7)) = some opening) :
    ((head ++ rest').drop (tag + 7)).head?.any (!endsTagName ·) = false ∧
      OpenTag.parse ((head ++ rest').drop (tag + 7)) = some opening := by
  have hpos := (OpenTag.length_of_parseFrom hopening).1
  have hdrop (rest : Bytes) : (head ++ rest).drop (tag + 7) = head.drop (tag + 7) ++ rest :=
    List.drop_append_of_le_length (by omega)
  have hsize : (head.drop (tag + 7)).length = opening.length := by
    rw [List.length_drop]
    omega
  rw [hdrop] at hname hopening ⊢
  refine ⟨?_, OpenTag.parseFrom_append_left hopening (Nat.le_of_eq hsize.symm)⟩
  cases hhead : head.drop (tag + 7) with
  | nil =>
    rw [hhead, List.length_nil] at hsize
    omega
  | cons b more =>
    rw [hhead] at hname
    exact hname

theorem passes_selfClosing (hlength : head.length = tag + 7 + opening.length)
    (htag : Bytes.findFolded? "<script" (head ++ rest) = some tag)
    (hcomment : ∀ comment, Bytes.find? "<!--" (head ++ rest) = some comment → tag ≤ comment)
    (hname : ((head ++ rest).drop (tag + 7)).head?.any (!endsTagName ·) = false)
    (hopening : OpenTag.parse ((head ++ rest).drop (tag + 7)) = some opening)
    (hself : opening.selfClosing = true) : Passes head rest := by
  intro pos rest' _
  obtain ⟨htag', hcomment'⟩ := tag_append_left (by omega) htag hcomment
  obtain ⟨hname', hopening'⟩ := opening_append_left hlength hname hopening
  rw [ofMarkupFrom_of_tag htag' hcomment' hname' hopening']
  simp only [hself, if_true]
  rw [← hlength, List.drop_left]

/-- The end of a closing tag in the beginning of a text, or of the text. -/
def Closes (closing rest : Bytes) : Prop :=
  ("</script" : Bytes) <+: closing.map Bytes.toLower ∧ ∀ rest', rest'.head? = rest.head? →
    (closing ++ rest').drop (((closing ++ rest').takeWhile (!OpenTag.isTagEnd ·)).length + 1) =
      rest'

theorem opens_block {closing : Bytes} (hlength : head.length = tag + 7 + opening.length)
    (htag : Bytes.findFolded? "<script" (head ++ rest) = some tag)
    (hcomment : ∀ comment, Bytes.find? "<!--" (head ++ rest) = some comment → tag ≤ comment)
    (hname : ((head ++ rest).drop (tag + 7)).head?.any (!endsTagName ·) = false)
    (hopening : OpenTag.parse ((head ++ rest).drop (tag + 7)) = some opening)
    (hself : opening.selfClosing = false) {behind : Bytes} (hcloses : Closes closing behind) :
    Opens head closing behind (.ofLanguage opening.language) := by
  intro pos content rest' hcontent hrest
  obtain ⟨htag', hcomment'⟩ := tag_append_left (by omega) htag hcomment
  obtain ⟨hname', hopening'⟩ := opening_append_left hlength hname hopening
  obtain ⟨⟨more, hclosing⟩, hend⟩ := hcloses
  -- the contents end where the closing tag begins
  have hfirst : ('<' : UInt8) ∉ ("/script" : Bytes) := by decide
  have hlower : (closing ++ rest').map Bytes.toLower =
      "</script" ++ (more ++ rest'.map Bytes.toLower) := by
    rw [List.map_append, ← hclosing, List.append_assoc]
  have hhead : ∀ b ∈ ((closing ++ rest').map Bytes.toLower).head?, b = '<' := by
    rw [hlower]
    exact fun b hb => (Option.some.inj hb).symm
  have hfound : Bytes.findFolded? "</script" (content ++ (closing ++ rest')) =
      some content.length := by
    have h := Bytes.find?_append hfirst hcontent hhead
    have hself := Bytes.find?_self "</script" (more ++ rest'.map Bytes.toLower)
    rw [hlower, List.length_map] at h
    rw [Bytes.findFolded?, List.map_append, hlower]
    exact h.trans ((congrArg _ hself).trans (congrArg some (Nat.zero_add _)))
  have hslice : Bytes.slice (head ++ (content ++ (closing ++ rest'))) head.length content.length =
      content := by
    rw [Bytes.slice, List.drop_left, List.take_left]
  have hbehind := hend rest' hrest
  rw [ofMarkupFrom_of_tag htag' hcomment' hname' hopening', ← hlength]
  simp only [hself, Bool.false_eq_true, if_false, List.drop_left, hfound, hslice, Nat.add_assoc,
    List.drop_length_add_append, hbehind]
  -- an offset behind the end of the file does not matter
  cases rest' with
  | nil => rw [ofMarkupFrom_of_none rfl, ofMarkupFrom_of_none rfl]
  | cons b rest' =>
    have hsize := congrArg List.length hbehind
    simp only [List.length_drop, List.length_append, List.length_cons] at hsize
    rw [show ((closing ++ b :: rest').takeWhile (!OpenTag.isTagEnd ·)).length + 1 =
      closing.length by omega]

/-- A comment that does not end, before the first script tag. -/
theorem ofMarkupFrom_of_openComment
    (hcomment : (Bytes.find? "<!--" text).filter (· < tag) = some comment)
    (htag : Bytes.findFolded? "<script" text = some tag)
    (hend : Bytes.find? "-->" (text.drop (comment + 4)) = none) :
    ofMarkupFrom pos text = .ok [] := by
  rw [ofMarkupFrom]
  split
  · rfl
  · rename_i tag' htag'
    obtain rfl := Option.some.inj (htag.symm.trans htag')
    simp only [hcomment, hend]

/-- The closing tag that a text begins with. -/
theorem exists_closing (h : ("</script" : Bytes) <+: text.map Bytes.toLower) :
    ∃ closing rest, text = closing ++ rest ∧ Closes closing rest := by
  generalize hstop : (text.takeWhile (!OpenTag.isTagEnd ·)).length + 1 = stop
  refine ⟨text.take stop, text.drop stop, (List.take_append_drop stop text).symm, ?_⟩
  constructor
  · obtain ⟨more, hmore⟩ := h
    obtain ⟨name, text, rfl, hname, -⟩ := List.map_eq_append_iff.mp hmore.symm
    -- no `>` is among the first bytes
    have hinside : ∀ b ∈ name, (!OpenTag.isTagEnd b) = true := by
      intro b hb
      rw [Bool.not_eq_true', OpenTag.isTagEnd, beq_eq_false_iff_ne]
      rintro rfl
      have hlower : Bytes.toLower '>' ∈ name.map Bytes.toLower := List.mem_map_of_mem hb
      rw [hname] at hlower
      exact absurd hlower (by decide)
    rw [List.takeWhile_append_of_pos hinside, List.length_append, Nat.add_assoc] at hstop
    rw [← hstop, List.take_length_add_append, List.map_append, hname]
    exact List.prefix_append _ _
  · intro rest' hrest
    by_cases hend : (text.takeWhile (!OpenTag.isTagEnd ·)).length < text.length
    · have hsize : (text.take stop).length = stop := by
        rw [List.length_take]
        omega
      have hsame : (text.take stop ++ rest').takeWhile (!OpenTag.isTagEnd ·) =
          (text.take stop ++ text.drop stop).takeWhile (!OpenTag.isTagEnd ·) := by
        refine takeWhile_append_left ?_
        rw [List.take_append_drop, hsize]
        omega
      rw [hsame, List.take_append_drop, hstop]
      exact List.drop_left' hsize
    · have hall : text.length ≤ stop := by omega
      rw [List.drop_eq_nil_of_le hall] at hrest
      obtain rfl := List.head?_eq_none_iff.mp hrest
      rw [List.append_nil, List.take_of_length_le hall, hstop, List.drop_eq_nil_of_le hall]

/-- The script element that a tag before the first comment opens. -/
theorem exists_block (htag : Bytes.findFolded? "<script" text = some tag)
    (hcomment : ∀ comment, Bytes.find? "<!--" text = some comment → tag ≤ comment)
    (hname : (text.drop (tag + 7)).head?.any (!endsTagName ·) = false)
    (hopening : OpenTag.parse (text.drop (tag + 7)) = some opening)
    (hself : opening.selfClosing = false) {start : Nat} (hstart : tag + 7 + opening.length = start)
    (hsize : (text.take start).length = start) (h : ofMarkupFrom pos text = .ok segments) :
    ∃ content closing rest, text = text.take start ++ (content ++ (closing ++ rest)) ∧
      ¬ ("</script" : Bytes) <:+: content.map Bytes.toLower ∧
        Opens (text.take start) closing rest (.ofLanguage opening.language) := by
  cases hclosing : Bytes.findFolded? "</script" (text.drop start) with
  | none =>
    rw [ofMarkupFrom_of_tag htag hcomment hname hopening, hstart] at h
    simp only [hself, Bool.false_eq_true, if_false, hclosing] at h
    cases h
  | some length =>
    obtain ⟨before, after, hlower, rfl, hbefore⟩ := Bytes.find?_split (by decide) hclosing
    have hcontent : ((text.drop start).take before.length).map Bytes.toLower = before := by
      rw [List.map_take, hlower, List.take_left]
    have hbehind : ("</script" : Bytes) <+:
        ((text.drop start).drop before.length).map Bytes.toLower := by
      rw [List.map_drop, hlower, List.drop_left]
      exact List.prefix_append _ _
    obtain ⟨closing, rest, hcut, hcloses⟩ := exists_closing hbehind
    rw [← List.take_append_drop start text] at htag hcomment hname hopening
    refine ⟨(text.drop start).take before.length, closing, rest, ?_, hcontent.symm ▸ hbefore,
      opens_block (hsize.trans hstart.symm) htag hcomment hname hopening hself hcloses⟩
    rw [← hcut, List.take_append_drop, List.take_append_drop]

/-- **How the beginning of a markup text is cut**: nothing is cut out of the text, its beginning is
passed, or it begins with what opens a script element. -/
theorem exists_cut (h : ofMarkupFrom pos text = .ok segments) :
    (segments = [] ∧ ∀ pos, ofMarkupFrom pos text = .ok []) ∨
    (∃ head rest, text = head ++ rest ∧ head ≠ [] ∧ Passes head rest) ∨
    ∃ head content closing rest dialect, text = head ++ (content ++ (closing ++ rest)) ∧
      head ≠ [] ∧ ¬ ("</script" : Bytes) <:+: content.map Bytes.toLower ∧
        Opens head closing rest dialect := by
  have hsplit (n : Nat) : text = text.take n ++ text.drop n := (List.take_append_drop n text).symm
  have hsize {n : Nat} (hn : n ≤ text.length) : (text.take n).length = n := by
    rw [List.length_take, Nat.min_eq_left hn]
  have hhead {n : Nat} (hn : n ≤ text.length) (hpos : 0 < n) : text.take n ≠ [] :=
    List.ne_nil_of_length_pos (by rwa [hsize hn])
  cases htag : Bytes.findFolded? "<script" text with
  | none =>
    have hnone (pos : Nat) : ofMarkupFrom pos text = .ok [] := ofMarkupFrom_of_none htag
    exact .inl ⟨Except.ok.inj (h.symm.trans (hnone pos)), hnone⟩
  | some tag =>
    have hinside := Bytes.findFolded?_inside (by decide) htag
    rw [show ("<script" : Bytes).length = 7 by decide] at hinside
    cases hfilter : (Bytes.find? "<!--" text).filter (· < tag) with
    | some comment =>
      obtain ⟨hcomment, hbefore⟩ := Option.filter_eq_some_iff.mp hfilter
      cases hend : Bytes.find? "-->" (text.drop (comment + 4)) with
      | none =>
        have hnone (pos : Nat) : ofMarkupFrom pos text = .ok [] :=
          ofMarkupFrom_of_openComment hfilter htag hend
        exact .inl ⟨Except.ok.inj (h.symm.trans (hnone pos)), hnone⟩
      | some n =>
        have hends := Bytes.find?_inside (by decide) hend
        rw [show ("-->" : Bytes).length = 3 by decide, List.length_drop] at hends
        have hfirst : ∀ tag, Bytes.findFolded? "<script" text = some tag → comment < tag := by
          intro tag' htag'
          rw [htag] at htag'
          simpa [← Option.some.inj htag'] using hbefore
        have hstop : comment + n + 7 ≤ text.length := by omega
        rw [hsplit (comment + n + 7)] at hfirst hcomment hend
        exact .inr (.inl ⟨_, _, hsplit _, hhead hstop (by omega),
          passes_comment hfirst hcomment hend (hsize hstop)⟩)
    | none =>
      have hcomment : ∀ comment, Bytes.find? "<!--" text = some comment → tag ≤ comment := by
        intro comment hfind
        simpa using Option.filter_eq_none_iff.mp hfilter comment hfind
      cases hname : (text.drop (tag + 7)).head?.any (!endsTagName ·) with
      | true =>
        rw [hsplit (tag + 7)] at htag hcomment
        exact .inr (.inl ⟨_, _, hsplit _, hhead hinside (by omega),
          passes_other (hsize hinside) htag hcomment hname⟩)
      | false =>
        cases hopening : OpenTag.parse (text.drop (tag + 7)) with
        | none =>
          rw [ofMarkupFrom_of_openTag htag hcomment hname hopening] at h
          cases h
        | some opening =>
          have hends := (OpenTag.length_of_parseFrom hopening).2
          rw [List.length_drop] at hends
          generalize hstart : tag + 7 + opening.length = start
          have hstop : start ≤ text.length := by omega
          cases hself : opening.selfClosing with
          | true =>
            rw [hsplit start] at htag hcomment hname hopening
            exact .inr (.inl ⟨_, _, hsplit start, hhead hstop (by omega), passes_selfClosing
              ((hsize hstop).trans hstart.symm) htag hcomment hname hopening hself⟩)
          | false =>
            obtain ⟨content, closing, rest, hcut, hcontent, hopens⟩ :=
              exists_block htag hcomment hname hopening hself hstart (hsize hstop) h
            exact .inr (.inr ⟨_, content, closing, rest, _, hcut, hhead hstop (by omega), hcontent,
              hopens⟩)

/-! ### Segments without their `debugger` statements -/

variable {s : Segment}

/-- Outside of a segment none of its `debugger` statements stands. -/
theorem not_covered_debuggers (hlength : text.length < 2 ^ 32) (hs : s.LiesIn text) {i : Nat}
    (hi : i < s.offset.toNat ∨ s.offset.toNat + s.text.length ≤ i) :
    Span.covered s.debuggers i = false := by
  rw [Bool.eq_false_iff]
  intro hcovered
  obtain ⟨place, hplace, hstart, hstop⟩ := Span.covered_iff.mp hcovered
  have := (debuggers_lie hlength hs).1 place hplace
  omega

/-- Before the offset from which on segments lie none of their `debugger` statements stands. -/
theorem not_covered_laid (hlength : text.length < 2 ^ 32) (h : LaidFrom text pos segments)
    {i : Nat} (hi : i < pos) : Span.covered (segments.flatMap debuggers) i = false := by
  rw [Bool.eq_false_iff]
  intro hcovered
  obtain ⟨place, hplace, hstart, _⟩ := Span.covered_iff.mp hcovered
  obtain ⟨s, hs, hplace⟩ := List.mem_flatMap.mp hplace
  have := (debuggers_lie hlength (h.liesIn s hs).1).1 place hplace
  have := (h.liesIn s hs).2
  omega

/-- What the file keeps of a segment without its `debugger` statements. -/
theorem without_debuggers (hlength : text.length < 2 ^ 32) (hs : s.LiesIn text) :
    Bytes.without s.debuggers s.offset.toNat s.text = s.fixed.text := by
  cases hparse : s.parse with
  | error f =>
    rw [debuggers, fixed, hparse]
    exact Bytes.without_eq_self fun _ _ => rfl
  | ok script =>
    rw [fixed_of_ok hparse]
    have hplaces {statement : Statement} (h : statement ∈ script.debuggers) :=
      toNat_debugger hlength hs hparse h
    refine Bytes.without_congr fun i _ => ?_
    rw [Bool.eq_iff_iff, Span.covered_iff, Span.covered_iff, debuggers, hparse]
    constructor
    · rintro ⟨_, hspan, hstart, hstop⟩
      obtain ⟨statement, hstatement, rfl⟩ := List.mem_map.mp hspan
      have := hplaces hstatement
      exact ⟨_, List.mem_map_of_mem hstatement, by omega, by omega⟩
    · rintro ⟨_, hspan, hstart, hstop⟩
      obtain ⟨statement, hstatement, rfl⟩ := List.mem_map.mp hspan
      have := hplaces hstatement
      exact ⟨_, List.mem_map_of_mem hstatement, by omega, by omega⟩

/-- A segment before the later ones, with what stands around it. -/
theorem without_cons {head closing : Bytes} {next : Nat} (hlength : text.length < 2 ^ 32)
    (hs : s.LiesIn text) (hlater : LaidFrom text next segments)
    (hhead : pos + head.length = s.offset.toNat)
    (hnext : s.offset.toNat + s.text.length + closing.length = next) (rest : Bytes) :
    Bytes.without ((s :: segments).flatMap debuggers) pos
        (head ++ (s.text ++ (closing ++ rest))) =
      head ++ (s.fixed.text ++ (closing ++
        Bytes.without (segments.flatMap debuggers) next rest)) := by
  have hcovered (i : Nat) : Span.covered ((s :: segments).flatMap debuggers) i =
      (Span.covered s.debuggers i || Span.covered (segments.flatMap debuggers) i) := by
    rw [List.flatMap_cons, Span.covered, List.any_append, Span.covered, Span.covered]
  have hinside : Bytes.without ((s :: segments).flatMap debuggers) s.offset.toNat s.text =
      s.fixed.text := by
    rw [← without_debuggers hlength hs]
    refine Bytes.without_congr fun i hi => ?_
    rw [hcovered, not_covered_laid hlength hlater (by omega), Bool.or_false]
  have hbehind : Bytes.without ((s :: segments).flatMap debuggers) next rest =
      Bytes.without (segments.flatMap debuggers) next rest := by
    refine Bytes.without_congr fun i _ => ?_
    rw [hcovered, not_covered_debuggers hlength hs (by omega), Bool.false_or]
  have hfree {i : Nat} (hi : i < s.offset.toNat ∨ s.offset.toNat + s.text.length ≤ i)
      (hnext : i < next) : Span.covered ((s :: segments).flatMap debuggers) i = false := by
    rw [hcovered, not_covered_debuggers hlength hs hi, not_covered_laid hlength hlater hnext,
      Bool.or_false]
  rw [Bytes.without_append_of_free fun i hi => hfree (by omega) (by omega), hhead,
    Bytes.without_append, hinside,
    Bytes.without_append_of_free fun i hi => hfree (by omega) (by omega), hnext, hbehind]

/-- **The rest of a file without `debugger` statements** is cut into its segments without them,
if none of these comes to hold a closing tag. -/
theorem ofMarkupFrom_without (hlength : text.length < 2 ^ 32)
    (h : ofMarkupFrom pos (text.drop pos) = .ok segments)
    (hfree : ∀ s ∈ segments, ¬ ("</script" : Bytes) <:+: s.fixed.text.map Bytes.toLower)
    (pos' : Nat) :
    let out := Bytes.without (segments.flatMap debuggers) pos (text.drop pos)
    out.head? = (text.drop pos).head? ∧ ∃ segments', ofMarkupFrom pos' out = .ok segments' ∧
      segments'.map atStart = segments.map fun s => s.fixed.atStart := by
  induction hn : text.length - pos using Nat.strongRecOn generalizing pos segments pos' with
  | _ n ih =>
    intro out
    have hlaid := laid_ofMarkupFrom hlength h
    -- what is left behind a beginning is shorter
    have hshrinks {head rest : Bytes} {next : Nat} (hcut : text.drop pos = head ++ rest)
        (hhead : head ≠ []) (hnext : pos + head.length ≤ next) : text.length - next < n := by
      have hsize := congrArg List.length hcut
      have := List.length_pos_iff.mpr hhead
      simp only [List.length_drop, List.length_append] at hsize
      omega
    rcases exists_cut h with ⟨rfl, hnone⟩ | ⟨head, rest, hcut, hhead, hpasses⟩ |
      ⟨head, content, closing, rest, dialect, hcut, hhead, hcontent, hopens⟩
    · have hout : out = text.drop pos := Bytes.without_eq_self fun _ _ => rfl
      rw [hout]
      exact ⟨rfl, [], hnone pos', rfl⟩
    · have hrest : text.drop (pos + head.length) = rest := by
        rw [← List.drop_drop, hcut, List.drop_left]
      rw [hcut, hpasses pos rest rfl, ← hrest] at h
      obtain ⟨hfirst, segments', hsegments', hsame⟩ :=
        ih _ (hshrinks hcut hhead (Nat.le_refl _)) h hfree (pos' + head.length) rfl
      have hlater := laid_ofMarkupFrom hlength h
      have hout : out = head ++ Bytes.without (segments.flatMap debuggers) (pos + head.length)
          (text.drop (pos + head.length)) := by
        simp only [out, hcut, ← hrest]
        exact Bytes.without_append_of_free
          (fun i hi => not_covered_laid hlength hlater (Nat.add_lt_add_left hi pos)) _
      rw [hout, hcut, List.head?_append_of_ne_nil _ hhead, List.head?_append_of_ne_nil _ hhead]
      exact ⟨rfl, segments', (hpasses pos' _ (hrest ▸ hfirst)).trans hsegments', hsame⟩
    · have hsize := congrArg List.length hcut
      simp only [List.length_drop, List.length_append] at hsize
      have hrest : text.drop (pos + head.length + content.length + closing.length) = rest := by
        rw [← List.drop_drop, ← List.drop_drop, ← List.drop_drop, hcut, List.drop_left,
          List.drop_left, List.drop_left]
      rw [hcut, hopens pos content rest hcontent rfl, ← hrest] at h
      generalize hnext : pos + head.length + content.length + closing.length = next at h hrest
      cases hbehind : ofMarkupFrom next (text.drop next) with
      | error f =>
        rw [hbehind] at h
        cases h
      | ok later =>
        rw [hbehind] at h
        obtain rfl := Except.ok.inj h
        obtain ⟨hfixed, hfree⟩ := List.forall_mem_cons.mp hfree
        have hpos := List.length_pos_iff.mpr hhead
        have hstart : (pos + head.length).toUInt32.toNat = pos + head.length := by
          rw [Nat.toUInt32, UInt32.toNat_ofNat', Nat.mod_eq_of_lt (by omega)]
        have hout := without_cons hlength (hlaid.liesIn _ List.mem_cons_self).1
          (laid_ofMarkupFrom hlength hbehind) hstart.symm (hstart ▸ hnext) rest
        obtain ⟨hfirst, segments', hsegments', hsame⟩ := ih _ (hshrinks hcut hhead (by omega))
          hbehind hfree (pos' + head.length + (fixed ⟨content, (pos + head.length).toUInt32,
            dialect⟩).text.length + closing.length) rfl
        rw [hrest] at hfirst hsegments'
        have hopened := hopens pos' _ _ hfixed hfirst
        rw [hsegments'] at hopened
        simp only [out, hcut, hout]
        refine ⟨by rw [List.head?_append_of_ne_nil _ hhead, List.head?_append_of_ne_nil _ hhead],
          _, hopened, ?_⟩
        rw [List.map_cons, List.map_cons, hsame, atStart, atStart, fixed_dialect]

end Segment

end ScriptLint
