/-
Cutting the scripts out of a markup file.

A markup file is read as a row of items: script elements, script tags that are closed by
themselves, comments, and texts in which none of these begins.  A file that is written out
from such items is cut into the contents of its script elements again, whatever stands in
their attributes and whatever stands next to what:

* **`MarkupText`**, **`MarkupComment`**, **`EmptyTag`**, **`ScriptBlock`** — the items, with
  what makes them what they are;
* **`Bytes.find?_append`**, **`Bytes.find?_first`** — where a text first occurs;
* **`MarkupItem.placed`** — the scripts of items: contents, offsets and flavours;
* **`MarkupItem.split_render`** — what is cut out of a file of items are its scripts.
-/
import Mathlib.Algebra.Group.Nat.Defs
import Mathlib.Data.List.Chain
import ScriptLint.Proofs.OpenTags

namespace ScriptLint

/-! ### Searches -/

namespace Bytes

variable {pattern text rest : Bytes}

theorem find?_eq_none_iff (hpattern : pattern ≠ []) :
    find? pattern text = none ↔ ¬ pattern <:+: text := by
  induction text with
  | nil => simp [find?, hpattern, List.infix_nil]
  | cons b text ih =>
    rw [find?, List.infix_cons_iff, not_or]
    by_cases hstart : startsWith (b :: text) pattern = true
    · rw [if_pos hstart]
      exact iff_of_false (by simp) fun h => h.1 (List.isPrefixOf_iff_prefix.mp hstart)
    · rw [if_neg hstart, Option.map_eq_none_iff, ih]
      exact (and_iff_right fun h => hstart (List.isPrefixOf_iff_prefix.mpr h)).symm

theorem find?_drop_of_none (hpattern : pattern ≠ []) (h : find? pattern text = none) (n : Nat) :
    find? pattern (text.drop n) = none := by
  rw [find?_eq_none_iff hpattern] at h ⊢
  exact fun hdrop => h (hdrop.trans (List.drop_suffix n text).isInfix)

theorem find?_self (pattern rest : Bytes) : find? pattern (pattern ++ rest) = some 0 := by
  cases h : pattern ++ rest with
  | nil => rw [(List.append_eq_nil_iff.mp h).1]; rfl
  | cons b more =>
    rw [find?, if_pos]
    exact List.isPrefixOf_iff_prefix.mpr (h ▸ List.prefix_append pattern rest)

/-- A text that does not occur in another one occurs behind it, if it cannot begin there
and end behind it. -/
theorem find?_append {first : UInt8} {tail : Bytes} (hfirst : first ∉ tail)
    (htext : ¬ first :: tail <:+: text) (hrest : ∀ b ∈ rest.head?, b = first) :
    find? (first :: tail) (text ++ rest) =
      (find? (first :: tail) rest).map (· + text.length) := by
  induction text with
  | nil => exact Option.map_id'.symm
  | cons b text ih =>
    rw [List.infix_cons_iff, not_or] at htext
    have hstart : ¬ startsWith (b :: (text ++ rest)) (first :: tail) = true := by
      intro hstart
      have hprefix : first :: tail <+: (b :: text) ++ rest :=
        List.isPrefixOf_iff_prefix.mp hstart
      rcases List.prefix_or_prefix_of_prefix hprefix (List.prefix_append _ _) with h | ⟨more, h⟩
      · exact htext.1 h
      -- what is left of it begins with its first byte, which is not there twice
      rw [← h, List.prefix_append_right_inj] at hprefix
      cases more with
      | nil =>
        rw [List.append_nil] at h
        exact htext.1 (h ▸ List.prefix_rfl)
      | cons c more =>
        obtain ⟨behind, rfl⟩ := hprefix
        obtain rfl : c = first := hrest c rfl
        obtain ⟨-, rfl⟩ := List.cons_eq_cons.mp h
        exact hfirst (by simp)
    rw [List.cons_append, find?, if_neg hstart, ih htext.2, Option.map_map]
    rfl

/-- A text occurs where it stands, if it does not occur before. -/
theorem find?_first (h : ¬ pattern <:+: text ++ pattern.dropLast) :
    find? pattern (text ++ (pattern ++ rest)) = some text.length := by
  induction text with
  | nil => exact find?_self pattern rest
  | cons b text ih =>
    rw [List.cons_append, List.infix_cons_iff, not_or] at h
    have hstart : ¬ startsWith (b :: (text ++ (pattern ++ rest))) pattern = true := by
      intro hstart
      have hprefix : pattern <+: b :: (text ++ (pattern ++ rest)) :=
        List.isPrefixOf_iff_prefix.mp hstart
      have hbegin : b :: (text ++ pattern.dropLast) <+: b :: (text ++ (pattern ++ rest)) := by
        rw [List.cons_prefix_cons, List.prefix_append_right_inj]
        exact ⟨rfl, (List.dropLast_prefix pattern).trans (List.prefix_append _ _)⟩
      have hlength : pattern.length ≤ (b :: (text ++ pattern.dropLast)).length := by
        rw [List.length_cons, List.length_append, List.length_dropLast]
        omega
      exact h.1 (List.prefix_of_prefix_length_le hprefix hbegin hlength)
    rw [List.cons_append, find?, if_neg hstart, ih h.2]
    rfl

end Bytes

/-! ### Items -/

/-- No comment and no script tag begins in a text. -/
def MarkupFree (text : Bytes) : Prop :=
  ¬ ("<!--" : Bytes) <:+: text ∧ ¬ ("<script" : Bytes) <:+: text.map Bytes.toLower

/-- A text in which no comment and no script tag begins. -/
structure MarkupText where
  text : Bytes
  free : MarkupFree text

/-- A comment, which ends at the first place where it can. -/
structure MarkupComment where
  content : Bytes
  ends_first : ¬ ("-->" : Bytes) <:+: content ++ "--"

/-- How a comment is written. -/
def MarkupComment.text (c : MarkupComment) : Bytes := "<!--" ++ (c.content ++ "-->")

/-- A script tag that is closed by itself. -/
structure EmptyTag where
  name : Bytes
  attributes : List Attribute
  gap : Bytes
  name_script : name.map Bytes.toLower = "script"
  gap_ne : gap ≠ []
  gap_blank : ∀ b ∈ gap, Bytes.isSpace b = true

/-- How such a tag is written. -/
def EmptyTag.text (t : EmptyTag) : Bytes :=
  "<" ++ (t.name ++ (t.attributes.flatMap Attribute.text ++ (t.gap ++ "/>")))

/-- A script element. -/
structure ScriptBlock where
  name : Bytes
  attributes : List Attribute
  body : Bytes
  closingName : Bytes
  gap : Bytes
  name_script : name.map Bytes.toLower = "script"
  one_language : attributes.countP Attribute.isLanguage ≤ 1
  body_free : ¬ ("</script" : Bytes) <:+: body.map Bytes.toLower
  closingName_script : closingName.map Bytes.toLower = "script"
  gap_blank : ∀ b ∈ gap, Bytes.isSpace b = true

namespace ScriptBlock

variable (b : ScriptBlock)

/-- The opening tag of an element. -/
def heading : Bytes := "<" ++ (b.name ++ (b.attributes.flatMap Attribute.text ++ ">"))

/-- The closing tag of an element. -/
def closing : Bytes := "</" ++ (b.closingName ++ (b.gap ++ ">"))

/-- How an element is written. -/
def text : Bytes := b.heading ++ (b.body ++ b.closing)

/-- The flavour that the `lang` of an element denotes: `ts` and `tsx` are typed, `jsx` and
`tsx` have elements. -/
def dialect : Dialect where
  typed := Attribute.language? b.attributes ∈ ([some "ts", some "tsx"] : List (Option Bytes))
  elements := Attribute.language? b.attributes ∈ ([some "jsx", some "tsx"] : List (Option Bytes))

end ScriptBlock

/-- An item of a markup file. -/
inductive MarkupItem where
  | filler (f : MarkupText)
  | comment (c : MarkupComment)
  | emptyTag (t : EmptyTag)
  | block (b : ScriptBlock)

namespace MarkupItem

/-- How an item is written. -/
def text : MarkupItem → Bytes
  | filler f => f.text
  | comment c => c.text
  | emptyTag t => t.text
  | block b => b.text

/-- The item is a filler. -/
def isFiller : MarkupItem → Bool
  | filler _ => true
  | _ => false

/-- A file of items. -/
def render (items : List MarkupItem) : Bytes := items.flatMap text

/-- The scripts of items that begin at an offset: their contents, the offsets at which these
begin, and their flavours. -/
def placed (pos : Nat) : List MarkupItem → List (Bytes × Nat × Dialect)
  | [] => []
  | block b :: rest =>
    (b.body, pos + b.heading.length, b.dialect) :: placed (pos + b.text.length) rest
  | item :: rest => placed (pos + item.text.length) rest

/-- No two fillers are next to each other. -/
def Separated (items : List MarkupItem) : Prop :=
  items.IsChain fun a b => ¬ (a.isFiller = true ∧ b.isFiller = true)

end MarkupItem

/-- A segment as what is in it, where it begins, and its flavour. -/
def Segment.placed (s : Segment) : Bytes × Nat × Dialect := (s.text, s.offset.toNat, s.dialect)

/-! ### Reading items -/

namespace Segment

variable {pos tag : Nat} {text : Bytes}

/-- Where no script tag is, there are no scripts. -/
theorem ofMarkupFrom_of_none (h : Bytes.findFolded? "<script" text = none) :
    ofMarkupFrom pos text = .ok [] := by
  rw [ofMarkupFrom]
  split
  · rfl
  · rename_i tag htag
    rw [h] at htag
    cases htag

/-- A comment before the first script tag is passed. -/
theorem ofMarkupFrom_of_comment {comment n : Nat}
    (htag : ∀ tag, Bytes.findFolded? "<script" text = some tag → comment < tag)
    (hcomment : Bytes.find? "<!--" text = some comment)
    (hend : Bytes.find? "-->" (text.drop (comment + 4)) = some n) :
    ofMarkupFrom pos text =
      ofMarkupFrom (pos + (comment + n + 7)) (text.drop (comment + n + 7)) := by
  cases hfound : Bytes.findFolded? "<script" text with
  | none =>
    have hrest : Bytes.findFolded? "<script" (text.drop (comment + n + 7)) = none := by
      rw [Bytes.findFolded?, List.map_drop]
      exact Bytes.find?_drop_of_none (by decide) hfound _
    rw [ofMarkupFrom_of_none hfound, ofMarkupFrom_of_none hrest]
  | some tag =>
    have hfilter : (Bytes.find? "<!--" text).filter (· < tag) = some comment := by
      rw [hcomment, Option.filter_some, if_pos (decide_eq_true (htag tag hfound))]
    rw [ofMarkupFrom]
    split
    · rename_i h
      rw [hfound] at h
      cases h
    · rename_i tag' htag'
      obtain rfl := Option.some.inj (hfound.symm.trans htag')
      simp only [hfilter, hend]

variable {opening : OpenTag}

/-- A script tag before the first comment is read. -/
theorem ofMarkupFrom_of_tag (htag : Bytes.findFolded? "<script" text = some tag)
    (hcomment : ∀ comment, Bytes.find? "<!--" text = some comment → tag ≤ comment)
    (hname : (text.drop (tag + 7)).head?.any (!endsTagName ·) = false)
    (hopening : OpenTag.parse (text.drop (tag + 7)) = some opening) :
    ofMarkupFrom pos text =
      let start := tag + 7 + opening.length
      if opening.selfClosing then ofMarkupFrom (pos + start) (text.drop start)
      else match Bytes.findFolded? "</script" (text.drop start) with
        | none => .error ⟨.openScriptBlock, .ofOffsets (pos + tag) (pos + start)⟩
        | some length =>
          let closing := text.drop (start + length)
          let next := start + length + (closing.takeWhile (!OpenTag.isTagEnd ·)).length + 1
          (ofMarkupFrom (pos + next) (text.drop next)).map
            (⟨text.slice start length, (pos + start).toUInt32,
              .ofLanguage opening.language⟩ :: ·) := by
  have hfilter : (Bytes.find? "<!--" text).filter (· < tag) = none := by
    rw [Option.filter_eq_none_iff]
    intro comment h
    simpa using hcomment comment h
  rw [ofMarkupFrom]
  split
  · rename_i h
    rw [htag] at h
    cases h
  · rename_i tag' htag'
    obtain rfl := Option.some.inj (htag.symm.trans htag')
    simp only [hfilter, hname, hopening, Bool.false_eq_true, if_false]
    rfl

/-! ### An item behind a filler -/

theorem free_nil : MarkupFree [] := by
  constructor <;> decide

variable {before rest name more : Bytes}

theorem find?_comment (hbefore : MarkupFree before) (hrest : ∀ b ∈ rest.head?, b = '<') :
    Bytes.find? "<!--" (before ++ rest) =
      (Bytes.find? "<!--" rest).map (· + before.length) := by
  have hfirst : ('<' : UInt8) ∉ ("!--" : Bytes) := by decide
  exact Bytes.find?_append hfirst hbefore.1 hrest

theorem findFolded?_script (hbefore : MarkupFree before) (hrest : ∀ b ∈ rest.head?, b = '<') :
    Bytes.findFolded? "<script" (before ++ rest) =
      (Bytes.findFolded? "<script" rest).map (· + before.length) := by
  have hfirst : ('<' : UInt8) ∉ ("script" : Bytes) := by decide
  have hhead : ∀ b ∈ (rest.map Bytes.toLower).head?, b = '<' := by
    intro b hb
    rw [List.head?_map] at hb
    obtain ⟨c, hc, rfl⟩ := Option.map_eq_some_iff.mp hb
    rw [hrest c hc]
    decide
  have h := Bytes.find?_append hfirst hbefore.2 hhead
  rw [List.length_map] at h
  rw [Bytes.findFolded?, List.map_append]
  exact h

/-- A script tag is found behind a filler. -/
theorem findFolded?_tag (hbefore : MarkupFree before) (hname : name.map Bytes.toLower = "script") :
    Bytes.findFolded? "<script" (before ++ ("<" ++ (name ++ more))) = some before.length := by
  have hhead : ∀ b ∈ ("<" ++ (name ++ more) : Bytes).head?, b = '<' :=
    fun b hb => (Option.some.inj hb).symm
  have hself : Bytes.findFolded? "<script" ("<" ++ (name ++ more)) = some 0 := by
    have hlower : ("<" ++ (name ++ more) : Bytes).map Bytes.toLower =
        "<script" ++ more.map Bytes.toLower := by
      rw [List.map_append, List.map_append, hname]
      rfl
    rw [Bytes.findFolded?, hlower]
    exact Bytes.find?_self _ _
  rw [findFolded?_script hbefore hhead, hself, Option.map_some, Nat.zero_add]

/-- No comment is found before a script tag. -/
theorem le_comment (hbefore : MarkupFree before) {comment : Nat}
    (h : Bytes.find? "<!--" (before ++ ("<" ++ (name ++ more))) = some comment) :
    before.length ≤ comment := by
  have hhead : ∀ b ∈ ("<" ++ (name ++ more) : Bytes).head?, b = '<' :=
    fun b hb => (Option.some.inj hb).symm
  rw [find?_comment hbefore hhead] at h
  obtain ⟨n, -, rfl⟩ := Option.map_eq_some_iff.mp h
  exact Nat.le_add_left _ _

theorem length_of_script (hname : name.map Bytes.toLower = "script") : name.length = 6 := by
  rw [← List.length_map Bytes.toLower, hname]
  rfl

theorem drop_tag (hname : name.map Bytes.toLower = "script") :
    (before ++ ("<" ++ (name ++ more))).drop (before.length + 7) = more := by
  have htag : ("<" ++ name : Bytes).length = 7 := by
    rw [List.length_append, length_of_script hname]
    rfl
  have htext : before ++ ("<" ++ (name ++ more)) = (before ++ ("<" ++ name)) ++ more := by
    simp only [List.append_assoc]
  have hstart : before.length + 7 = (before ++ ("<" ++ name)).length := by
    rw [List.length_append, htag]
  rw [htext, hstart, List.drop_left]

/-- The name of a tag ends where attributes begin or the tag ends. -/
theorem endsTagName_of_stops (h : Stops more) : more.head?.any (!endsTagName ·) = false := by
  cases more with
  | nil => rfl
  | cons b more =>
    rw [List.head?_cons, Option.any_some, Bool.not_eq_false']
    rcases h b rfl with hspace | rfl
    · simp [endsTagName, hspace]
    · decide

/-- What is left of a text behind a script tag. -/
theorem drop_behind (hname : name.map Bytes.toLower = "script") (n : Nat) :
    (before ++ ("<" ++ (name ++ more))).drop (before.length + 7 + n) = more.drop n := by
  rw [← List.drop_drop, drop_tag hname]

/-- A script tag behind a filler, closed by itself, is passed. -/
theorem ofMarkupFrom_of_selfClosing (hbefore : MarkupFree before)
    (hname : name.map Bytes.toLower = "script") (hstops : Stops more)
    (hparse : OpenTag.parse more = some opening) (hself : opening.selfClosing = true) :
    ofMarkupFrom pos (before ++ ("<" ++ (name ++ more))) =
      ofMarkupFrom (pos + (before.length + 7 + opening.length)) (more.drop opening.length) := by
  have hdrop : (before ++ ("<" ++ (name ++ more))).drop (before.length + 7) = more :=
    drop_tag hname
  have hends : ((before ++ ("<" ++ (name ++ more))).drop (before.length + 7)).head?.any
      (!endsTagName ·) = false := by
    rw [hdrop]
    exact endsTagName_of_stops hstops
  rw [← hdrop] at hparse
  rw [ofMarkupFrom_of_tag (findFolded?_tag hbefore hname) (fun _ => le_comment hbefore) hends
    hparse]
  simp only [hself, if_true, drop_behind hname]

/-- A script element behind a filler is cut out. -/
theorem ofMarkupFrom_of_open {length : Nat} (hbefore : MarkupFree before)
    (hname : name.map Bytes.toLower = "script") (hstops : Stops more)
    (hparse : OpenTag.parse more = some opening) (hself : opening.selfClosing = false)
    (hclosing : Bytes.findFolded? "</script" (more.drop opening.length) = some length) :
    ofMarkupFrom pos (before ++ ("<" ++ (name ++ more))) =
      let start := before.length + 7 + opening.length
      let next := opening.length + length +
        ((more.drop (opening.length + length)).takeWhile (!OpenTag.isTagEnd ·)).length + 1
      (ofMarkupFrom (pos + (before.length + 7 + next)) (more.drop next)).map
        (⟨(more.drop opening.length).take length, (pos + start).toUInt32,
          .ofLanguage opening.language⟩ :: ·) := by
  have hdrop : (before ++ ("<" ++ (name ++ more))).drop (before.length + 7) = more :=
    drop_tag hname
  have hends : ((before ++ ("<" ++ (name ++ more))).drop (before.length + 7)).head?.any
      (!endsTagName ·) = false := by
    rw [hdrop]
    exact endsTagName_of_stops hstops
  rw [← hdrop] at hparse
  rw [ofMarkupFrom_of_tag (findFolded?_tag hbefore hname) (fun _ => le_comment hbefore) hends
    hparse]
  simp only [hself, Bool.false_eq_true, if_false, Bytes.slice, Nat.add_assoc]
  simp only [← Nat.add_assoc before.length 7, drop_behind hname]
  rw [hclosing]

theorem ofMarkupFrom_comment (hbefore : MarkupFree before) (c : MarkupComment) (rest : Bytes) :
    ofMarkupFrom pos (before ++ (c.text ++ rest)) =
      ofMarkupFrom (pos + (before ++ c.text).length) rest := by
  have htext : c.text ++ rest = "<!--" ++ (c.content ++ ("-->" ++ rest)) := by
    simp only [MarkupComment.text, List.append_assoc]
  have hhead : ∀ b ∈ (c.text ++ rest).head?, b = '<' := fun b hb => (Option.some.inj hb).symm
  have htag (tag : Nat) (h : Bytes.findFolded? "<script" (before ++ (c.text ++ rest)) = some tag) :
      before.length < tag := by
    rw [findFolded?_script hbefore hhead] at h
    obtain ⟨n, hn, rfl⟩ := Option.map_eq_some_iff.mp h
    have hstep : Bytes.findFolded? "<script" (c.text ++ rest) =
        (Bytes.findFolded? "<script" (c.text ++ rest).tail).map (· + 1) := rfl
    rw [hstep] at hn
    obtain ⟨k, -, rfl⟩ := Option.map_eq_some_iff.mp hn
    omega
  have hcomment : Bytes.find? "<!--" (before ++ (c.text ++ rest)) = some before.length := by
    rw [find?_comment hbefore hhead, htext, Bytes.find?_self, Option.map_some, Nat.zero_add]
  have hinside : (before ++ (c.text ++ rest)).drop (before.length + 4) =
      c.content ++ ("-->" ++ rest) := by
    rw [htext, ← List.append_assoc]
    exact List.drop_left' (by rw [List.length_append]; rfl)
  have hend : Bytes.find? "-->" ((before ++ (c.text ++ rest)).drop (before.length + 4)) =
      some c.content.length := by
    rw [hinside]
    exact Bytes.find?_first c.ends_first
  have hlength : before.length + c.content.length + 7 = (before ++ c.text).length := by
    simp only [MarkupComment.text, List.length_append]
    show _ = before.length + (4 + (c.content.length + 3))
    omega
  rw [ofMarkupFrom_of_comment htag hcomment hend, hlength, ← List.append_assoc, List.drop_left]

theorem ofMarkupFrom_emptyTag (hbefore : MarkupFree before) (t : EmptyTag) (rest : Bytes) :
    ofMarkupFrom pos (before ++ (t.text ++ rest)) =
      ofMarkupFrom (pos + (before ++ t.text).length) rest := by
  have htext : t.text ++ rest = "<" ++ (t.name ++ (t.attributes.flatMap Attribute.text ++
      (t.gap ++ ('/' :: '>' :: rest : Bytes)))) := by
    simp only [EmptyTag.text, List.append_assoc]
    rfl
  have hstops : Stops (t.attributes.flatMap Attribute.text ++
      (t.gap ++ ('/' :: '>' :: rest : Bytes))) :=
    OpenTag.stops_attributes _ (OpenTag.stops_blanks t.gap_ne t.gap_blank)
  obtain ⟨language, hparse⟩ := OpenTag.parse_selfClosing t.attributes t.gap_ne t.gap_blank rest
  have hname : t.name.length = 6 := length_of_script t.name_script
  have hlength : before.length + 7 +
      ((t.attributes.flatMap Attribute.text).length + (t.gap.length + 2)) =
        (before ++ t.text).length := by
    simp only [EmptyTag.text, List.length_append, hname]
    show _ = before.length + (1 + (6 + (_ + (t.gap.length + 2))))
    omega
  have hrest : (t.attributes.flatMap Attribute.text ++ (t.gap ++ ('/' :: '>' :: rest : Bytes))).drop
      ((t.attributes.flatMap Attribute.text).length + (t.gap.length + 2)) = rest := by
    rw [← List.drop_drop, List.drop_left, ← List.drop_drop, List.drop_left]
    rfl
  rw [htext, ofMarkupFrom_of_selfClosing hbefore t.name_script hstops hparse rfl, hlength, hrest]

/-- The closing tag of an element ends with its only `>`. -/
theorem closing_takeWhile (b : ScriptBlock) (rest : Bytes) :
    ((b.closing ++ rest).takeWhile (!OpenTag.isTagEnd ·)).length + 1 = b.closing.length := by
  have hclosing : b.closing ++ rest =
      ("</" ++ (b.closingName ++ b.gap)) ++ ('>' :: rest : Bytes) := by
    simp only [ScriptBlock.closing, List.append_assoc]
    rfl
  have hinside : ∀ c ∈ ("</" ++ (b.closingName ++ b.gap) : Bytes),
      (!OpenTag.isTagEnd c) = true := by
    intro c hc
    rw [Bool.not_eq_true', OpenTag.isTagEnd, beq_eq_false_iff_ne]
    rintro rfl
    rcases List.mem_append.mp hc with hc | hc
    · exact absurd hc (by decide)
    rcases List.mem_append.mp hc with hc | hc
    · have hlower : Bytes.toLower '>' ∈ b.closingName.map Bytes.toLower := List.mem_map_of_mem hc
      rw [b.closingName_script] at hlower
      exact absurd hlower (by decide)
    · exact absurd (b.gap_blank _ hc) (by decide)
  have hend : ∀ c ∈ ('>' :: rest : Bytes).head?, (!OpenTag.isTagEnd c) = false := by
    intro c hc
    obtain rfl := Option.some.inj hc
    decide
  rw [hclosing, takeWhile_append_of_head hinside hend]
  simp only [ScriptBlock.closing, List.length_append]
  rfl

/-- The contents of an element end where its closing tag begins. -/
theorem findFolded?_closing (b : ScriptBlock) (rest : Bytes) :
    Bytes.findFolded? "</script" (b.body ++ (b.closing ++ rest)) = some b.body.length := by
  have hfirst : ('<' : UInt8) ∉ ("/script" : Bytes) := by decide
  have hlower : (b.closing ++ rest).map Bytes.toLower =
      "</script" ++ (b.gap ++ (">" ++ rest)).map Bytes.toLower := by
    simp only [ScriptBlock.closing, List.append_assoc, List.map_append, b.closingName_script]
    rfl
  have hhead : ∀ c ∈ ((b.closing ++ rest).map Bytes.toLower).head?, c = '<' := by
    rw [hlower]
    exact fun c hc => (Option.some.inj hc).symm
  have h := Bytes.find?_append hfirst b.body_free hhead
  rw [hlower, List.length_map] at h
  rw [Bytes.findFolded?, List.map_append, hlower]
  refine h.trans ?_
  have hself := Bytes.find?_self "</script" ((b.gap ++ (">" ++ rest)).map Bytes.toLower)
  exact (congrArg _ hself).trans (congrArg some (Nat.zero_add _))

/-- The flavour of an element is that of its language. -/
theorem ofLanguage_eq (b : ScriptBlock) :
    Dialect.ofLanguage (Attribute.language? b.attributes) = b.dialect := by
  unfold Dialect.ofLanguage ScriptBlock.dialect
  generalize Attribute.language? b.attributes = language
  by_cases hts : language = some ("ts" : Bytes)
  · subst hts; decide
  by_cases htsx : language = some ("tsx" : Bytes)
  · subst htsx; decide
  by_cases hjsx : language = some ("jsx" : Bytes)
  · subst hjsx; decide
  simp [hts, htsx, hjsx]

theorem ofMarkupFrom_block (hbefore : MarkupFree before) (b : ScriptBlock) (rest : Bytes) :
    ofMarkupFrom pos (before ++ (b.text ++ rest)) =
      (ofMarkupFrom (pos + (before ++ b.text).length) rest).map
        (⟨b.body, (pos + (before ++ b.heading).length).toUInt32, b.dialect⟩ :: ·) := by
  have htext : b.text ++ rest = "<" ++ (b.name ++ (b.attributes.flatMap Attribute.text ++
      ('>' :: (b.body ++ (b.closing ++ rest)) : Bytes))) := by
    simp only [ScriptBlock.text, ScriptBlock.heading, List.append_assoc]
    rfl
  have hstops : Stops (b.attributes.flatMap Attribute.text ++
      ('>' :: (b.body ++ (b.closing ++ rest)) : Bytes)) :=
    OpenTag.stops_attributes _ fun c hc => .inr (Option.some.inj hc).symm
  have hparse := OpenTag.parse_attributes b.one_language (b.body ++ (b.closing ++ rest))
  have hopen : (b.attributes.flatMap Attribute.text ++
      ('>' :: (b.body ++ (b.closing ++ rest)) : Bytes)).drop
        ((b.attributes.flatMap Attribute.text).length + 1) = b.body ++ (b.closing ++ rest) := by
    rw [← List.drop_drop, List.drop_left]
    rfl
  have hname : b.name.length = 6 := length_of_script b.name_script
  have hheading : b.heading.length = 7 + ((b.attributes.flatMap Attribute.text).length + 1) := by
    simp only [ScriptBlock.heading, List.length_append, hname]
    show 1 + (6 + (_ + 1)) = _
    omega
  have hbehind (n : Nat) : (b.attributes.flatMap Attribute.text ++
      ('>' :: (b.body ++ (b.closing ++ rest)) : Bytes)).drop
        ((b.attributes.flatMap Attribute.text).length + 1 + b.body.length + n) =
          (b.closing ++ rest).drop n := by
    rw [← List.drop_drop, ← List.drop_drop, hopen, List.drop_left]
  have hclosing := closing_takeWhile b rest
  have hfound : Bytes.findFolded? "</script" ((b.attributes.flatMap Attribute.text ++
      ('>' :: (b.body ++ (b.closing ++ rest)) : Bytes)).drop
        ((b.attributes.flatMap Attribute.text).length + 1)) = some b.body.length := by
    rw [hopen]
    exact findFolded?_closing b rest
  have hlength : before.length + 7 +
      ((b.attributes.flatMap Attribute.text).length + 1 + b.body.length + b.closing.length) =
        (before ++ b.text).length := by
    simp only [ScriptBlock.text, List.length_append, hheading]
    omega
  have hstart : before.length + 7 + ((b.attributes.flatMap Attribute.text).length + 1) =
      (before ++ b.heading).length := by
    rw [List.length_append, hheading]
    omega
  rw [htext, ofMarkupFrom_of_open hbefore b.name_script hstops hparse rfl hfound]
  have hzero := hbehind 0
  rw [Nat.add_zero, List.drop_zero] at hzero
  simp only [hzero, Nat.add_assoc _ _ 1, hclosing]
  rw [hbehind, List.drop_left, hlength, hopen, List.take_left, hstart, ofLanguage_eq]

end Segment

namespace MarkupItem

open Segment

/-- What is cut out of an item and of what is behind it. -/
theorem map_placed_cons {s : Segment} {result : Except Failure (List Segment)}
    {places : List (Bytes × Nat × Dialect)}
    (h : result.map (List.map Segment.placed) = .ok places) :
    (result.map (s :: ·)).map (List.map Segment.placed) = .ok (s.placed :: places) := by
  cases result with
  | error f => cases h
  | ok segments => exact congrArg (Except.map (s.placed :: ·)) h

/-- Items behind a text in which none of them begins, if they do not begin with another
one. -/
theorem ofMarkupFrom_render {items : List MarkupItem} (hitems : Separated items) {pos : Nat}
    {before : Bytes} (hbefore : MarkupFree before)
    (hfirst : before = [] ∨ ∀ item ∈ items.head?, item.isFiller = false)
    (hlength : pos + (before ++ render items).length < 2 ^ 32) :
    (ofMarkupFrom pos (before ++ render items)).map (List.map Segment.placed) =
      .ok (placed (pos + before.length) items) := by
  induction items generalizing pos before with
  | nil =>
    have hnone : Bytes.findFolded? "<script" before = none :=
      (Bytes.find?_eq_none_iff (by decide)).mpr hbefore.2
    rw [render, List.flatMap_nil, List.append_nil, ofMarkupFrom_of_none hnone]
    rfl
  | cons item rest ih =>
    obtain ⟨hnext, hrest⟩ := List.isChain_cons.mp hitems
    have hjoin : before ++ render (item :: rest) = before ++ (item.text ++ render rest) := by
      rw [render, render, List.flatMap_cons]
    rw [hjoin] at hlength ⊢
    -- what is left behind an item that is read
    have hlater : (ofMarkupFrom (pos + (before ++ item.text).length) (render rest)).map
        (List.map Segment.placed) = .ok (placed (pos + before.length + item.text.length) rest) := by
      have hbehind : pos + (before ++ item.text).length + ([] ++ render rest).length < 2 ^ 32 := by
        simp only [List.length_append, List.nil_append] at hlength ⊢
        omega
      have h := ih hrest free_nil (.inl rfl) hbehind
      rw [List.nil_append, List.length_nil, Nat.add_zero] at h
      rw [h, List.length_append, Nat.add_assoc]
    cases item with
    | filler f =>
      -- a filler is read with the item behind it
      obtain rfl : before = [] := hfirst.resolve_right fun h => by cases h _ rfl
      have hother : ∀ next ∈ rest.head?, next.isFiller = false := fun next hhead =>
        Bool.eq_false_iff.mpr fun h => hnext next hhead ⟨rfl, h⟩
      exact ih hrest f.free (.inr hother) hlength
    | comment c => rw [text, ofMarkupFrom_comment hbefore]; exact hlater
    | emptyTag t => rw [text, ofMarkupFrom_emptyTag hbefore]; exact hlater
    | block b =>
      rw [text, ofMarkupFrom_block hbefore]
      refine (map_placed_cons hlater).trans ?_
      have hoffset : (pos + (before ++ b.heading).length).toUInt32.toNat =
          pos + before.length + b.heading.length := by
        simp only [text, ScriptBlock.text, List.length_append] at hlength ⊢
        rw [Nat.toUInt32, UInt32.toNat_ofNat', Nat.mod_eq_of_lt (by omega), Nat.add_assoc]
      rw [placed, Segment.placed, hoffset]
      rfl

/-- **The scripts of a markup file** are the contents of its script elements, in order, each
with the offset at which it begins and the flavour of its language. -/
theorem split_render {items : List MarkupItem} (hitems : Separated items)
    (hlength : (render items).length < 2 ^ 32) :
    (Segment.ofMarkup (render items)).map (List.map Segment.placed) = .ok (placed 0 items) := by
  have hstart : 0 + ([] ++ render items).length < 2 ^ 32 := by
    rw [List.nil_append, Nat.zero_add]
    exact hlength
  exact ofMarkupFrom_render hitems free_nil (.inl rfl) hstart

/-- A text, a comment on a script, an element whose attributes have a `>` and a language, and
a tag that is closed by itself. -/
def sample : List MarkupItem :=
  [filler ⟨"<p>", by unfold MarkupFree; decide +kernel⟩,
    comment ⟨" <script> ", by decide +kernel⟩,
    block
      { name := "SCRIPT"
        attributes :=
          [⟨" ", "title", .quoted '"' ">" rfl (by decide +kernel), by decide +kernel,
              by decide +kernel, by decide +kernel, by decide +kernel⟩,
            ⟨"\n", "lang", .plain "ts" (by decide +kernel) (by decide +kernel),
              by decide +kernel, by decide +kernel, by decide +kernel, by decide +kernel⟩]
        body := "let a; // <!--"
        closingName := "Script"
        gap := " "
        name_script := rfl
        one_language := by decide +kernel
        body_free := by decide +kernel
        closingName_script := rfl
        gap_blank := by decide +kernel },
    emptyTag
      { name := "script", attributes := [], gap := " ", name_script := rfl
        gap_ne := by decide +kernel, gap_blank := by decide +kernel }]

theorem split_render_sample :
    render sample =
        "<p><!-- <script> --><SCRIPT title=\">\"\nlang=ts>let a; // <!--</Script ><script />" ∧
      (Segment.ofMarkup (render sample)).map (List.map Segment.placed) =
        .ok [("let a; // <!--", 46, ⟨true, false⟩)] := by
  have hitems : Separated sample := by
    unfold Separated
    decide
  have hrender : render sample =
      "<p><!-- <script> --><SCRIPT title=\">\"\nlang=ts>let a; // <!--</Script ><script />" := by
    decide
  have hlength : (render sample).length < 2 ^ 32 := by
    rw [hrender]
    decide
  refine ⟨hrender, (split_render hitems hlength).trans ?_⟩
  exact congrArg Except.ok (by decide)

end MarkupItem

end ScriptLint
