/-
What is cut out of a markup text.

The search for script elements goes in turns.  A turn ends it, fails, or goes on behind some bytes,
with the contents of an element or without; and so does a turn of reading the attributes of a tag.
What a turn does is told once, and what holds of a whole text follows turn by turn:

* **`OpenTag.turn`**, **`Segment.turn`** — one turn, with `parseFrom_eq_turn` and
  `ofMarkupFrom_eq_turn` for what follows it;
* **`OpenTag.fits_turn`**, **`Segment.fits_turn`** — a turn goes on behind at least one byte, and
  what it cuts out stands between an opening and a closing tag;
* **`OpenTag.run_eq`**, **`Segment.run_eq`** — there are no more turns than bytes;
* **`Segment.Encloses`** — the bytes of a segment, and what stands around them;
* **`Segment.ofMarkup_cuts`** — the segments of a text, and the place of a failure.
-/
import Mathlib
import ScriptLint.Proofs.Recutting

namespace ScriptLint

/-! ### Attributes -/

namespace OpenTag

variable {language language' : Option Bytes} {text : Bytes} {taken : Nat} {before : UInt8}

/-- What one turn of reading attributes comes to. -/
inductive Turn where
  | ends
  | stuck
  | goesOn (taken : Nat) (language : Option Bytes)
  deriving DecidableEq, Repr

/-- One turn: the end of the tag, a byte between attributes, or an attribute. -/
def turn (language : Option Bytes) : Bytes → Turn
  | [] => .stuck
  | b :: rest =>
    if isTagEnd b then .ends
    else if Bytes.isSpace b || b == '/' then .goesOn 1 language
    else
      let name := (b :: rest).takeWhile isNameByte
      match value ((b :: rest).drop name.length) with
      | none => .stuck
      | some (value, taken) =>
        .goesOn (name.length + taken) (if name = "lang" then some value else language)

/-- What a turn leaves to be read begins behind at least one byte, and a tag that ends has its
end. -/
inductive Turn.Fits (text : Bytes) : Turn → Prop where
  | ends (h : text.head? = some '>'.toUInt8) : Fits text .ends
  | stuck : Fits text .stuck
  | goesOn {taken : Nat} {language : Option Bytes} (hpos : 0 < taken)
      (hinside : taken ≤ text.length) : Fits text (.goesOn taken language)

/-- A value with its equals sign lies in the text, and takes bytes if it is there. -/
theorem taken_of_value {content : Bytes} (h : value text = some (content, taken)) :
    taken ≤ text.length ∧ (text.head? = some '='.toUInt8 → 0 < taken) := by
  rw [value.eq_def] at h
  split at h
  · cases h
    exact ⟨Nat.le_refl _, fun hhead => by cases hhead⟩
  split at h
  · rename_i b rest hequals
    cases h
    exact ⟨Nat.zero_le _, fun hhead => absurd (Option.some.inj hhead) (by simpa using hequals)⟩
  split at h
  · cases h
    exact ⟨Nat.le_refl _, fun _ => Nat.one_pos⟩
  rename_i quote rest
  simp only at h
  split at h
  · split at h
    · cases h
    · rename_i hopen
      cases h
      have := (List.takeWhile_prefix (l := rest) (· != quote)).length_le
      simp only [List.length_cons]
      exact ⟨by omega, fun _ => by omega⟩
  · cases h
    have := (List.takeWhile_prefix (l := quote :: rest) isValueByte).length_le
    simp only [List.length_cons] at this ⊢
    exact ⟨by omega, fun _ => by omega⟩

/-- **A turn of reading attributes goes on**, and stays in the text. -/
theorem fits_turn (language : Option Bytes) (text : Bytes) : (turn language text).Fits text := by
  cases text with
  | nil => exact .stuck
  | cons b rest =>
    rw [turn]
    split
    · rename_i hend
      exact .ends (congrArg some (by simpa [isTagEnd] using hend))
    rename_i hend
    split
    · exact .goesOn Nat.one_pos (Nat.succ_pos _)
    rename_i hblank
    simp only
    split
    · exact .stuck
    rename_i content taken hvalue
    obtain ⟨hinside, hpos⟩ := taken_of_value hvalue
    have hname := (List.takeWhile_prefix (l := b :: rest) isNameByte).length_le
    rw [List.length_drop] at hinside
    refine .goesOn ?_ (by omega)
    by_cases hempty : (b :: rest).takeWhile isNameByte = []
    · -- only an equals sign begins an attribute without a name
      have hequals : b = '='.toUInt8 := by
        have hfirst : ¬isNameByte b = true := fun hfirst => by
          rw [List.takeWhile_cons_of_pos hfirst] at hempty
          cases hempty
        simp only [isNameByte, Bool.and_eq_true, Bool.not_eq_true', bne_iff_ne] at hfirst
        rw [Bool.or_eq_true, not_or] at hblank
        by_contra hne
        exact hfirst ⟨⟨hne, (Bool.not_eq_true _).mp hend⟩, (Bool.not_eq_true _).mp hblank.1⟩
      rw [hempty] at hpos
      have := hpos (congrArg some hequals)
      omega
    · have := List.length_pos_iff.mpr hempty
      omega

/-- Reading attributes is a turn, and reading what it leaves. -/
theorem parseFrom_eq_turn (before : UInt8) (language : Option Bytes) (text : Bytes) :
    parseFrom before language text =
      match turn language text with
      | .ends => some ⟨1, before == '/', language⟩
      | .stuck => none
      | .goesOn taken language =>
        (parseFrom ((text.take taken).getLast?.getD before) language (text.drop taken)).map
          (grow taken) := by
  cases text with
  | nil => rw [parseFrom, turn]
  | cons b rest =>
    have hfits := fits_turn language (b :: rest)
    rw [parseFrom, turn]
    rw [turn] at hfits
    split
    · rfl
    rename_i hend
    rw [if_neg hend] at hfits
    split
    · rfl
    rename_i hblank
    rw [if_neg hblank] at hfits
    simp only at hfits ⊢
    cases hvalue : value ((b :: rest).drop ((b :: rest).takeWhile isNameByte).length) with
    | none => rfl
    | some found =>
      obtain ⟨content, taken⟩ := found
      rw [hvalue] at hfits
      cases hfits with
      | goesOn hpos hinside =>
        obtain ⟨extra, hextra⟩ := Nat.exists_eq_add_one_of_ne_zero (Nat.ne_of_gt hpos)
        simp only [hextra, Nat.add_sub_cancel, List.take_succ_cons, List.drop_succ_cons]
        rfl

/-- Reads attributes in at most the given number of turns. -/
def run (before : UInt8) (language : Option Bytes) (text : Bytes) : Nat → Option (Option OpenTag)
  | 0 => none
  | turns + 1 =>
    match turn language text with
    | .ends => some (some ⟨1, before == '/', language⟩)
    | .stuck => some none
    | .goesOn taken language =>
      (run ((text.take taken).getLast?.getD before) language (text.drop taken) turns).map
        (Option.map (grow taken))

/-- **Attributes are read in as many turns as there are bytes.** -/
theorem run_eq (before : UInt8) (language : Option Bytes) {text : Bytes} {turns : Nat}
    (h : text.length < turns) :
    run before language text turns = some (parseFrom before language text) := by
  induction turns generalizing before language text with
  | zero => exact absurd h (Nat.not_lt_zero _)
  | succ turns ih =>
    rw [run, parseFrom_eq_turn]
    have hfits := fits_turn language text
    cases hturn : turn language text with
    | ends => rfl
    | stuck => rfl
    | goesOn taken language' =>
      rw [hturn] at hfits
      cases hfits with
      | goesOn hpos hinside =>
        simp only
        rw [ih _ _ (by rw [List.length_drop]; omega), Option.map_some]

/-- **The last byte of a tag that is read is its end.** -/
theorem getLast?_of_parseFrom {tag : OpenTag} (h : parseFrom before language text = some tag) :
    (text.take tag.length).getLast? = some '>'.toUInt8 := by
  induction hn : text.length using Nat.strongRecOn generalizing before language text tag with
  | _ n ih =>
    have hfits := fits_turn language text
    rw [parseFrom_eq_turn] at h
    cases hturn : turn language text with
    | stuck =>
      rw [hturn] at h
      cases h
    | ends =>
      rw [hturn] at h hfits
      cases hfits with
      | ends hhead =>
        cases h
        cases text with
        | nil => cases hhead
        | cons b rest => exact hhead
    | goesOn taken language' =>
      rw [hturn] at h hfits
      cases hfits with
      | goesOn hpos hinside =>
        obtain ⟨rest, hrest, rfl⟩ := Option.map_eq_some_iff.mp h
        have hlast := ih _ (by rw [List.length_drop]; omega) hrest rfl
        have hsplit : text.take (rest.length + taken) =
            text.take taken ++ (text.drop taken).take rest.length := by
          rw [Nat.add_comm, List.take_add]
        rw [grow, hsplit, List.getLast?_append, hlast]
        rfl

end OpenTag

/-! ### Turns of the search -/

/-- A pattern that is found in any letter case stands where it is found, and not before. -/
theorem Bytes.findFolded?_stands {pattern text : Bytes} {n : Nat} (hpattern : pattern ≠ [])
    (h : Bytes.findFolded? pattern text = some n) :
    pattern <+: (text.drop n).map Bytes.toLower ∧
      ¬pattern <:+: (text.take n).map Bytes.toLower := by
  obtain ⟨before, after, hlower, rfl, hbefore⟩ := Bytes.find?_split hpattern h
  rw [List.map_drop, List.map_take, hlower, List.drop_left, List.take_left]
  exact ⟨List.prefix_append _ _, hbefore⟩

namespace Segment

/-- What one turn of the search for script elements comes to: it is over, it fails at a place, or it
goes on behind some bytes, with the contents of an element or without. -/
inductive Turn where
  | ends
  | fails (fault : Fault) (start stop : Nat)
  | goesOn (taken : Nat)
  | cuts (start length : Nat) (language : Option Bytes) (taken : Nat)
  deriving DecidableEq, Repr

/-- One turn: a comment, a tag, or an element. -/
def turn (text : Bytes) : Turn :=
  match Bytes.findFolded? "<script" text with
  | none => .ends
  | some tag =>
    match (Bytes.find? "<!--" text).filter (· < tag) with
    | some comment =>
      match Bytes.find? "-->" (text.drop (comment + 4)) with
      | none => .ends
      | some n => .goesOn (comment + n + 7)
    | none =>
      let heading := text.drop (tag + 7)
      if heading.head?.any (!endsTagName ·) then .goesOn (tag + 7)
      else match OpenTag.parse heading with
        | none => .fails .openScriptTag tag text.length
        | some opening =>
          let start := tag + 7 + opening.length
          if opening.selfClosing then .goesOn start
          else match Bytes.findFolded? "</script" (text.drop start) with
            | none => .fails .openScriptBlock tag start
            | some length =>
              let closing := text.drop (start + length)
              .cuts start length opening.language
                (start + length + (closing.takeWhile (!OpenTag.isTagEnd ·)).length + 1)

/-- The search is a turn, and the search in what it leaves. -/
theorem ofMarkupFrom_eq_turn (pos : Nat) (text : Bytes) : ofMarkupFrom pos text =
    match turn text with
    | .ends => .ok []
    | .fails fault start stop => .error ⟨fault, .ofOffsets (pos + start) (pos + stop)⟩
    | .goesOn taken => ofMarkupFrom (pos + taken) (text.drop taken)
    | .cuts start length language taken =>
      (ofMarkupFrom (pos + taken) (text.drop taken)).map
        (⟨text.slice start length, (pos + start).toUInt32, .ofLanguage language⟩ :: ·) := by
  rw [ofMarkupFrom]
  split
  · rename_i htag
    conv_rhs => rw [turn, htag]
  rename_i tag htag
  conv_rhs => rw [turn, htag]
  simp only
  cases (Bytes.find? "<!--" text).filter (· < tag) with
  | some comment =>
    simp only
    cases Bytes.find? "-->" (text.drop (comment + 4)) <;> rfl
  | none =>
    simp only
    cases (text.drop (tag + 7)).head?.any (!endsTagName ·) with
    | true => rfl
    | false =>
      cases OpenTag.parse (text.drop (tag + 7)) with
      | none => rfl
      | some opening =>
        obtain ⟨length, selfClosing, language⟩ := opening
        cases selfClosing with
        | true => rfl
        | false =>
          simp only
          cases Bytes.findFolded? "</script" (text.drop (tag + 7 + length)) <;> rfl

/-- Searches in at most the given number of turns. -/
def run (pos : Nat) (text : Bytes) : Nat → Option (Except Failure (List Segment))
  | 0 => none
  | turns + 1 =>
    match turn text with
    | .ends => some (.ok [])
    | .fails fault start stop => some (.error ⟨fault, .ofOffsets (pos + start) (pos + stop)⟩)
    | .goesOn taken => run (pos + taken) (text.drop taken) turns
    | .cuts start length language taken =>
      (run (pos + taken) (text.drop taken) turns).map
        (Except.map (⟨text.slice start length, (pos + start).toUInt32, .ofLanguage language⟩ :: ·))

/-! ### What a turn comes to -/

/-- A script element in a text: the tag that opens it, its contents, and the text that begins with
the tag that closes it. -/
structure Encloses (text front opening content closing : Bytes) (language : Option Bytes) :
    Prop where
  text_eq : text = front ++ (opening ++ (content ++ closing))
  opens : ("<script" : Bytes) <+: opening.map Bytes.toLower
  ends : opening.getLast? = some '>'.toUInt8
  tag : OpenTag.parse (opening.drop 7 ++ (content ++ closing)) =
    some ⟨opening.length - 7, false, language⟩
  closes : ("</script" : Bytes) <+: closing.map Bytes.toLower
  free : ¬("</script" : Bytes) <:+: content.map Bytes.toLower

variable {text front opening content closing : Bytes} {language : Option Bytes}

/-- The element is there behind other bytes as well. -/
theorem Encloses.behind (h : Encloses text front opening content closing language) (head : Bytes) :
    Encloses (head ++ text) (head ++ front) opening content closing language :=
  { h with text_eq := by rw [h.text_eq, List.append_assoc] }

theorem Encloses.pos (h : Encloses text front opening content closing language) :
    0 < opening.length ∧ (front ++ opening).length + content.length < text.length := by
  have hopening := h.opens.length_le
  have hclosing := h.closes.length_le
  rw [List.length_map, show ("<script" : Bytes).length = 7 by decide] at hopening
  rw [List.length_map, show ("</script" : Bytes).length = 8 by decide] at hclosing
  have htext := congrArg List.length h.text_eq
  simp only [List.length_append] at htext ⊢
  omega

/-- What a tag encloses, up to the first tag that closes it. -/
theorem encloses_of_tag {tag length : Nat} {found : OpenTag}
    (htag : Bytes.findFolded? "<script" text = some tag)
    (hopening : OpenTag.parse (text.drop (tag + 7)) = some found)
    (hself : found.selfClosing = false)
    (hclosing : Bytes.findFolded? "</script" (text.drop (tag + 7 + found.length)) = some length) :
    Encloses text (text.take tag) ((text.drop tag).take (7 + found.length))
      ((text.drop (tag + 7 + found.length)).take length)
      (text.drop (tag + 7 + found.length + length)) found.language := by
  obtain ⟨hopens, -⟩ := Bytes.findFolded?_stands (by decide) htag
  obtain ⟨hcloses, hfree⟩ := Bytes.findFolded?_stands (by decide) hclosing
  obtain ⟨hpos, hinside⟩ := OpenTag.length_of_parseFrom hopening
  rw [List.length_drop] at hinside
  have hlast := OpenTag.getLast?_of_parseFrom hopening
  have htake : (text.drop tag).take (7 + found.length) =
      (text.drop tag).take 7 ++ (text.drop (tag + 7)).take found.length := by
    rw [List.take_add, List.drop_drop]
  have hbehind : (text.drop (tag + 7 + found.length)).take length ++
      text.drop (tag + 7 + found.length + length) = text.drop (tag + 7 + found.length) := by
    have hdrop : text.drop (tag + 7 + found.length + length) =
        (text.drop (tag + 7 + found.length)).drop length := List.drop_drop.symm
    rw [hdrop, List.take_append_drop]
  refine ⟨?_, ?_, ?_, ?_, ?_, hfree⟩
  · rw [hbehind, Nat.add_assoc, ← List.drop_drop, List.take_append_drop, List.take_append_drop]
  · rw [List.map_take, List.prefix_take_iff]
    exact ⟨hopens, Nat.le_add_right 7 _⟩
  · rw [htake, List.getLast?_append, hlast]
    rfl
  · have hsize : ((text.drop tag).take 7).length = 7 := by
      rw [List.length_take, List.length_drop]
      omega
    have hlength : ((text.drop tag).take (7 + found.length)).length - 7 = found.length := by
      rw [List.length_take, List.length_drop]
      omega
    have hrest : ((text.drop tag).take (7 + found.length)).drop 7 =
        (text.drop (tag + 7)).take found.length := by
      rw [htake, List.drop_left' hsize]
    have hdrop : text.drop (tag + 7 + found.length) = (text.drop (tag + 7)).drop found.length :=
      List.drop_drop.symm
    rw [hrest, hbehind, hdrop, List.take_append_drop, hopening, hlength, ← hself]
  · rwa [List.drop_drop] at hcloses

/-- What holds of a turn: a failure is about a script tag, and the search goes on behind at least
one byte, and behind the contents that are cut out. -/
inductive Turn.Fits (text : Bytes) : Turn → Prop where
  | ends : Fits text .ends
  | fails {fault : Fault} {start stop : Nat}
      (hopens : ("<script" : Bytes) <+: (text.drop start).map Bytes.toLower)
      (hstart : start < stop) (hstop : stop ≤ text.length) : Fits text (.fails fault start stop)
  | goesOn {taken : Nat} (hpos : 0 < taken) (hinside : taken ≤ text.length) :
      Fits text (.goesOn taken)
  | cuts {front opening content closing : Bytes} {language : Option Bytes}
      {start length taken : Nat}
      (hencloses : Encloses text front opening content closing language)
      (hstart : (front ++ opening).length = start) (hlength : content.length = length)
      (htaken : start + length < taken) : Fits text (.cuts start length language taken)

/-- **A turn of the search** goes on, and cuts out what a tag encloses. -/
theorem fits_turn (text : Bytes) : (turn text).Fits text := by
  rw [turn]
  split
  · exact .ends
  rename_i tag htag
  have hopens := (Bytes.findFolded?_stands (by decide) htag).1
  have hinside := Bytes.findFolded?_inside (by decide) htag
  rw [show ("<script" : Bytes).length = 7 by decide] at hinside
  split
  · split
    · exact .ends
    · rename_i comment hcomment n hend
      have hends := Bytes.find?_inside (by decide) hend
      rw [show ("-->" : Bytes).length = 3 by decide, List.length_drop] at hends
      exact .goesOn (Nat.succ_pos _) (by omega)
  simp only
  split
  · exact .goesOn (Nat.succ_pos _) hinside
  split
  · exact .fails hopens (by omega) (Nat.le_refl _)
  rename_i found hfound
  have hends := (OpenTag.length_of_parseFrom hfound).2
  rw [List.length_drop] at hends
  split
  · exact .goesOn (by omega) (by omega)
  rename_i hself
  split
  · exact .fails hopens (by omega) (by omega)
  rename_i length hclosing
  have hlength := Bytes.findFolded?_inside (by decide) hclosing
  rw [List.length_drop] at hlength
  refine .cuts (encloses_of_tag htag hfound ((Bool.not_eq_true _).mp hself) hclosing) ?_ ?_ ?_
  · rw [List.length_append, List.length_take, List.length_take, List.length_drop]
    omega
  · rw [List.length_take, List.length_drop]
    omega
  · omega

/-- **There are no more turns than bytes**, and one. -/
theorem run_eq {turns : Nat} (h : text.length < turns) (pos : Nat) :
    run pos text turns = some (ofMarkupFrom pos text) := by
  induction turns generalizing pos text with
  | zero => exact absurd h (Nat.not_lt_zero _)
  | succ turns ih =>
    rw [run, ofMarkupFrom_eq_turn]
    have hfits := fits_turn text
    cases hturn : turn text with
    | ends => rfl
    | fails fault start stop => rfl
    | goesOn taken =>
      rw [hturn] at hfits
      cases hfits with
      | goesOn hpos hinside =>
        exact ih (by rw [List.length_drop]; omega) _
    | cuts start length language taken =>
      rw [hturn] at hfits
      cases hfits with
      | cuts hencloses hstart hlength htaken =>
        have hpos := hencloses.pos
        simp only
        rw [ih (by rw [List.length_drop]; omega), Option.map_some]

/-! ### What is cut out of a text -/

/-- The segment is what a script element of the text has as its contents, in the flavour that the
tag tells. -/
structure IsCut (text : Bytes) (s : Segment) : Prop where
  exists_encloses : ∃ front opening closing language,
    Encloses text front opening s.text closing language ∧
      s.offset.toNat = (front ++ opening).length ∧ s.dialect = .ofLanguage language

/-- So the segment lies in the text. -/
theorem IsCut.liesIn {s : Segment} (h : s.IsCut text) : s.LiesIn text := by
  obtain ⟨front, opening, closing, language, hencloses, hoffset, -⟩ := h.exists_encloses
  have htext := hencloses.text_eq
  rw [← List.append_assoc] at htext
  constructor
  · have := hencloses.pos
    omega
  · rw [hoffset, htext, Bytes.slice, List.drop_left, List.take_left]

/-- Segments are cut out of a text behind an offset, each behind the end of those before it. -/
structure CutFrom (text : Bytes) (pos : Nat) (segments : List Segment) : Prop where
  isCut : ∀ s ∈ segments, s.IsCut text ∧ pos < s.offset.toNat
  ordered : segments.Pairwise fun a b => a.offset.toNat + a.text.length < b.offset.toNat

theorem CutFrom.mono {pos pos' : Nat} {segments : List Segment} (h : CutFrom text pos' segments)
    (hle : pos ≤ pos') : CutFrom text pos segments :=
  ⟨fun s hs => ⟨(h.isCut s hs).1, Nat.lt_of_le_of_lt hle (h.isCut s hs).2⟩, h.ordered⟩

/-- One more segment is cut out in front of the others. -/
theorem CutFrom.cons {pos pos' : Nat} {s : Segment} {rest : List Segment} (hcut : s.IsCut text)
    (hpos : pos < s.offset.toNat) (hend : s.offset.toNat + s.text.length ≤ pos')
    (hrest : CutFrom text pos' rest) : CutFrom text pos (s :: rest) := by
  refine ⟨List.forall_mem_cons.mpr ⟨⟨hcut, hpos⟩, (hrest.mono (by omega)).isCut⟩,
    List.pairwise_cons.mpr ⟨fun t ht => ?_, hrest.ordered⟩⟩
  exact Nat.lt_of_le_of_lt hend (hrest.isCut t ht).2

/-- What a turn cuts out are the contents that the tags enclose. -/
theorem Encloses.slice (h : Encloses text front opening content closing language) :
    Bytes.slice text (front ++ opening).length content.length = content := by
  rw [Bytes.slice, h.text_eq, ← List.append_assoc, List.drop_left, List.take_left]

/-- The contents of an element that is found behind an offset are cut out of the whole text. -/
theorem Encloses.isCut {pos : Nat}
    (h : Encloses (text.drop pos) front opening content closing language) {offset : UInt32}
    (hpos : pos ≤ text.length) (hoffset : offset.toNat = pos + (front ++ opening).length) :
    IsCut text ⟨content, offset, .ofLanguage language⟩ := by
  have hbehind := h.behind (text.take pos)
  rw [List.take_append_drop] at hbehind
  refine ⟨_, opening, closing, language, hbehind, ?_, rfl⟩
  rw [hoffset, List.append_assoc, @List.length_append _ (text.take pos), List.length_take,
    Nat.min_eq_left hpos]

/-- The place of a failure is in the text, and begins where a script tag does. -/
structure FailsIn (text : Bytes) (f : Failure) : Prop where
  opens : ("<script" : Bytes) <+: (text.drop f.span.start.toNat).map Bytes.toLower
  ordered : f.span.start.toNat < f.span.stop.toNat
  inside : f.span.stop.toNat ≤ text.length

/-- **What the search comes to from an offset on**: segments that are cut out, or a failure. -/
theorem ofMarkupFrom_cuts (hlength : text.length < 2 ^ 32) (pos : Nat) :
    match ofMarkupFrom pos (text.drop pos) with
    | .ok segments => CutFrom text pos segments
    | .error f => FailsIn text f := by
  -- no offset in the text is cut off to a word
  have hword {n : Nat} (hn : n ≤ text.length) : n.toUInt32.toNat = n := by
    simp only [Nat.toUInt32, UInt32.toNat_ofNat']
    omega
  induction hn : text.length - pos using Nat.strongRecOn generalizing pos with
  | _ n ih =>
    have hfits := fits_turn (text.drop pos)
    -- what is left behind some bytes is what is left from an offset behind them
    have hlater {taken : Nat} (hpos : 0 < taken) (hinside : pos < text.length) :=
      ih _ (by omega) (pos + taken) rfl
    rw [ofMarkupFrom_eq_turn]
    simp only [List.drop_drop]
    cases hturn : turn (text.drop pos) with
    | ends => exact ⟨by simp, .nil⟩
    | fails fault start stop =>
      rw [hturn] at hfits
      cases hfits with
      | fails hopens hstart hstop =>
        rw [List.length_drop] at hstop
        rw [List.drop_drop] at hopens
        have hfrom := hword (n := pos + start) (by omega)
        have hto := hword (n := pos + stop) (by omega)
        refine ⟨?_, ?_, ?_⟩ <;> simp only [Span.ofOffsets, hfrom, hto]
        · exact hopens
        · omega
        · omega
    | goesOn taken =>
      rw [hturn] at hfits
      cases hfits with
      | goesOn hpos hinside =>
        rw [List.length_drop] at hinside
        have hrest := hlater hpos (by omega)
        simp only
        cases hfound : ofMarkupFrom (pos + taken) (text.drop (pos + taken)) with
        | ok rest =>
          rw [hfound] at hrest
          exact hrest.mono (Nat.le_add_right pos taken)
        | error f =>
          rw [hfound] at hrest
          exact hrest
    | cuts start length language taken =>
      rw [hturn] at hfits
      cases hfits with
      | @cuts front opening content closing _ _ _ _ hencloses hstart hlength htaken =>
        subst hstart hlength
        obtain ⟨hopening, hinside⟩ := hencloses.pos
        rw [List.length_drop] at hinside
        have hrest := hlater (Nat.lt_of_le_of_lt (Nat.zero_le _) htaken) (by omega)
        simp only
        cases hfound : ofMarkupFrom (pos + taken) (text.drop (pos + taken)) with
        | error f =>
          rw [hfound] at hrest
          exact hrest
        | ok rest =>
          rw [hfound] at hrest
          have hoffset := hword (n := pos + (front ++ opening).length) (by omega)
          rw [Except.map, hencloses.slice]
          refine .cons (hencloses.isCut (by omega) hoffset) ?_ ?_ hrest
          · rw [hoffset, List.length_append]
            omega
          · simp only [hoffset]
            omega

end Segment

/-- **What is cut out of a markup text are exact, disjoint slices**, and the search for them ends.
Every turn of the search goes on behind at least one byte, and so does every turn of reading the
attributes of a tag; so there is at most one turn more than there are bytes.  What is cut out
stands in order between the tags of script elements, holds no closing tag, and is what the file has
at its offset.  A failure has its place in the text, from a script tag on. -/
theorem Segment.ofMarkup_cuts {text : Bytes} (hlength : text.length < 2 ^ 32) :
    ((∀ rest, (turn rest).Fits rest) ∧ run 0 text (text.length + 1) = some (ofMarkup text)) ∧
    (∀ before language rest, (OpenTag.turn language rest).Fits rest ∧
      OpenTag.run before language rest (rest.length + 1) =
        some (OpenTag.parseFrom before language rest)) ∧
    match ofMarkup text with
    | .ok segments => CutFrom text 0 segments ∧ ∀ s ∈ segments, s.LiesIn text
    | .error f => FailsIn text f := by
  refine ⟨⟨fits_turn, run_eq (Nat.lt_succ_self _) 0⟩,
    fun before language rest => ⟨OpenTag.fits_turn language rest,
      OpenTag.run_eq before language (Nat.lt_succ_self _)⟩, ?_⟩
  have hcuts := ofMarkupFrom_cuts hlength 0
  rw [List.drop_zero] at hcuts
  rw [ofMarkup]
  cases hfound : ofMarkupFrom 0 text with
  | error f =>
    rw [hfound] at hcuts
    exact hcuts
  | ok segments =>
    rw [hfound] at hcuts
    exact ⟨hcuts, fun s hs => (hcuts.isCut s hs).1.liesIn⟩

/-- An element behind a comment and a tag that is closed by itself, and a tag that does not end. -/
theorem Segment.ofMarkup_cuts_element :
    let segment : Segment := ⟨"let x;", 40, ⟨true, false⟩⟩
    let failure : Failure := ⟨.openScriptTag, .ofOffsets 3 20⟩
    (ofMarkup "<!--<script>--><script/><SCRIPT lang=ts>let x;</Script ></p>" = .ok [segment] ∧
      CutFrom "<!--<script>--><script/><SCRIPT lang=ts>let x;</Script ></p>" 0 [segment]) ∧
    ofMarkup "<p><script lang='ts>" = .error failure ∧ FailsIn "<p><script lang='ts>" failure := by
  have hok : ofMarkup "<!--<script>--><script/><SCRIPT lang=ts>let x;</Script ></p>" =
      .ok [⟨"let x;", 40, ⟨true, false⟩⟩] := by cbv
  have herror : ofMarkup "<p><script lang='ts>" = .error ⟨.openScriptTag, .ofOffsets 3 20⟩ := by
    cbv
  obtain ⟨-, -, hcuts⟩ := @ofMarkup_cuts
    "<!--<script>--><script/><SCRIPT lang=ts>let x;</Script ></p>" (by decide)
  obtain ⟨-, -, hfails⟩ := @ofMarkup_cuts "<p><script lang='ts>" (by decide)
  rw [hok] at hcuts
  rw [herror] at hfails
  exact ⟨⟨hok, hcuts.1⟩, herror, hfails⟩

end ScriptLint
