/-
Reading the opening tags of script elements.

An attribute is a name, which may have a value, with or without quotes, and there are blanks
before each attribute.  Attributes that are written out are read back, up to the end of the
tag, and the value of `lang` is kept:

* **`Attribute`**, **`AttributeValue`** — attributes as they are written;
* **`OpenTag.Skips`** — reading goes on behind a text as if it had begun there;
* **`OpenTag.parse_attributes`**, **`OpenTag.parse_selfClosing`** — what is read in a tag.
-/
import Mathlib.Tactic.Common
import ScriptLint.Segment

namespace ScriptLint

/-! ### Attributes -/

/-- A quotation mark. -/
def isQuote (b : UInt8) : Bool := b == '"' || b == '\''

/-- A byte of a value without quotes: no blank, no quotation mark and no end of a tag. -/
def isPlainByte (b : UInt8) : Bool :=
  !Bytes.isSpace b && b != '>' && b != '/' && !isQuote b

/-- The value of an attribute as it is written, if there is one. -/
inductive AttributeValue where
  | none
  | plain (text : Bytes) (text_ne : text ≠ []) (text_plain : ∀ b ∈ text, isPlainByte b = true)
  | quoted (quote : UInt8) (text : Bytes) (quote_mark : isQuote quote = true)
      (text_free : quote ∉ text)

namespace AttributeValue

/-- How a value is written, with the equals sign. -/
def text : AttributeValue → Bytes
  | none => []
  | plain text _ _ => '=' :: text
  | quoted quote text _ _ => '=' :: quote :: (text ++ [quote])

/-- What a value says.  No value says as much as an empty one. -/
def content : AttributeValue → Bytes
  | none => []
  | plain text _ _ => text
  | quoted _ text _ _ => text

end AttributeValue

/-- An attribute and the blanks before it. -/
structure Attribute where
  gap : Bytes
  name : Bytes
  value : AttributeValue
  gap_ne : gap ≠ []
  gap_blank : ∀ b ∈ gap, Bytes.isSpace b = true
  name_ne : name ≠ []
  name_plain : ∀ b ∈ name, isPlainByte b = true ∧ b ≠ '='

namespace Attribute

/-- How an attribute is written. -/
def text (a : Attribute) : Bytes := a.gap ++ (a.name ++ a.value.text)

/-- The attribute tells the language. -/
def isLanguage (a : Attribute) : Bool := a.name = "lang"

/-- What the attribute `lang` says, if there is one. -/
def language? (attributes : List Attribute) : Option Bytes :=
  (attributes.find? isLanguage).map fun a => a.value.content

/-- The language that is known after an attribute was read. -/
def nextLanguage (language : Option Bytes) (a : Attribute) : Option Bytes :=
  if a.name = "lang" then some a.value.content else language

/-- The last `lang` counts, but if there is one only, it is the first one. -/
theorem foldl_nextLanguage {attributes : List Attribute} (h : attributes.countP isLanguage ≤ 1) :
    attributes.foldl nextLanguage none = language? attributes := by
  have hnone (language : Option Bytes) {rest : List Attribute}
      (hrest : rest.countP isLanguage = 0) :
      rest.foldl nextLanguage language = language := by
    induction rest with
    | nil => rfl
    | cons a rest ih =>
      rw [List.countP_eq_zero] at hrest
      have hname : a.name ≠ "lang" := by simpa [isLanguage] using hrest a List.mem_cons_self
      rw [List.foldl_cons, nextLanguage, if_neg hname]
      exact ih (List.countP_eq_zero.mpr fun b hb => hrest b (List.mem_cons_of_mem _ hb))
  induction attributes with
  | nil => rfl
  | cons a rest ih =>
    rw [List.foldl_cons, nextLanguage, language?]
    by_cases hname : a.name = "lang"
    · have hlanguage : a.isLanguage = true := by simpa [isLanguage] using hname
      rw [List.countP_cons_of_pos hlanguage] at h
      rw [if_pos hname, hnone _ (Nat.le_zero.mp (Nat.le_of_succ_le_succ h)),
        List.find?_cons_of_pos hlanguage]
      rfl
    · have hlanguage : ¬ a.isLanguage = true := by simpa [isLanguage] using hname
      rw [List.countP_cons_of_neg hlanguage] at h
      rw [if_neg hname, List.find?_cons_of_neg hlanguage]
      exact ih h

end Attribute

/-! ### Values and names -/

/-- A text at which names and values end: one that begins with a blank or with the end of a
tag. -/
def Stops (rest : Bytes) : Prop :=
  ∀ b ∈ rest.head?, Bytes.isSpace b = true ∨ b = '>'

theorem isNameByte_of_plain {b : UInt8} (h : isPlainByte b = true) (heq : b ≠ '=') :
    OpenTag.isNameByte b = true := by
  simp only [isPlainByte, Bool.and_eq_true, Bool.not_eq_true', bne_iff_ne] at h
  simp [OpenTag.isNameByte, OpenTag.isTagEnd, h, heq]

theorem isValueByte_of_plain {b : UInt8} (h : isPlainByte b = true) :
    OpenTag.isValueByte b = true := by
  simp only [isPlainByte, Bool.and_eq_true, Bool.not_eq_true', bne_iff_ne] at h
  simp [OpenTag.isValueByte, OpenTag.isTagEnd, h]

theorem ne_slash_of_plain {b : UInt8} (h : isPlainByte b = true) : b ≠ '/' := by
  simp only [isPlainByte, Bool.and_eq_true, bne_iff_ne] at h
  exact h.1.2

/-- What is taken from a text of bytes of a class before a byte of another one. -/
theorem takeWhile_append_of_head {p : UInt8 → Bool} {text rest : Bytes}
    (htext : ∀ b ∈ text, p b = true) (hrest : ∀ b ∈ rest.head?, p b = false) :
    (text ++ rest).takeWhile p = text := by
  rw [List.takeWhile_append_of_pos htext]
  cases rest with
  | nil => rw [List.takeWhile_nil, List.append_nil]
  | cons b rest =>
    have hb : p b = false := hrest b rfl
    rw [List.takeWhile_cons_of_neg (by simp [hb]), List.append_nil]

namespace OpenTag

theorem isValueByte_of_stops {rest : Bytes} (h : Stops rest) :
    ∀ b ∈ rest.head?, isValueByte b = false := by
  intro b hb
  rcases h b hb with hspace | rfl
  · simp [isValueByte, hspace]
  · decide

/-- A value that is written out is read back. -/
theorem value_text (v : AttributeValue) {rest : Bytes} (hrest : Stops rest) :
    value (v.text ++ rest) = some (v.content, v.text.length) := by
  cases v with
  | none =>
    cases rest with
    | nil => rfl
    | cons b rest =>
      have hb : (b != '=') = true := by
        rcases hrest b rfl with hspace | rfl
        · rw [bne_iff_ne]
          rintro rfl
          exact absurd hspace (by decide)
        · decide
      show value (b :: rest) = some ([], 0)
      rw [value, if_pos hb]
  | plain text hne hplain =>
    have htake : (text ++ rest).takeWhile isValueByte = text :=
      takeWhile_append_of_head (fun b hb => isValueByte_of_plain (hplain b hb))
        (isValueByte_of_stops hrest)
    obtain ⟨b, more, rfl⟩ := List.exists_cons_of_ne_nil hne
    have hquote : (b == '"' || b == '\'') = false := by
      have hb := hplain b List.mem_cons_self
      simp only [isPlainByte, Bool.and_eq_true, Bool.not_eq_true'] at hb
      exact hb.2
    show value ('=' :: b :: (more ++ rest)) = _
    rw [value, if_neg (by decide)]
    simp only [hquote, Bool.false_eq_true, if_false]
    rw [← List.cons_append, htake]
    rfl
  | quoted quote text hquote hfree =>
    have htake : (text ++ quote :: rest).takeWhile (· != quote) = text :=
      takeWhile_append_of_head (fun b hb => bne_iff_ne.mpr fun h => hfree (h ▸ hb)) (by simp)
    have hquote : (quote == '"' || quote == '\'') = true := hquote
    have hlength : text.length ≠ (text ++ quote :: rest).length := by
      rw [List.length_append, List.length_cons]
      omega
    show value ('=' :: quote :: (text ++ [quote] ++ rest)) = _
    rw [List.append_assoc, List.singleton_append, value, if_neg (by decide)]
    simp only [hquote, if_true, htake, if_neg hlength]
    simp [AttributeValue.content, AttributeValue.text]

/-- A value ends the name before it. -/
theorem isNameByte_of_value (v : AttributeValue) {rest : Bytes} (hrest : Stops rest) :
    ∀ b ∈ (v.text ++ rest).head?, isNameByte b = false := by
  intro b hb
  cases v with
  | none =>
    rcases hrest b hb with hspace | rfl
    · simp [isNameByte, hspace]
    · decide
  | plain | quoted =>
    obtain rfl := Option.some.inj hb
    decide

/-! ### Reading on -/

/-- Reading a text and another one behind it is reading the second one with the text
counted, unless there is a slash right before the first one; nor is there one then before
the second one. -/
def Skips (language language' : Option Bytes) (text rest : Bytes) : Prop :=
  ∀ before : UInt8, before ≠ '/' → ∃ last : UInt8, last ≠ '/' ∧
    parseFrom before language (text ++ rest) =
      (parseFrom last language' rest).map (grow text.length)

variable {language language' language'' : Option Bytes} {text more rest : Bytes}

theorem grow_grow (m n : Nat) : grow m ∘ grow n = grow (m + n) := by
  funext tag
  simp only [Function.comp_apply, grow, OpenTag.mk.injEq, and_self, and_true]
  omega

theorem Skips.nil : Skips language language [] rest := by
  intro before hbefore
  have hgrow : grow ([] : Bytes).length = id := rfl
  exact ⟨before, hbefore, by rw [hgrow, Option.map_id]; rfl⟩

theorem Skips.append (h : Skips language language' text (more ++ rest))
    (hmore : Skips language' language'' more rest) :
    Skips language language'' (text ++ more) rest := by
  intro before hbefore
  obtain ⟨middle, hmiddle, h⟩ := h before hbefore
  obtain ⟨last, hlast, hmore⟩ := hmore middle hmiddle
  refine ⟨last, hlast, ?_⟩
  rw [List.append_assoc, h, hmore, Option.map_map, grow_grow, List.length_append]

theorem skips_blank {b : UInt8} (hb : Bytes.isSpace b = true) :
    Skips language language [b] rest := by
  have hslash : b ≠ '/' := by
    rintro rfl
    exact absurd hb (by decide)
  have hend : isTagEnd b = false := by
    rw [isTagEnd, beq_eq_false_iff_ne]
    rintro rfl
    exact absurd hb (by decide)
  intro before _
  refine ⟨b, hslash, ?_⟩
  show parseFrom before language (b :: rest) = _
  rw [parseFrom]
  simp [hend, hb]

theorem skips_blanks (h : ∀ b ∈ text, Bytes.isSpace b = true) :
    Skips language language text rest := by
  induction text with
  | nil => exact .nil
  | cons b text ih =>
    exact (skips_blank (h b List.mem_cons_self)).append
      (ih fun b' hb' => h b' (List.mem_cons_of_mem _ hb'))

/-- What is read where an attribute begins. -/
theorem parseFrom_name {before b : UInt8} {tail name content : Bytes} {taken : Nat}
    (hplain : isPlainByte b = true) (hname : (b :: tail).takeWhile isNameByte = name)
    (hvalue : value ((b :: tail).drop name.length) = some (content, taken)) :
    parseFrom before language (b :: tail) =
      (parseFrom ((b :: tail.take (name.length + taken - 1)).getLast?.getD b)
        (if name = "lang" then some content else language)
        (tail.drop (name.length + taken - 1))).map (grow (name.length + taken - 1 + 1)) := by
  simp only [isPlainByte, Bool.and_eq_true, Bool.not_eq_true', bne_iff_ne] at hplain
  obtain ⟨⟨⟨hspace, hend⟩, hslash⟩, -⟩ := hplain
  rw [parseFrom]
  simp [isTagEnd, hend, hspace, hslash, hname, hvalue]

/-- An attribute does not end with a slash. -/
theorem ne_slash_of_getLast? (a : Attribute) {b : UInt8}
    (hb : (a.name ++ a.value.text).getLast? = some b) : b ≠ '/' := by
  cases hv : a.value with
  | none =>
    rw [hv, AttributeValue.text, List.append_nil] at hb
    exact ne_slash_of_plain (a.name_plain b (List.mem_of_getLast? hb)).1
  | plain text hne hplain =>
    have hlast : (a.name ++ ('=' :: text : Bytes)).getLast? = text.getLast? := by
      obtain ⟨c, more, rfl⟩ := List.exists_cons_of_ne_nil hne
      simp [List.getLast?_append, List.getLast?_cons]
    rw [hv, AttributeValue.text, hlast] at hb
    exact ne_slash_of_plain (hplain b (List.mem_of_getLast? hb))
  | quoted quote text hquote hfree =>
    have hlast : (a.name ++ ('=' :: quote :: (text ++ [quote]) : Bytes)).getLast? = some quote := by
      simp [List.getLast?_append, List.getLast?_cons]
    rw [hv, AttributeValue.text, hlast] at hb
    obtain rfl := Option.some.inj hb
    rintro rfl
    exact absurd hquote (by decide)

/-- An attribute without the blanks before it. -/
theorem skips_attribute (a : Attribute) (hrest : Stops rest) :
    Skips language (a.nextLanguage language) (a.name ++ a.value.text) rest := by
  intro before _
  obtain ⟨b, more, hname⟩ := List.exists_cons_of_ne_nil a.name_ne
  have hplain : isPlainByte b = true := (a.name_plain b (hname ▸ List.mem_cons_self)).1
  have htext : a.name ++ a.value.text ++ rest = b :: (more ++ a.value.text ++ rest) := by
    rw [hname]
    rfl
  have htake : (b :: (more ++ a.value.text ++ rest)).takeWhile isNameByte = a.name := by
    rw [← htext, List.append_assoc]
    exact takeWhile_append_of_head
      (fun b hb => isNameByte_of_plain (a.name_plain b hb).1 (a.name_plain b hb).2)
      (isNameByte_of_value a.value hrest)
  have hvalue : value ((b :: (more ++ a.value.text ++ rest)).drop a.name.length) =
      some (a.value.content, a.value.text.length) := by
    rw [← htext, List.append_assoc, List.drop_left]
    exact value_text a.value hrest
  have hextra : a.name.length + a.value.text.length - 1 = (more ++ a.value.text).length := by
    rw [hname, List.length_append, List.length_cons]
    omega
  have hlast : ((b :: (more ++ a.value.text)).getLast?.getD b) ≠ '/' := by
    have hcons : b :: (more ++ a.value.text) = a.name ++ a.value.text := by
      rw [hname]
      rfl
    rw [hcons]
    obtain ⟨c, hc⟩ : ∃ c, (a.name ++ a.value.text).getLast? = some c := by
      rw [← hcons]
      exact ⟨_, List.getLast?_cons⟩
    rw [hc]
    exact ne_slash_of_getLast? a hc
  have hlength : a.name.length + a.value.text.length - 1 + 1 =
      (a.name ++ a.value.text).length := by
    rw [hname, List.length_append, List.length_cons]
    omega
  refine ⟨_, hlast, ?_⟩
  rw [htext, parseFrom_name hplain htake hvalue, hlength, hextra, List.take_left, List.drop_left]
  rfl

theorem stops_blanks (hne : text ≠ []) (h : ∀ b ∈ text, Bytes.isSpace b = true) :
    Stops (text ++ rest) := by
  obtain ⟨b, more, rfl⟩ := List.exists_cons_of_ne_nil hne
  intro c hc
  obtain rfl := Option.some.inj hc
  exact .inl (h b List.mem_cons_self)

/-- Attributes begin with a blank. -/
theorem stops_attributes (attributes : List Attribute) (hrest : Stops rest) :
    Stops (attributes.flatMap Attribute.text ++ rest) := by
  cases attributes with
  | nil => exact hrest
  | cons a attributes =>
    rw [List.flatMap_cons, Attribute.text, List.append_assoc, List.append_assoc]
    exact stops_blanks a.gap_ne a.gap_blank

/-- Attributes, with what ends the last one behind them. -/
theorem skips_attributes (attributes : List Attribute) (hrest : Stops rest) :
    Skips language (attributes.foldl Attribute.nextLanguage language)
      (attributes.flatMap Attribute.text) rest := by
  induction attributes generalizing language with
  | nil => exact .nil
  | cons a attributes ih =>
    rw [List.flatMap_cons, List.foldl_cons]
    refine Skips.append (Skips.append (skips_blanks a.gap_blank) ?_) ih
    exact skips_attribute a (stops_attributes attributes hrest)

/-! ### Whole tags -/

/-- A tag with attributes and its end. -/
theorem parse_attributes {attributes : List Attribute}
    (h : attributes.countP Attribute.isLanguage ≤ 1) (rest : Bytes) :
    parse (attributes.flatMap Attribute.text ++ ('>' :: rest : Bytes)) =
      some ⟨(attributes.flatMap Attribute.text).length + 1, false,
        Attribute.language? attributes⟩ := by
  have hstops : Stops ('>' :: rest) := fun b hb => .inr (Option.some.inj hb).symm
  have hbefore : ('t' : UInt8) ≠ '/' := by decide
  obtain ⟨last, hlast, hparse⟩ := skips_attributes attributes hstops _ hbefore
  have hend : parseFrom last (attributes.foldl Attribute.nextLanguage none) ('>' :: rest) =
      some ⟨1, false, Attribute.language? attributes⟩ := by
    rw [parseFrom, if_pos (by decide), Attribute.foldl_nextLanguage h,
      beq_eq_false_iff_ne.mpr hlast]
  rw [parse, hparse, hend, Option.map_some, grow, Nat.add_comm]

/-- A tag with attributes that is closed by itself. -/
theorem parse_selfClosing (attributes : List Attribute) {gap : Bytes} (hgap : gap ≠ [])
    (hblank : ∀ b ∈ gap, Bytes.isSpace b = true) (rest : Bytes) :
    ∃ language, parse (attributes.flatMap Attribute.text ++ (gap ++ ('/' :: '>' :: rest : Bytes))) =
      some ⟨(attributes.flatMap Attribute.text).length + (gap.length + 2), true, language⟩ := by
  have hstops : Stops (gap ++ ('/' :: '>' :: rest : Bytes)) := stops_blanks hgap hblank
  have hbefore : ('t' : UInt8) ≠ '/' := by decide
  have hskips : Skips none (attributes.foldl Attribute.nextLanguage none)
      (attributes.flatMap Attribute.text ++ gap) ('/' :: '>' :: rest) :=
    Skips.append (skips_attributes attributes hstops) (skips_blanks hblank)
  obtain ⟨last, -, hparse⟩ := hskips _ hbefore
  refine ⟨attributes.foldl Attribute.nextLanguage none, ?_⟩
  rw [← List.append_assoc, parse, hparse, parseFrom, if_neg (by decide), if_pos (by decide),
    parseFrom, if_pos (by decide), Option.map_some, Option.map_some, grow, grow,
    List.length_append]
  simp only [Option.some.injEq, OpenTag.mk.injEq, and_true]
  exact ⟨by omega, by decide⟩

end OpenTag

end ScriptLint
