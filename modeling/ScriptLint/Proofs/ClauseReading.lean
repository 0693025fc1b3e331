/-
Reading clauses from an outline.

An outline carries the lexemes of clauses as its tokens.  The questions that the reader of
statements asks about a token are then questions about a lexeme, and a list in braces is
read back entry by entry:

* **`Outline.Carries`** — the tokens from an index on are given lexemes;
* **`Outline.Carries.specifierList`** — the entries of a list in braces;
* **`Outline.importClause_group`** — the names that an import binds.
-/
import ScriptLint.Proofs.ClauseTokens
import ScriptLint.Proofs.Landing

namespace ScriptLint

/-! ### Lexemes as tokens -/

namespace Lexeme

/-- The lexeme is the given word or mark. -/
def isText (l : Lexeme) (text : Bytes) : Bool :=
  (l.kind = .word || l.kind = .mark) && l.text == text

/-- The lexeme opens a bracket, or closes one. -/
def IsBracket (l : Lexeme) : Prop := l = .mark '\x7b' ∨ l = .mark '\x7d'

theorem Shows.isText {l : Lexeme} {t : Token} (h : l.Shows t) (text : Bytes) :
    t.isText text = l.isText text := by
  rw [Token.isText, Lexeme.isText, h.kind, h.text]

/-- A name is no other word than `default`, and no mark. -/
theorem isText_name {id : Identifier} (hid : isOuterName id.name = true) {text : Bytes}
    (htext : text ≠ "default" ∧ (text ∈ Token.reserved ∨ isIdentifier text = false)) :
    isText (.name id) text = false := by
  have hne : id.name ≠ text := by
    rintro rfl
    rcases htext.2 with hreserved | hother
    · simp only [isOuterName, isFreeName, Bool.or_eq_true, Bool.and_eq_true, beq_iff_eq,
        decide_eq_true_eq] at hid
      rcases hid with hid | hid
      · exact hid.2 hreserved
      · exact htext.1 hid
    · rw [isIdentifier_of_isOuterName hid] at hother
      cases hother
  simp [isText, kind, Lexeme.text, hne]

/-- A lexeme is no text but its own: what is no word can only be a mark. -/
theorem isText_of_readable {l : Lexeme} (hl : l.Readable) {text : Bytes}
    (hword : isWordText text = false) (hmark : ∀ b, l = .mark b → [b] ≠ text) :
    l.isText text = false := by
  have hne {word : Bytes} (h : isWordText word = true) : word ≠ text := by
    rintro rfl
    rw [hword] at h
    cases h
  cases l with
  | keyword word => simp [isText, kind, Lexeme.text, hne hl]
  | name id => simp [isText, kind, Lexeme.text, hne hl]
  | mark b => simp [isText, kind, Lexeme.text, hmark b rfl]
  | literal l => rfl

/-- Lexemes other than braces are no brackets. -/
theorem isText_bracket {l : Lexeme} (hl : l.Readable) (hbracket : ¬ l.IsBracket) :
    ∀ text ∈ Token.openers ++ Token.closers, l.isText text = false := by
  intro text htext
  have hwords : ∀ text ∈ Token.openers ++ Token.closers, isWordText text = false := by decide
  have hmarks : ∀ b ∈ allMarks, b ≠ '\x7b' → b ≠ '\x7d' →
      ∀ text ∈ Token.openers ++ Token.closers, [b] ≠ text := by decide +kernel
  refine isText_of_readable hl (hwords text htext) ?_
  rintro b rfl
  refine hmarks b hl ?_ ?_ text htext
  · rintro rfl
    exact hbracket (.inl rfl)
  · rintro rfl
    exact hbracket (.inr rfl)

/-- Words and marks of other statements than clauses. -/
def foreign : List Bytes := ["debugger", "(", ".", "="]

theorem isText_foreign {l : Lexeme} (hl : l.Legal) :
    ∀ text ∈ foreign, l.isText text = false := by
  intro text htext
  cases l with
  | keyword word =>
    have hall : ∀ word ∈ keywords, ∀ text ∈ foreign, isText (.keyword word) text = false := by
      decide
    exact hall word hl text htext
  | name id =>
    have hall : ∀ text ∈ foreign,
      text ≠ "default" ∧ (text ∈ Token.reserved ∨ isIdentifier text = false) := by decide
    exact isText_name hl (hall text htext)
  | mark b =>
    have hall : ∀ b ∈ marks, ∀ text ∈ foreign, isText (.mark b) text = false := by
      decide +kernel
    exact hall b hl text htext
  | literal l => rfl

end Lexeme

theorem not_mem_reserved {name : Bytes} (h : isFreeName name = true) :
    name ∉ Token.reserved := by
  simp only [isFreeName, Bool.and_eq_true, decide_eq_true_eq] at h
  exact h.2

theorem isOuterName_of_isFreeName {name : Bytes} (h : isFreeName name = true) :
    isOuterName name = true := by
  simp [isOuterName, h]

namespace Outline

variable {o : Outline} {i j k : Nat} {l : Lexeme} {lexemes : List Lexeme}

/-- The token at an index is the lexeme. -/
def At (o : Outline) (i : Nat) (l : Lexeme) : Prop := ∃ t, o.tokens[i]? = some t ∧ l.Shows t

namespace At

theorem lt (h : o.At i l) : i < o.size := by
  obtain ⟨t, ht, _⟩ := h
  exact (Array.getElem?_eq_some_iff.mp ht).1

theorem is (h : o.At i l) (text : Bytes) : o.is i text = l.isText text := by
  obtain ⟨t, ht, hshows⟩ := h
  rw [Outline.is, ht, Option.any_some, hshows.isText]

/-- A lexeme that is known is the word or mark that it looks like. -/
theorem is_eq {text : Bytes} {b : Bool} (h : o.At i l) (hl : l.isText text = b := by decide) :
    o.is i text = b :=
  (h.is text).trans hl

theorem isWord (h : o.At i l) : o.isWord i = decide (l.kind = .word) := by
  obtain ⟨t, ht, hshows⟩ := h
  rw [Outline.isWord, ht, Option.any_some, hshows.kind]

theorem isString (h : o.At i l) : o.isString i = decide (l.kind = .string) := by
  obtain ⟨t, ht, hshows⟩ := h
  rw [Outline.isString, ht, Option.any_some, hshows.kind]

theorem isSpelled (h : o.At i l) : o.isSpelled i = decide (l.kind = .word ∨ l.kind = .string) := by
  rw [Outline.isSpelled, h.isWord, h.isString, Bool.decide_or]

theorem isBindable (h : o.At i l) :
    o.isBindable i = decide (l.kind = .word ∧ l.text ∉ Token.reserved) := by
  obtain ⟨t, ht, hshows⟩ := h
  rw [Outline.isBindable, ht, Option.any_some, hshows.kind, hshows.text, Bool.decide_and]

theorem text (h : o.At i l) : (o.token i).text = l.text := by
  obtain ⟨t, ht, hshows⟩ := h
  rw [token, ht, Option.getD_some, hshows.text]

theorem kind (h : o.At i l) : (o.token i).kind = l.kind := by
  obtain ⟨t, ht, hshows⟩ := h
  rw [token, ht, Option.getD_some, hshows.kind]

theorem span {span : Span} (h : o.At i l) (hspan : span ∈ l.place?) : (o.token i).span = span := by
  obtain ⟨t, ht, hshows⟩ := h
  rw [token, ht, Option.getD_some, hshows.span span hspan]

/-- The name at an index, as the reader finds it. -/
theorem spelling {id : Identifier} (h : o.At i (.name id)) : (o.token i).spelling = id.name := by
  rw [Token.spelling, h.kind, if_neg (by simp [Lexeme.kind]), h.text]
  rfl

/-- The module name at an index, as the reader finds it. -/
theorem moduleName {l : Literal} (h : o.At i (.literal l)) : o.moduleName i = l.source := by
  rw [Outline.moduleName, Token.value, h.text, h.span rfl]
  simp [Lexeme.text]

theorem isString_literal {l : Literal} (h : o.At i (.literal l)) : o.isString i = true := by
  rw [h.isString]
  rfl

theorem isBindable_name {id : Identifier} (h : o.At i (.name id)) :
    o.isBindable i = decide (id.name ∉ Token.reserved) := by
  simp [h.isBindable, Lexeme.kind, Lexeme.text]

/-- A name is no word or mark that the reader looks for. -/
theorem is_name {id : Identifier} (h : o.At i (.name id)) (hid : isOuterName id.name = true)
    {text : Bytes}
    (htext : text ≠ "default" ∧ (text ∈ Token.reserved ∨ isIdentifier text = false)) :
    o.is i text = false := by
  rw [h.is, Lexeme.isText_name hid htext]

end At

/-- The tokens from an index on are the lexemes. -/
def Carries (o : Outline) (i : Nat) : List Lexeme → Prop
  | [] => True
  | l :: rest => o.At i l ∧ o.Carries (i + 1) rest

theorem carries_append {a b : List Lexeme} :
    o.Carries i (a ++ b) ↔ o.Carries i a ∧ o.Carries (i + a.length) b := by
  induction a generalizing i with
  | nil => simp [Carries]
  | cons l a ih =>
    rw [List.cons_append, Carries, Carries, ih, List.length_cons, and_assoc,
      show i + (a.length + 1) = i + 1 + a.length by omega]

namespace Carries

theorem left {a b : List Lexeme} (h : o.Carries i (a ++ b)) : o.Carries i a :=
  (carries_append.mp h).1

theorem right {a b : List Lexeme} (h : o.Carries i (a ++ b)) : o.Carries (i + a.length) b :=
  (carries_append.mp h).2

/-- Every token is one of the lexemes. -/
theorem exists_at (h : o.Carries i lexemes) (hik : i ≤ k) (hk : k < i + lexemes.length) :
    ∃ l ∈ lexemes, o.At k l := by
  induction lexemes generalizing i with
  | nil =>
    simp only [List.length_nil] at hk
    omega
  | cons l lexemes ih =>
    rcases Nat.eq_or_lt_of_le hik with rfl | hlt
    · exact ⟨l, List.mem_cons_self, h.1⟩
    · obtain ⟨l', hl', hat⟩ := ih h.2 hlt (by rw [List.length_cons] at hk; omega)
      exact ⟨l', List.mem_cons_of_mem _ hl', hat⟩

end Carries

/-! ### Braces -/

theorem At.opens (h : o.At i (.mark '\x7b')) : o.opens i = true :=
  opens_of_brace h.is_eq

theorem At.closes (h : o.At i (.mark '\x7d')) : o.closes i = true :=
  closes_iff.mpr ⟨"\x7d", by decide, h.is_eq⟩

/-- No lexeme opens or closes a bracket. -/
def Flat (lexemes : List Lexeme) : Prop :=
  ∀ l ∈ lexemes, ∀ text ∈ Token.openers ++ Token.closers, l.isText text = false

/-- Other lexemes than brackets do not change the depth. -/
theorem At.depth_succ (h : o.At i l)
    (hno : ∀ text ∈ Token.openers ++ Token.closers, l.isText text = false) :
    o.depth (i + 1) = o.depth i := by
  refine Outline.depth_succ (Bool.eq_false_iff.mpr fun hopens => ?_)
    (Bool.eq_false_iff.mpr fun hcloses => ?_)
  · obtain ⟨opener, hmem, hi⟩ := opens_iff.mp hopens
    rw [h.is, hno opener (List.mem_append_left _ hmem)] at hi
    cases hi
  · obtain ⟨closer, hmem, hi⟩ := closes_iff.mp hcloses
    rw [h.is, hno closer (List.mem_append_right _ hmem)] at hi
    cases hi

/-- The lexemes are ones of clauses, and no braces. -/
def Plain (lexemes : List Lexeme) : Prop := ∀ l ∈ lexemes, l.Legal ∧ ¬ l.IsBracket

theorem Plain.flat (h : Plain lexemes) : Flat lexemes := fun l hl =>
  Lexeme.isText_bracket (h l hl).1.readable (h l hl).2

theorem Carries.depth_eq (h : o.Carries i lexemes) (hflat : Flat lexemes)
    (hik : i ≤ k) (hk : k ≤ i + lexemes.length) : o.depth k = o.depth i := by
  induction k, hik using Nat.le_induction with
  | base => rfl
  | succ k hik ih =>
    obtain ⟨l, hl, hat⟩ := h.exists_at hik (by omega)
    rw [hat.depth_succ (hflat l hl), ih (by omega)]

/-- The partner of a brace is the next one. -/
theorem partnerOf_brace (ho : o.Nested) (hflat : Flat lexemes)
    (h : o.Carries i (.mark '\x7b' :: (lexemes ++ [.mark '\x7d']))) :
    o.partnerOf i = i + 1 + lexemes.length := by
  obtain ⟨hopen, hinside⟩ := h
  have hclose : o.At (i + 1 + lexemes.length) (.mark '\x7d') := hinside.right.1
  have hstart := depth_of_opens hopen.opens
  -- between the braces the depth stays one more than before them
  have hdepth (k : Nat) (hik : i < k) (hk : k ≤ i + 1 + lexemes.length) :
      o.depth k = o.depth i + 1 := by
    rw [hinside.left.depth_eq hflat hik hk, hstart]
  refine ho.partnerOf_eq hopen.opens (by omega) ?_ fun k hik hk => ?_
  · rw [depth_of_closes hclose.closes, hdepth _ (by omega) (Nat.le_refl _), Nat.add_sub_cancel]
  · rw [hdepth k hik hk]
    exact Nat.lt_succ_self _

open Clause

/-! ### Plain lexemes -/

theorem Plain.append {a b : List Lexeme} (ha : Plain a) (hb : Plain b) : Plain (a ++ b) :=
  List.forall_mem_append.mpr ⟨ha, hb⟩

theorem Plain.cons (hl : l.Legal) (hbracket : ¬ l.IsBracket) (h : Plain lexemes) :
    Plain (l :: lexemes) :=
  List.forall_mem_cons.mpr ⟨⟨hl, hbracket⟩, h⟩

theorem plain_nil : Plain [] := by
  simp [Plain]

theorem plain_keyword {word : Bytes} (hword : word ∈ Lexeme.keywords) (h : Plain lexemes) :
    Plain (.keyword word :: lexemes) :=
  h.cons hword (by simp [Lexeme.IsBracket])

theorem plain_name {id : Identifier} (hid : isOuterName id.name = true) (h : Plain lexemes) :
    Plain (.name id :: lexemes) :=
  h.cons hid (by simp [Lexeme.IsBracket])

theorem plain_mark {b : UInt8} (hb : b ∈ Lexeme.marks) (hbrace : b ≠ '\x7b' ∧ b ≠ '\x7d')
    (h : Plain lexemes) : Plain (.mark b :: lexemes) :=
  h.cons hb (by simp [Lexeme.IsBracket, hbrace.1, hbrace.2])

theorem plain_typeWord (typeOnly : Bool) : Plain (typeWord typeOnly) := by
  cases typeOnly with
  | false => exact plain_nil
  | true => exact plain_keyword (by decide) plain_nil

theorem plain_aliased {name : Option Identifier} (h : ∀ n ∈ name, isOuterName n.name = true) :
    Plain (aliased name) := by
  cases name with
  | none => exact plain_nil
  | some name => exact plain_keyword (by decide) (plain_name (h name rfl) plain_nil)

theorem plain_origin {source : Literal} (h : source.Legal) : Plain (origin source) :=
  plain_keyword (by decide) (plain_nil.cons h (by simp [Lexeme.IsBracket]))

theorem plain_entry {e : ListEntry} (he : e.Legal) : Plain e.lexemes :=
  (plain_typeWord e.typeOnly).append (plain_name he.1 (plain_aliased he.2))

theorem plain_separated {entries : List ListEntry} (hlegal : ∀ e ∈ entries, e.Legal)
    (comma : Bool) : Plain (ListEntry.separated comma entries) := by
  have hcomma {rest : List Lexeme} (hrest : Plain rest) : Plain (.mark ',' :: rest) :=
    plain_mark (by decide) (by decide) hrest
  fun_induction ListEntry.separated comma entries with
  | case1 => exact plain_nil
  | case2 e =>
    refine (plain_entry (hlegal e (List.mem_singleton_self e))).append ?_
    split
    case isTrue => exact hcomma plain_nil
    case isFalse => exact plain_nil
  | case3 e rest hrest ih =>
    obtain ⟨he, hlegal⟩ := List.forall_mem_cons.mp hlegal
    exact (plain_entry he).append (hcomma (ih hlegal))

/-! ### Lists in braces -/

/-- The reader's entry of a list is the clause's. -/
structure Enters (o : Outline) (e : ListEntry) (s : Specifier) : Prop where
  name : o.At s.name (.name e.name)
  inner : o.At (s.renamed.getD s.name) (.name e.inner)
  typeOnly : s.typeOnly = e.typeOnly

/-- The word `type` before a name is recognized, and only there. -/
theorem isType_eq {typeOnly : Bool} {name : Identifier} {rest : List Lexeme}
    (h : o.Carries k (typeWord typeOnly ++ .name name :: rest))
    (hname : isOuterName name.name = true) :
    (o.is k "type" && o.isSpelled (k + 1) && !o.is (k + 1) "as") = typeOnly ∧
      (if typeOnly then k + 1 else k) = k + (typeWord typeOnly).length ∧ o.is k "," = false := by
  cases typeOnly with
  | true =>
    obtain ⟨htype, hat, _⟩ := h
    rw [htype.is, htype.is, hat.isSpelled, hat.is_name hname (by decide)]
    exact ⟨rfl, rfl, rfl⟩
  | false =>
    obtain ⟨hat, _⟩ := h
    rw [hat.is_name hname (by decide), hat.is_name hname (by decide)]
    exact ⟨rfl, rfl, rfl⟩

/-- The word `as` after a name is recognized, and only there. -/
theorem isRenamed_eq {name : Identifier} {renamed : Option Identifier} {next : Nat}
    (hname : o.At k (.name name)) (h : o.Carries (k + 1) (aliased renamed))
    (hnext : next = k + 1 + (aliased renamed).length) (has : o.is next "as" = false) :
    o.is (k + 1) "as" = renamed.isSome ∧ (if renamed.isSome then k + 3 else k + 1) = next ∧
      (renamed.isSome && !o.isSpelled (k + 2)) = false ∧
      o.At ((if renamed.isSome then some (k + 2) else none).getD k)
        (.name (renamed.getD name)) := by
  cases renamed with
  | none =>
    obtain rfl : next = k + 1 := hnext
    exact ⟨has, rfl, rfl, hname⟩
  | some renamed =>
    obtain ⟨hword, hat, -⟩ := h
    have hspelled : o.isSpelled (k + 2) = true := by
      rw [hat.isSpelled]
      rfl
    have hword : o.is (k + 1) "as" = true := hword.is_eq
    refine ⟨hword, hnext.symm, ?_, hat⟩
    rw [hspelled]
    rfl

/-- A comma is passed. -/
theorem specifiers_comma {close : Nat} (h : o.At k (.mark ',')) (hlt : k < close) :
    o.specifiers close k = o.specifiers close (k + 1) := by
  rw [specifiers, if_pos hlt, if_pos h.is_eq]

theorem specifiers_end (close : Nat) : o.specifiers close close = some [] := by
  rw [specifiers, if_neg (Nat.lt_irrefl _)]

/-- A comma stands at the index, or the brace that ends the list does. -/
def EndsEntry (o : Outline) (close next : Nat) : Prop :=
  (next < close ∧ o.At next (.mark ',')) ∨ (next = close ∧ o.At next (.mark '\x7d'))

namespace EndsEntry

variable {close next : Nat}

/-- A list that goes on goes on with a comma. -/
theorem passes (h : o.EndsEntry close next) : (decide (next < close) && !o.is next ",") = false := by
  rcases h with ⟨_, h⟩ | ⟨heq, _⟩
  · have hcomma : o.is next "," = true := h.is_eq
    rw [hcomma, Bool.not_true, Bool.and_false]
  · rw [decide_eq_false (by omega), Bool.false_and]

theorem noAs (h : o.EndsEntry close next) : o.is next "as" = false := by
  rcases h with ⟨_, h⟩ | ⟨_, h⟩ <;> exact h.is_eq

theorem not_isSpelled (h : o.EndsEntry close next) : o.isSpelled next = false := by
  rcases h with ⟨_, h⟩ | ⟨_, h⟩ <;> rw [h.isSpelled] <;> rfl

end EndsEntry

/-- The reader takes none of its ways out at an entry. -/
theorem specifiers_entry {typeOnly isRenamed : Bool} {close n next : Nat} (hlt : k < close)
    (hcomma : o.is k "," = false)
    (htype : (o.is k "type" && o.isSpelled (k + 1) && !o.is (k + 1) "as") = typeOnly)
    (hn : (if typeOnly then k + 1 else k) = n) (hname : o.isSpelled n = true)
    (hrenamed : o.is (n + 1) "as" = isRenamed)
    (hspelled : (isRenamed && !o.isSpelled (n + 2)) = false)
    (hnext : (if isRenamed then n + 3 else n + 1) = next)
    (hpasses : (decide (next < close) && !o.is next ",") = false) :
    o.specifiers close k = (o.specifiers close next).map
      (⟨n, if isRenamed then some (n + 2) else none, typeOnly⟩ :: ·) := by
  rw [specifiers, if_pos hlt, hcomma, if_neg Bool.false_ne_true]
  simp only [htype, hn, hname, hrenamed, hspelled, hnext, hpasses, Bool.not_true,
    Bool.false_eq_true, if_false]
  cases o.specifiers close next <;> rfl

/-- Wherever the lexemes stand in a list as an entry, an entry with the property is read. -/
def ReadsEntry (o : Outline) (lexemes : List Lexeme) (p : Specifier → Prop) : Prop :=
  ∀ {k close : Nat}, o.Carries k lexemes → k + lexemes.length ≤ close →
    o.EndsEntry close (k + lexemes.length) →
    ∃ s, p s ∧ o.specifiers close k = (o.specifiers close (k + lexemes.length)).map (s :: ·)

/-- **Entries with commas between them** are read up to the closing brace. -/
theorem specifiers_separatedBy {α : Type} {lexemes : α → List Lexeme} {r : α → Specifier → Prop}
    {entries : List α} {comma : Bool} {close : Nat}
    (hread : ∀ e ∈ entries, o.ReadsEntry (lexemes e) (r e))
    (h : o.Carries k (separatedBy comma (entries.map lexemes)))
    (hclose : close = k + (separatedBy comma (entries.map lexemes)).length)
    (hbrace : o.At close (.mark '\x7d')) :
    ∃ specs, o.specifiers close k = some specs ∧ List.Forall₂ r entries specs := by
  induction entries generalizing k with
  | nil =>
    obtain rfl : close = k := by simpa [separatedBy] using hclose
    exact ⟨[], specifiers_end close, .nil⟩
  | cons e entries ih =>
    obtain ⟨he, hread⟩ := List.forall_mem_cons.mp hread
    cases entries with
    | nil =>
      -- after the last entry there is the brace or one more comma
      simp only [List.map_cons, List.map_nil, separatedBy] at h hclose
      cases comma with
      | false =>
        rw [if_neg Bool.false_ne_true, List.append_nil] at h hclose
        subst hclose
        obtain ⟨s, hs, hspecs⟩ := he h (Nat.le_refl _) (.inr ⟨rfl, hbrace⟩)
        exact ⟨[s], by rw [hspecs, specifiers_end]; rfl, .cons hs .nil⟩
      | true =>
        rw [if_pos rfl] at h hclose
        rw [List.length_append, List.length_singleton] at hclose
        have hat := h.right.1
        have hlt : k + (lexemes e).length < close := by omega
        obtain ⟨s, hs, hspecs⟩ := he h.left hlt.le (.inl ⟨hlt, hat⟩)
        refine ⟨[s], ?_, .cons hs .nil⟩
        rw [hspecs, specifiers_comma hat hlt,
          show k + (lexemes e).length + 1 = close by omega, specifiers_end]
        rfl
    | cons e' entries =>
      simp only [List.map_cons, separatedBy] at h hclose ih
      rw [List.length_append, List.length_cons] at hclose
      obtain ⟨hat, htail⟩ := h.right
      have hlt : k + (lexemes e).length < close := by omega
      obtain ⟨specs, hspecs, hall⟩ := ih hread htail (by omega)
      obtain ⟨s, hs, hfirst⟩ := he h.left hlt.le (.inl ⟨hlt, hat⟩)
      refine ⟨s :: specs, ?_, .cons hs hall⟩
      rw [hfirst, specifiers_comma hat hlt, hspecs]
      rfl

/-! ### Entries of clauses -/

theorem separated_eq (comma : Bool) (entries : List ListEntry) :
    ListEntry.separated comma entries = separatedBy comma (entries.map ListEntry.lexemes) := by
  fun_induction ListEntry.separated comma entries with
  | case1 => rfl
  | case2 e => rfl
  | case3 e rest hrest ih =>
    obtain ⟨e', rest, rfl⟩ := List.exists_cons_of_ne_nil hrest
    simp only [List.map_cons, separatedBy] at ih ⊢
    rw [ih]

/-- An entry is read, if a comma or the end of the list follows it. -/
theorem readsEntry_entry {e : ListEntry} (he : e.Legal) :
    o.ReadsEntry e.lexemes (o.Enters e) := by
  intro k close h hle hend
  obtain ⟨htype, hindex, hfirst⟩ := isType_eq h he.1
  obtain ⟨hname, halias⟩ := h.right
  have hnext : k + e.lexemes.length =
      k + (typeWord e.typeOnly).length + 1 + (aliased e.renamed).length := by
    rw [ListEntry.lexemes, List.length_append, List.length_cons]
    omega
  obtain ⟨hrenamed, hstop, hspelled, hinner⟩ := isRenamed_eq hname halias hnext hend.noAs
  have hlt : k < close := by omega
  exact ⟨_, ⟨hname, hinner, rfl⟩,
    specifiers_entry hlt hfirst htype hindex (by rw [hname.isSpelled]; rfl) hrenamed hspelled hstop
      hend.passes⟩

/-- A reader jumps over braces with no brackets in them. -/
theorem afterGroup_brace (ho : o.Nested) (hflat : Flat lexemes)
    (h : o.Carries i (.mark '\x7b' :: (lexemes ++ [.mark '\x7d']))) :
    o.afterGroup i = i + (lexemes.length + 2) := by
  rw [ho.afterGroup_eq h.1.opens, partnerOf_brace ho hflat h]
  omega

/-- **A list in braces** is read entry by entry. -/
theorem specifierList_separatedBy {α : Type} {lexemes : α → List Lexeme}
    {r : α → Specifier → Prop} {entries : List α} {comma : Bool} (ho : o.Nested)
    (hflat : Flat (separatedBy comma (entries.map lexemes)))
    (hread : ∀ e ∈ entries, o.ReadsEntry (lexemes e) (r e))
    (h : o.Carries j
      (.mark '\x7b' :: (separatedBy comma (entries.map lexemes) ++ [.mark '\x7d']))) :
    ∃ specs, o.specifierList j = some specs ∧ List.Forall₂ r entries specs := by
  obtain ⟨-, hinside⟩ := id h
  rw [Outline.specifierList, partnerOf_brace ho hflat h]
  exact specifiers_separatedBy hread hinside.left rfl hinside.right.1

theorem Carries.specifierList {entries : List ListEntry} {comma : Bool} (ho : o.Nested)
    (hlegal : ∀ e ∈ entries, e.Legal) (h : o.Carries j (braces entries comma)) :
    (∃ specs, o.specifierList j = some specs ∧ List.Forall₂ o.Enters entries specs) ∧
      o.afterGroup j = j + (braces entries comma).length := by
  have hflat := (plain_separated hlegal comma).flat
  rw [braces, separated_eq] at h ⊢
  rw [separated_eq] at hflat
  constructor
  · exact specifierList_separatedBy ho hflat (fun e he => readsEntry_entry (hlegal e he)) h
  · rw [afterGroup_brace ho hflat h, List.length_cons, List.length_append, List.length_singleton]

/-! ### The end of a clause -/

/-- A semicolon stands at the index, or not, and no word that would belong to the clause
before. -/
structure Finishes (o : Outline) (j : Nat) (semicolon : Bool) : Prop where
  mark : o.is j ";" = semicolon
  noWith : o.is j "with" = false
  noAssert : o.is j "assert" = false
  noFrom : o.is j "from" = false

/-- The index behind the semicolon, if there is one. -/
def behind (j : Nat) (semicolon : Bool) : Nat := if semicolon then j + 1 else j

theorem Finishes.moduleEnd {semicolon : Bool} (h : o.Finishes j semicolon) :
    o.moduleEnd j = behind j semicolon := by
  simp [Outline.moduleEnd, behind, h.mark, h.noWith, h.noAssert]

/-! ### What imports bind -/

/-- The binding of a default. -/
def defaultBinding (typeOnly : Bool) (name : Identifier) : Binding :=
  ⟨name.name, "default", name.span, typeOnly⟩

/-- The bindings of a group. -/
def groupBindings (typeOnly : Bool) : Group → List Binding
  | .all name => [⟨name.name, "*", name.span, typeOnly⟩]
  | .list entries _ =>
    entries.map fun e => ⟨e.inner.name, e.name.name, e.inner.span, typeOnly || e.typeOnly⟩

theorem importedBinding_eq {e : ListEntry} {s : Specifier} (h : o.Enters e s) (typeOnly : Bool) :
    o.importedBinding typeOnly s =
      ⟨e.inner.name, e.name.name, e.inner.span, typeOnly || e.typeOnly⟩ := by
  rw [importedBinding, h.inner.text, h.inner.span rfl, h.name.spelling, h.typeOnly]
  rfl

theorem exportedBinding_eq {e : ListEntry} {s : Specifier} (h : o.Enters e s) (typeOnly : Bool) :
    o.exportedBinding typeOnly s =
      ⟨e.name.name, e.inner.name, e.inner.span, typeOnly || e.typeOnly⟩ := by
  rw [exportedBinding, h.inner.spelling, h.inner.span rfl, h.name.spelling, h.typeOnly]

/-- What is read of the entries is what they say. -/
theorem map_eq_of_forall₂ {α β γ : Type} {r : α → β → Prop} {f : β → γ} {g : α → γ} {as : List α}
    {bs : List β} (h : List.Forall₂ r as bs) (hfg : ∀ a b, r a b → f b = g a) :
    bs.map f = as.map g := by
  induction h with
  | nil => rfl
  | cons hab _ ih => rw [List.map_cons, List.map_cons, hfg _ _ hab, ih]

/-- The first lexeme of a group is no name and not the word `type`. -/
theorem Carries.groupHead {group : Group} {rest : List Lexeme}
    (h : o.Carries j (group.lexemes ++ rest)) :
    o.isBindable j = false ∧ o.isString j = false ∧ o.is j "type" = false ∧
      (o.is j "\x7b" || o.is j "*") = true := by
  have hmark {b : UInt8} (hat : o.At j (.mark b)) : o.isBindable j = false ∧ o.isString j = false :=
    ⟨by rw [hat.isBindable]; rfl, by rw [hat.isString]; rfl⟩
  cases group with
  | all name =>
    have hat : o.At j (.mark '*') := h.1
    refine ⟨(hmark hat).1, (hmark hat).2, hat.is_eq, ?_⟩
    rw [hat.is, hat.is]
    decide
  | list entries comma =>
    have hat : o.At j (.mark '\x7b') := h.1
    refine ⟨(hmark hat).1, (hmark hat).2, hat.is_eq, ?_⟩
    rw [hat.is, hat.is]
    decide

/-- All names of a module as one, which must be a name that can be bound. -/
theorem namedClause_all {name : Identifier} {rest : List Lexeme} (typeOnly : Bool)
    (h : o.Carries j (.mark '*' :: .keyword "as" :: .name name :: rest)) :
    o.namedClause typeOnly j =
      if name.name ∈ Token.reserved then .error j
      else .ok ([⟨name.name, "*", name.span, typeOnly⟩], j + 3) := by
  obtain ⟨hstar, has, hname, _⟩ := h
  have hstar : o.is j "*" = true := hstar.is_eq
  have has : o.is (j + 1) "as" = true := has.is_eq
  rw [namedClause, if_pos hstar, has, hname.isBindable_name, hname.text, hname.span rfl]
  by_cases hreserved : name.name ∈ Token.reserved
  · simp [hreserved]
  · simp [hreserved, Lexeme.text]

/-- A list of names. -/
theorem namedClause_list {specs : List Specifier} (typeOnly : Bool) (h : o.At j (.mark '\x7b'))
    (hspecs : o.specifierList j = some specs) :
    o.namedClause typeOnly j = .ok (specs.map (o.importedBinding typeOnly), o.afterGroup j) := by
  have hstar : ¬ o.is j "*" = true := by
    rw [h.is]
    decide
  rw [namedClause, if_neg hstar, if_pos h.is_eq, hspecs]

theorem namedClause_group {group : Group} {typeOnly : Bool} {rest : List Lexeme} (ho : o.Nested)
    (hlegal : group.Legal) (h : o.Carries j (group.lexemes ++ rest)) :
    o.namedClause typeOnly j = .ok (groupBindings typeOnly group, j + group.lexemes.length) := by
  cases group with
  | all name =>
    rw [namedClause_all typeOnly h, if_neg (not_mem_reserved hlegal)]
    rfl
  | list entries comma =>
    obtain ⟨⟨specs, hspecs, hall⟩, hafter⟩ := h.left.specifierList ho hlegal
    rw [namedClause_list typeOnly h.1 hspecs, hafter,
      map_eq_of_forall₂ hall fun e s hes => importedBinding_eq hes typeOnly]
    rfl

/-- No bindings but the default. -/
theorem namedClause_none {typeOnly : Bool} (hstar : o.is j "*" = false)
    (hbrace : o.is j "\x7b" = false) : o.namedClause typeOnly j = .ok ([], j) := by
  rw [namedClause, hstar, hbrace]
  rfl

/-- A default, which must be a name that can be bound. -/
theorem defaultClause_name {name : Identifier} (typeOnly : Bool) (h : o.At j (.name name)) :
    o.defaultClause typeOnly j =
      if name.name ∈ Token.reserved then .ok ([], j)
      else if o.is (j + 1) "," then .ok ([defaultBinding typeOnly name], j + 2)
      else if o.is (j + 1) "from" then .ok ([defaultBinding typeOnly name], j + 1)
      else .error (j + 1) := by
  rw [defaultClause, h.isBindable_name, h.text, h.span rfl]
  by_cases hreserved : name.name ∈ Token.reserved
  · simp [hreserved]
  · simp [hreserved, Lexeme.text, defaultBinding]

theorem importClause_eq {typeOnly : Bool} {first others : List Binding} {source : Literal}
    (hfirst : o.defaultClause typeOnly i = .ok (first, j))
    (hothers : o.namedClause typeOnly j = .ok (others, k)) (h : o.Carries k (origin source)) :
    o.importClause typeOnly i = .ok (first ++ others, k) := by
  obtain ⟨hfrom, hsource, _⟩ := h
  have hfrom : o.is k "from" = true := hfrom.is_eq
  simp only [importClause, hfirst, bind, Except.bind, hothers, hfrom, hsource.isString_literal,
    Bool.and_self, if_true]
  rfl

/-- An import of a default only. -/
theorem importClause_single {typeOnly : Bool} {name : Identifier} {source : Literal}
    (hname : name.name ∉ Token.reserved) (h : o.Carries j (.name name :: origin source)) :
    o.importClause typeOnly j = .ok ([defaultBinding typeOnly name], j + 1) := by
  obtain ⟨hat, hrest⟩ := h
  have hfrom : o.is (j + 1) "from" = true := hrest.1.is_eq
  have hcomma : ¬ o.is (j + 1) "," = true := by
    rw [hrest.1.is]
    decide
  have hdefault : o.defaultClause typeOnly j = .ok ([defaultBinding typeOnly name], j + 1) := by
    rw [defaultClause_name typeOnly hat, if_neg hname, if_neg hcomma, if_pos hfrom]
  exact importClause_eq hdefault (namedClause_none hrest.1.is_eq hrest.1.is_eq) hrest

/-- An import of a group only. -/
theorem importClause_group {typeOnly : Bool} {others : List Binding} {source : Literal}
    (hhead : o.isBindable j = false) (hothers : o.namedClause typeOnly j = .ok (others, k))
    (h : o.Carries k (origin source)) : o.importClause typeOnly j = .ok (others, k) := by
  have hdefault : o.defaultClause typeOnly j = .ok ([], j) := by
    rw [defaultClause, hhead, if_neg Bool.false_ne_true]
  exact importClause_eq hdefault hothers h

/-- An import of a default and a group. -/
theorem importClause_both {typeOnly : Bool} {name : Identifier} {others : List Binding}
    {source : Literal} (hname : name.name ∉ Token.reserved) (hat : o.At j (.name name))
    (hcomma : o.At (j + 1) (.mark ','))
    (hothers : o.namedClause typeOnly (j + 2) = .ok (others, k)) (h : o.Carries k (origin source)) :
    o.importClause typeOnly j = .ok (defaultBinding typeOnly name :: others, k) := by
  have hdefault : o.defaultClause typeOnly j = .ok ([defaultBinding typeOnly name], j + 2) := by
    rw [defaultClause_name typeOnly hat, if_neg hname, if_pos hcomma.is_eq]
  exact importClause_eq hdefault hothers h

end Outline

end ScriptLint
