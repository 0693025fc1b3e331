/-
Imports of the language, with any names.

The language reserves some words; the others can name a binding, `of`, `type` and `from` among
them.  The reader of statements keeps a longer table of words that name nothing, which it
needs for mentions, and asks it about some of the names that an import binds:

* a name in braces may be any word, also one that looks like `as`, `type` or `from`;
* a default, or the name for all names of a module, must not stand in the table: with one that
  does, the whole import is malformed.

So the contextual words are told apart from what they mean elsewhere in every place but these
two.

* **`ModuleImport`** — the forms of imports, as lexemes and as bindings;
* **`Outline.importing_accepted`**, **`Outline.importing_rejected`** — what is read of one;
* **`Script.parse_moduleImport`** — a text that is an import is read as this import, unless a
  name outside of braces stands in the table.
-/
import ScriptLint.Proofs.RoundTrip

namespace ScriptLint

open Outline Clause

/-! ### Imports as lexemes -/

/-- A name outside of the module, as a word or as a literal. -/
inductive Label where
  | word (id : Identifier)
  | literal (l : Literal)
  deriving DecidableEq, Inhabited, Repr

namespace Label

def lexeme : Label → Lexeme
  | word id => .name id
  | literal l => .literal l

/-- The name itself. -/
def text : Label → Bytes
  | word id => id.name
  | literal l => l.source.name

end Label

namespace ModuleImport

/-- An entry of a list: a name that is bound under itself, or under another one. -/
inductive Entry where
  | same (name : Identifier)
  | renamed (outer : Label) (name : Identifier)
  deriving DecidableEq, Inhabited, Repr

namespace Entry

/-- `name`, or `outer as name`. -/
def lexemes : Entry → List Lexeme
  | same name => [.name name]
  | renamed outer name => [outer.lexeme, .keyword "as", .name name]

/-- What the entry binds. -/
def binding : Entry → Binding
  | same name => ⟨name.name, name.name, name.span, false⟩
  | renamed outer name => ⟨name.name, outer.text, name.span, false⟩

end Entry

/-- What an import binds other than a default: all names of the module as one, or a list. -/
inductive Group where
  | all (name : Identifier)
  | list (entries : List Entry) (comma : Bool)
  deriving DecidableEq, Inhabited, Repr

/-- Rows of lexemes in braces, with commas between them. -/
def inBraces (comma : Bool) (rows : List (List Lexeme)) : List Lexeme :=
  .mark '\x7b' :: (separatedBy comma rows ++ [.mark '\x7d'])

namespace Group

/-- `* as name`, or a list in braces. -/
def lexemes : Group → List Lexeme
  | all name => [.mark '*', .keyword "as", .name name]
  | list entries comma => inBraces comma (entries.map Entry.lexemes)

/-- What the group binds. -/
def bindings : Group → List Binding
  | all name => [⟨name.name, "*", name.span, false⟩]
  | list entries _ => entries.map Entry.binding

/-- The names of the group outside of braces. -/
def outside : Group → List Identifier
  | all name => [name]
  | list _ _ => []

end Group

/-- The forms of imports: without names, of a default, and of other names with or without a
default. -/
inductive Form where
  | effect
  | single (name : Identifier)
  | grouped (first : Option Identifier) (group : Group)
  deriving DecidableEq, Inhabited, Repr

namespace Form

/-- What stands behind `import`, up to the name of the module. -/
def lexemes (source : Literal) : Form → List Lexeme
  | effect => [.literal source]
  | single name => .name name :: origin source
  | grouped (some first) group => .name first :: .mark ',' :: (group.lexemes ++ origin source)
  | grouped none group => group.lexemes ++ origin source

/-- What the import binds. -/
def bindings : Form → List Binding
  | effect => []
  | single name => [defaultBinding false name]
  | grouped first group => first.toList.map (defaultBinding false) ++ group.bindings

/-- The names that are bound outside of braces: the default, and the one for all names of the
module. -/
def outside : Form → List Identifier
  | effect => []
  | single name => [name]
  | grouped first group => first.toList ++ group.outside

end Form

/-- An attribute of an import. -/
structure Attribute where
  key : Label
  value : Literal
  deriving DecidableEq, Inhabited, Repr

/-- `key: value`. -/
def Attribute.lexemes (a : Attribute) : List Lexeme :=
  [a.key.lexeme, .mark ':', .literal a.value]

/-- The attributes of an import, after which a comma may stand. -/
structure Attributes where
  entries : List Attribute
  comma : Bool
  deriving DecidableEq, Inhabited, Repr

/-- `with` and the attributes in braces, if there are any. -/
def attributed : Option Attributes → List Lexeme
  | some a => .keyword "with" :: inBraces a.comma (a.entries.map Attribute.lexemes)
  | none => []

end ModuleImport

/-- An import declaration of the language. -/
structure ModuleImport where
  form : ModuleImport.Form
  source : Literal
  attributes : Option ModuleImport.Attributes
  semicolon : Bool
  deriving DecidableEq, Inhabited, Repr

namespace ModuleImport

/-- What stands behind the name of the module. -/
def tail (d : ModuleImport) : List Lexeme := attributed d.attributes ++ ending d.semicolon

def lexemes (d : ModuleImport) : List Lexeme :=
  .keyword "import" :: (d.form.lexemes d.source ++ d.tail)

/-- Every name is a word, and every literal is one. -/
def Legal (d : ModuleImport) : Prop := ∀ l ∈ d.lexemes, l.Readable

/-- A text is the import, with any fillers. -/
def Spell (d : ModuleImport) (text : Bytes) : Prop := Spells false 0 d.lexemes text

/-- The reader's table has none of the names that are bound outside of braces. -/
def Admitted (d : ModuleImport) : Prop := ∀ n ∈ d.form.outside, n.name ∉ Token.reserved

/-- The statement is the import: it asks for the module and binds the names. -/
structure Node (d : ModuleImport) (s : Statement) : Prop where
  kind : s.kind = .importing
  source : s.source = some d.source.source
  typeOnly : s.typeOnly = false
  bindings : s.bindings = d.form.bindings

end ModuleImport

namespace Outline

open ModuleImport

variable {o : Outline} {i j k : Nat} {a b lexemes : List Lexeme} {l : Lexeme} {source : Literal}

/-! ### Brackets -/

theorem Flat.append (ha : Flat a) (hb : Flat b) : Flat (a ++ b) :=
  List.forall_mem_append.mpr ⟨ha, hb⟩

theorem flat_of_readable (h : ∀ l ∈ lexemes, l.Readable)
    (hbracket : ∀ l ∈ lexemes, ¬ l.IsBracket) : Flat lexemes := fun l hl =>
  Lexeme.isText_bracket (h l hl) (hbracket l hl)

/-- Lexemes with commas between them are no brackets. -/
theorem flat_separatedBy {rows : List (List Lexeme)} (h : ∀ row ∈ rows, Flat row) (comma : Bool) :
    Flat (separatedBy comma rows) := by
  have hcomma : Flat [.mark ','] := by
    unfold Flat
    decide
  induction rows with
  | nil => exact List.forall_mem_nil _
  | cons row rows ih =>
    obtain ⟨hrow, h⟩ := List.forall_mem_cons.mp h
    cases rows with
    | nil =>
      refine hrow.append ?_
      split
      case isTrue => exact hcomma
      case isFalse => exact List.forall_mem_nil _
    | cons row' rows => exact hrow.append (hcomma.append (ih h))

theorem mem_separatedBy {rows : List (List Lexeme)} {row : List Lexeme} (comma : Bool)
    (hrow : row ∈ rows) (hl : l ∈ row) : l ∈ separatedBy comma rows := by
  induction rows with
  | nil => cases hrow
  | cons row' rows ih =>
    cases rows with
    | nil =>
      obtain rfl := List.mem_singleton.mp hrow
      exact List.mem_append_left _ hl
    | cons row'' rows =>
      rcases List.mem_cons.mp hrow with rfl | hrow
      · exact List.mem_append_left _ hl
      · exact List.mem_append_right _ (List.mem_cons_of_mem _ (ih hrow))

theorem mem_inBraces {rows : List (List Lexeme)} {row : List Lexeme} (comma : Bool)
    (hrow : row ∈ rows) (hl : l ∈ row) : l ∈ inBraces comma rows :=
  List.mem_cons_of_mem _ (List.mem_append_left _ (mem_separatedBy comma hrow hl))

/-- What stands in the braces of an import is no bracket. -/
theorem flat_inside {rows : List (List Lexeme)} {comma : Bool}
    (h : ∀ l ∈ inBraces comma rows, l.Readable)
    (hbracket : ∀ row ∈ rows, ∀ l ∈ row, ¬ l.IsBracket) : Flat (separatedBy comma rows) :=
  flat_separatedBy (fun row hrow => flat_of_readable (fun l hl => h l (mem_inBraces comma hrow hl))
    (hbracket row hrow)) comma

theorem not_isBracket_label (label : Label) : ¬ label.lexeme.IsBracket := by
  cases label <;> simp [Label.lexeme, Lexeme.IsBracket]

theorem not_isBracket_entry (e : ModuleImport.Entry) : ∀ l ∈ e.lexemes, ¬ l.IsBracket := by
  cases e with
  | same name => simp [ModuleImport.Entry.lexemes, Lexeme.IsBracket]
  | renamed outer name =>
    refine List.forall_mem_cons.mpr ⟨not_isBracket_label outer, ?_⟩
    simp [Lexeme.IsBracket]

theorem not_isBracket_attribute (a : ModuleImport.Attribute) : ∀ l ∈ a.lexemes, ¬ l.IsBracket := by
  have hcolon : ¬ Lexeme.IsBracket (.mark ':') := by
    unfold Lexeme.IsBracket
    decide
  refine List.forall_mem_cons.mpr ⟨not_isBracket_label a.key, List.forall_mem_cons.mpr ⟨hcolon, ?_⟩⟩
  simp [Lexeme.IsBracket]

theorem flat_entries {entries : List ModuleImport.Entry} {comma : Bool}
    (h : ∀ l ∈ inBraces comma (entries.map ModuleImport.Entry.lexemes), l.Readable) :
    Flat (separatedBy comma (entries.map ModuleImport.Entry.lexemes)) :=
  flat_inside h (List.forall_mem_map.mpr fun e _ => not_isBracket_entry e)

theorem flat_attributes {entries : List ModuleImport.Attribute} {comma : Bool}
    (h : ∀ l ∈ inBraces comma (entries.map ModuleImport.Attribute.lexemes), l.Readable) :
    Flat (separatedBy comma (entries.map ModuleImport.Attribute.lexemes)) :=
  flat_inside h (List.forall_mem_map.mpr fun a _ => not_isBracket_attribute a)

/-! ### Names -/

/-- A lexeme that can be read is no text that cannot. -/
theorem At.is_eq_false (h : o.At i l) (hl : l.Readable) {text : Bytes}
    (hword : isWordText text = false) (hmark : ∀ b ∈ Lexeme.allMarks, [b] ≠ text) :
    o.is i text = false := by
  rw [h.is]
  refine Lexeme.isText_of_readable hl hword ?_
  rintro b rfl
  exact hmark b hl

/-- A word or literal is no mark. -/
theorem At.is_mark {label : Label} (h : o.At i label.lexeme) (hlabel : label.lexeme.Readable)
    {text : Bytes} (hword : isWordText text = false) : o.is i text = false := by
  rw [h.is]
  refine Lexeme.isText_of_readable hlabel hword ?_
  cases label <;> simp [Label.lexeme]

theorem At.isSpelled_label {label : Label} (h : o.At i label.lexeme) : o.isSpelled i = true := by
  rw [h.isSpelled]
  cases label <;> rfl

theorem At.spelling_label {label : Label} (h : o.At i label.lexeme) :
    (o.token i).spelling = label.text := by
  rw [Token.spelling, h.kind]
  cases label with
  | word id =>
    rw [h.text]
    rfl
  | literal l =>
    rw [Token.value, h.text]
    simp [Label.lexeme, Lexeme.kind, Lexeme.text, Label.text]

/-- **An entry of an import is read**, whatever its words look like. -/
theorem readsEntry_import {e : ModuleImport.Entry} (hreadable : ∀ l ∈ e.lexemes, l.Readable) :
    o.ReadsEntry e.lexemes fun s => o.importedBinding false s = e.binding := by
  intro k close h hle hend
  cases e with
  | same name =>
    have hat : o.At k (Label.word name).lexeme := h.1
    have hlt : k < close := hle
    have hcomma : o.is k "," = false :=
      hat.is_mark (hreadable _ List.mem_cons_self) (by decide)
    -- `type` in front of the end of an entry is a name
    have htype : (o.is k "type" && o.isSpelled (k + 1) && !o.is (k + 1) "as") = false := by
      rw [show o.isSpelled (k + 1) = false from hend.not_isSpelled, Bool.and_false, Bool.false_and]
    refine ⟨⟨k, none, false⟩, ?_,
      specifiers_entry hlt hcomma htype rfl hat.isSpelled_label hend.noAs rfl rfl hend.passes⟩
    show Binding.mk _ _ _ _ = _
    rw [Option.getD_none, hat.text, hat.spelling_label, hat.span rfl]
    rfl
  | renamed outer name =>
    obtain ⟨hat, has, hname, -⟩ := h
    have hlt : k < close := by
      simp only [ModuleImport.Entry.lexemes, List.length_cons, List.length_nil] at hle
      omega
    have hcomma : o.is k "," = false :=
      hat.is_mark (hreadable _ List.mem_cons_self) (by decide)
    have has : o.is (k + 1) "as" = true := has.is_eq
    -- `type` in front of `as` is a name
    have htype : (o.is k "type" && o.isSpelled (k + 1) && !o.is (k + 1) "as") = false := by
      rw [has, Bool.not_true, Bool.and_false]
    have hspelled : (true && !o.isSpelled (k + 2)) = false := by
      rw [show o.isSpelled (k + 2) = true from @At.isSpelled_label o _ (.word name) hname]
      rfl
    refine ⟨⟨k, some (k + 2), false⟩, ?_,
      specifiers_entry hlt hcomma htype rfl hat.isSpelled_label has hspelled rfl hend.passes⟩
    show Binding.mk _ _ _ _ = _
    rw [Option.getD_some, hname.text, hname.span rfl, hat.spelling_label]
    rfl

/-! ### What an import binds -/

/-- The first lexeme of a group is a mark. -/
theorem Carries.moduleGroupHead {group : ModuleImport.Group} {rest : List Lexeme}
    (h : o.Carries j (group.lexemes ++ rest)) :
    o.isBindable j = false ∧ o.isString j = false ∧ o.is j "type" = false := by
  obtain ⟨b, hb, hat⟩ : ∃ b, (b = '*' ∨ b = '\x7b') ∧ o.At j (.mark b) := by
    cases group with
    | all name => exact ⟨_, .inl rfl, h.1⟩
    | list entries comma => exact ⟨_, .inr rfl, h.1⟩
  refine ⟨by rw [hat.isBindable]; rfl, by rw [hat.isString]; rfl, ?_⟩
  rcases hb with rfl | rfl <;> exact hat.is_eq

/-- A group is read, if the table has no name outside of its braces. -/
theorem namedClause_moduleGroup {group : ModuleImport.Group} {rest : List Lexeme} (ho : o.Nested)
    (hreadable : ∀ l ∈ group.lexemes, l.Readable)
    (hfree : ∀ n ∈ group.outside, n.name ∉ Token.reserved)
    (h : o.Carries j (group.lexemes ++ rest)) :
    o.namedClause false j = .ok (group.bindings, j + group.lexemes.length) := by
  cases group with
  | all name =>
    rw [namedClause_all false h, if_neg (hfree name List.mem_cons_self)]
    rfl
  | list entries comma =>
    have hflat := flat_entries hreadable
    have hread : ∀ e ∈ entries, o.ReadsEntry e.lexemes
        fun s => o.importedBinding false s = e.binding := by
      intro e he
      exact readsEntry_import fun l hl =>
        hreadable l (mem_inBraces comma (List.mem_map_of_mem he) hl)
    obtain ⟨specs, hspecs, hall⟩ := specifierList_separatedBy ho hflat hread h.left
    rw [namedClause_list false h.1 hspecs, afterGroup_brace ho hflat h.left,
      map_eq_of_forall₂ hall fun e s hes => hes]
    simp only [ModuleImport.Group.lexemes, inBraces, List.length_cons, List.length_append,
      List.length_nil]
    rfl

/-- The word `type` in front of `from` or a comma is a name. -/
theorem importsTypes_eq_false (h : o.At (j + 1) l) (hl : l = .keyword "from" ∨ l = .mark ',') :
    o.importsTypes j = false := by
  rw [importsTypes, h.isWord, h.is, h.is, h.is]
  rcases hl with rfl | rfl <;> exact Bool.and_false _

/-- Names to bind stand at the index: no word `type` in front of them, and no literal. -/
structure NamesFollow (o : Outline) (j : Nat) : Prop where
  noTypes : o.importsTypes j = false
  noString : o.isString j = false
  noEquals : (o.isBindable j && o.is (j + 1) "=") = false

/-- With names the bindings decide what is read. -/
theorem NamesFollow.importing_eq (h : o.NamesFollow (i + 1)) :
    o.importing i = match o.importClause false (i + 1) with
      | .error j => .error ⟨.malformedImport, o.spanOf i (min (j + 1) o.size)⟩
      | .ok (bindings, j) =>
        .ok ({ kind := .importing, span := o.spanOf i (o.moduleEnd (j + 2)),
               source := some (o.moduleName (j + 1)), bindings }, o.moduleEnd (j + 2)) := by
  cases hclause : o.importClause false (i + 1) <;>
    simp only [importing, h.noTypes, Bool.false_eq_true, if_false, h.noString, h.noEquals, hclause]

/-- A name is followed by `from` or a comma. -/
theorem namesFollow_name {name : Identifier} (h : o.At j (.name name)) (hnext : o.At (j + 1) l)
    (hl : l = .keyword "from" ∨ l = .mark ',') : o.NamesFollow j := by
  refine ⟨importsTypes_eq_false hnext hl, by rw [h.isString]; rfl, ?_⟩
  rw [hnext.is]
  rcases hl with rfl | rfl <;> exact Bool.and_false _

theorem namesFollow_group {group : ModuleImport.Group} {rest : List Lexeme}
    (h : o.Carries j (group.lexemes ++ rest)) : o.NamesFollow j := by
  obtain ⟨hbind, hstring, htype⟩ := h.moduleGroupHead
  exact ⟨by rw [importsTypes, htype, Bool.false_and], hstring, by rw [hbind, Bool.false_and]⟩

/-- The bindings of an import are read, if the table has no name outside of braces. -/
theorem importClause_accepted {form : ModuleImport.Form} (ho : o.Nested)
    (hreadable : ∀ l ∈ form.lexemes source, l.Readable)
    (hfree : ∀ n ∈ form.outside, n.name ∉ Token.reserved) (hform : form ≠ .effect)
    (h : o.Carries j (form.lexemes source)) :
    o.NamesFollow j ∧ ∃ k, o.importClause false j = .ok (form.bindings, k) ∧
      o.At (k + 1) (.literal source) ∧ k + 2 = j + (form.lexemes source).length := by
  cases form with
  | effect => exact absurd rfl hform
  | single name =>
    have hname : name.name ∉ Token.reserved := hfree name List.mem_cons_self
    exact ⟨namesFollow_name h.1 h.2.1 (.inl rfl), j + 1, importClause_single hname h, h.2.2.1, rfl⟩
  | grouped first group =>
    have hothers : ∀ n ∈ group.outside, n.name ∉ Token.reserved := fun n hn =>
      hfree n (List.mem_append_right _ hn)
    cases first with
    | none =>
      have hgroup : ∀ l ∈ group.lexemes, l.Readable := fun l hl =>
        hreadable l (List.mem_append_left _ hl)
      have hnamed := namedClause_moduleGroup ho hgroup hothers h
      refine ⟨namesFollow_group h, _, importClause_group h.moduleGroupHead.1 hnamed h.right,
        h.right.2.1, ?_⟩
      simp only [ModuleImport.Form.lexemes, origin, List.length_append, List.length_cons,
        List.length_nil]
      omega
    | some name =>
      obtain ⟨hat, hcomma, hrest⟩ := h
      have hname : name.name ∉ Token.reserved := hfree name List.mem_cons_self
      have hgroup : ∀ l ∈ group.lexemes, l.Readable := fun l hl => hreadable l
        (List.mem_cons_of_mem _ (List.mem_cons_of_mem _ (List.mem_append_left _ hl)))
      have hnamed := namedClause_moduleGroup ho hgroup hothers hrest
      refine ⟨namesFollow_name hat hcomma (.inr rfl), _,
        importClause_both hname hat hcomma hnamed hrest.right, hrest.right.2.1, ?_⟩
      simp only [ModuleImport.Form.lexemes, origin, List.length_append, List.length_cons,
        List.length_nil]
      omega

/-- A default in the table is not taken for one, and `from` is not found. -/
theorem importClause_reserved {name : Identifier} (h : o.At j (.name name))
    (hword : isWordText name.name = true) (hreserved : name.name ∈ Token.reserved)
    (hnext : o.isString (j + 1) = false) : o.importClause false j = .error j := by
  have hdefault : o.defaultClause false j = .ok ([], j) := by
    rw [defaultClause_name false h, if_pos hreserved]
  have hmark {text : Bytes} (htext : isWordText text = false) : o.is j text = false :=
    @At.is_mark o j (.word name) h hword _ htext
  have hnamed : o.namedClause false j = .ok ([], j) :=
    namedClause_none (hmark (by decide)) (hmark (by decide))
  simp only [importClause, hdefault, bind, Except.bind, hnamed, hnext, Bool.and_false,
    Bool.false_eq_true, if_false]
  rfl

/-- A name for all names of the module in the table is a fault. -/
theorem importClause_all {first : List Binding} {name : Identifier} {rest : List Lexeme}
    (hdefault : o.defaultClause false j = .ok (first, k)) (hreserved : name.name ∈ Token.reserved)
    (h : o.Carries k ((ModuleImport.Group.all name).lexemes ++ rest)) :
    o.importClause false j = .error k := by
  have hnamed : o.namedClause false k = .error k := by
    rw [namedClause_all false h, if_pos hreserved]
  simp only [importClause, hdefault, bind, Except.bind, hnamed]

/-- **The bindings of an import are malformed**, if the table has a name outside of braces. -/
theorem importClause_rejected {form : ModuleImport.Form}
    (hreadable : ∀ l ∈ form.lexemes source, l.Readable)
    (hreserved : ∃ n ∈ form.outside, n.name ∈ Token.reserved)
    (h : o.Carries j (form.lexemes source)) :
    o.NamesFollow j ∧ ∃ k, o.importClause false j = .error k := by
  obtain ⟨n, hn, hreserved⟩ := hreserved
  cases form with
  | effect => cases hn
  | single name =>
    obtain rfl := List.mem_singleton.mp hn
    exact ⟨namesFollow_name h.1 h.2.1 (.inl rfl), j, importClause_reserved h.1
      (hreadable _ List.mem_cons_self) hreserved (by rw [h.2.1.isString]; rfl)⟩
  | grouped first group =>
    cases first with
    | none =>
      cases group with
      | list entries comma => cases hn
      | all name =>
        obtain rfl := List.mem_singleton.mp hn
        have hdefault : o.defaultClause false j = .ok ([], j) := by
          rw [defaultClause, h.moduleGroupHead.1, if_neg Bool.false_ne_true]
        exact ⟨namesFollow_group h, j, importClause_all hdefault hreserved h⟩
    | some name =>
      obtain ⟨hat, hcomma, hrest⟩ := h
      have hfollow := namesFollow_name hat hcomma (.inr rfl)
      by_cases hname : name.name ∈ Token.reserved
      · exact ⟨hfollow, j, importClause_reserved hat (hreadable _ List.mem_cons_self) hname
          (by rw [hcomma.isString]; rfl)⟩
      · -- the default is read, and the fault lies behind the comma
        have hgroup : n ∈ group.outside := by
          refine (List.mem_cons.mp hn).resolve_left ?_
          rintro rfl
          exact hname hreserved
        cases group with
        | list entries comma => cases hgroup
        | all name' =>
          obtain rfl := List.mem_singleton.mp hgroup
          have hdefault : o.defaultClause false j = .ok ([defaultBinding false name], j + 2) := by
            rw [defaultClause_name false hat, if_neg hname, if_pos hcomma.is_eq]
          exact ⟨hfollow, j + 2, importClause_all hdefault hreserved hrest⟩

/-! ### Imports as statements -/

/-- The lexemes behind `import` can be read. -/
theorem readable_form {d : ModuleImport} (hlegal : d.Legal) :
    ∀ l ∈ d.form.lexemes d.source, l.Readable := fun l hl =>
  hlegal l (List.mem_cons_of_mem _ (List.mem_append_left _ hl))

/-- **An import is read**, if the table has no name outside of its braces. -/
theorem importing_accepted {d : ModuleImport} (ho : o.Nested) (hlegal : d.Legal)
    (hadmitted : d.Admitted) (h : o.Carries i d.lexemes) :
    ∃ s, o.importing i = .ok (s, o.moduleEnd (i + 1 + (d.form.lexemes d.source).length)) ∧
      d.Node s := by
  have hform := h.2.left
  by_cases heffect : d.form = .effect
  · rw [heffect] at hform ⊢
    obtain ⟨span, hread⟩ := importing_effect hform.1
    exact ⟨_, hread, rfl, rfl, rfl, by rw [heffect]; rfl⟩
  · obtain ⟨hfollow, k, hclause, hsource, hk⟩ :=
      importClause_accepted ho (readable_form hlegal) hadmitted heffect hform
    have hread := hfollow.importing_eq
    simp only [hclause, hk] at hread
    exact ⟨_, hread, rfl, congrArg some hsource.moduleName, rfl, rfl⟩

/-- **An import is malformed**, if the table has a name outside of its braces. -/
theorem importing_rejected {d : ModuleImport} (hlegal : d.Legal) (hadmitted : ¬ d.Admitted)
    (h : o.Carries i d.lexemes) :
    ∃ span, o.importing i = .error ⟨.malformedImport, span⟩ := by
  have hreserved : ∃ n ∈ d.form.outside, n.name ∈ Token.reserved := by
    simpa [ModuleImport.Admitted] using hadmitted
  obtain ⟨hfollow, k, hclause⟩ :=
    importClause_rejected (readable_form hlegal) hreserved h.2.left
  refine ⟨o.spanOf i (min (k + 1) o.size), ?_⟩
  rw [hfollow.importing_eq, hclause]

/-! ### What follows an import -/

/-- A mark begins no statement. -/
theorem At.breaksBefore_mark {b : UInt8} (h : o.At i (.mark b)) : o.breaksBefore i = false := by
  have hstarts : (o.token i).startsStatement = false := by
    rw [Token.startsStatement, h.kind]
    rfl
  rw [breaksBefore, hstarts, Bool.and_false]

/-- Attributes on a line of their own are read as an expression. -/
theorem statement_attributes {stop : Nat} (h : o.At j (.keyword "with"))
    (hstop : o.statementEnd j = stop) :
    ∃ statements, o.statement j = .ok (statements, stop) ∧
      ∀ s ∈ statements, s.kind ≠ .importing := by
  have hother : ∀ text ∈ ["import", "export", "debugger", "function", "async", "class", "abstract",
      "var", "const", "let"].map Bytes.ofString, o.is j text = false := by
    have hne : ∀ text ∈ ["import", "export", "debugger", "function", "async", "class", "abstract",
      "var", "const", "let"].map Bytes.ofString,
      Lexeme.isText (.keyword "with") text = false := by decide
    exact fun text hmem => (h.is text).trans (hne text hmem)
  simp only [List.map_cons, List.map_nil, List.forall_mem_cons] at hother
  simp only [statement, plain, declaration?, hother, Bool.false_and, Bool.or_self,
    Bool.false_eq_true, if_false, hstop]
  refine ⟨_, rfl, List.forall_mem_cons.mpr ⟨by simp, fun s hs => ?_⟩⟩
  obtain ⟨k, _, hk⟩ := List.mem_filterMap.mp hs
  split at hk
  case isTrue =>
    obtain rfl := Option.some.inj hk
    simp
  case isFalse => cases hk

/-- A semicolon at the end of the tokens, or nothing. -/
structure Ending (o : Outline) (e : Nat) (semicolon : Bool) : Prop where
  carries : o.Carries e (ending semicolon)
  size : e + (ending semicolon).length = o.size

namespace Ending

variable {e : Nat} {semicolon : Bool}

theorem finishes (h : o.Ending e semicolon) : o.Finishes e semicolon := by
  refine @finishes_clause o e [] semicolon ?_ ?_
  · rw [List.flatMap_nil, List.append_nil]
    exact h.carries
  · rw [List.flatMap_nil, List.append_nil]
    exact h.size

theorem behind_eq (h : o.Ending e semicolon) : behind e semicolon = o.size := by
  rw [← h.size]
  cases semicolon <;> rfl

/-- A statement that is read up to there ends with the tokens. -/
theorem statementEndFrom_eq (h : o.Ending e semicolon) (start : Nat) :
    o.statementEndFrom start e = o.size := by
  rw [← h.behind_eq]
  cases semicolon with
  | true =>
    have hmark : o.At e (.mark ';') := h.carries.1
    have hsemicolon : o.is e ";" = true := hmark.is_eq
    rw [statementEndFrom, if_pos hmark.lt, hmark.breaksBefore_mark, Bool.and_false,
      if_neg Bool.false_ne_true, opens_eq_false hsemicolon (by decide), if_neg Bool.false_ne_true,
      if_pos hsemicolon]
    rfl
  | false =>
    have hsize : e = o.size := h.size
    rw [statementEndFrom, if_neg (by omega), hsize]
    rfl

end Ending

/-- What stands behind the name of the module is read as part of the import, or else as one
more statement. -/
theorem bodyFrom_tail {d : ModuleImport} (ho : o.Nested) (hlegal : d.Legal)
    (h : o.Carries j d.tail) (hsize : j + d.tail.length = o.size) (hj : i < j) :
    ∃ others, o.bodyFrom (max (o.moduleEnd j) (i + 1)) = .ok others ∧
      (d.attributes = none → others = []) ∧ ∀ s ∈ others, s.kind ≠ .importing := by
  -- behind the last token there is no statement
  have hdone (stop : Nat) (hstop : stop = o.size) : o.bodyFrom stop = .ok [] := by
    rw [bodyFrom, if_neg (by omega)]
  have hall : ∀ l ∈ d.tail, l.Readable := fun l hl =>
    hlegal l (List.mem_cons_of_mem _ (List.mem_append_right _ hl))
  obtain ⟨form, source, attributes, semicolon⟩ := d
  cases attributes with
  | none =>
    have hending : o.Ending j semicolon := ⟨h, hsize⟩
    have hend : o.moduleEnd j = o.size := by
      rw [hending.finishes.moduleEnd, hending.behind_eq]
    refine ⟨[], hdone _ ?_, fun _ => rfl, List.forall_mem_nil _⟩
    have hle : j ≤ o.size := by omega
    omega
  | some attributes =>
    obtain ⟨entries, comma⟩ := attributes
    have hwith : o.At j (.keyword "with") := h.1
    have hbrace : o.At (j + 1) (.mark '\x7b') := h.2.1
    have hflat : Flat (separatedBy comma (entries.map ModuleImport.Attribute.lexemes)) :=
      flat_attributes fun l hl => hall l (List.mem_append_left _ (List.mem_cons_of_mem _ hl))
    have hafter := afterGroup_brace ho hflat h.left.2
    have hlength : (attributed (some ⟨entries, comma⟩)).length =
        (separatedBy comma (entries.map ModuleImport.Attribute.lexemes)).length + 3 := by
      simp [attributed, inBraces]
    have hending : o.Ending (o.afterGroup (j + 1)) semicolon := by
      have htail : o.Carries _ (ending semicolon) := h.right
      replace hsize : j + (attributed (some ⟨entries, comma⟩) ++ ending semicolon).length =
        o.size := hsize
      rw [List.length_append] at hsize
      rw [hafter, show j + 1 + _ = j + (attributed (some ⟨entries, comma⟩)).length by omega]
      exact ⟨htail, by omega⟩
    have hgroup := o.lt_afterGroup (j + 1)
    have hle : o.afterGroup (j + 1) ≤ o.size := by
      have := hending.size
      omega
    have hwith' : o.is j "with" = true := hwith.is_eq
    have hbrace' : o.is (j + 1) "\x7b" = true := hbrace.is_eq
    cases hline : (o.token j).onNewLine with
    | false =>
      have hend : o.moduleEnd j = o.size := by
        rw [moduleEnd, hwith', hbrace', hline]
        simp only [Bool.true_or, Bool.not_false, Bool.and_self, if_true, hending.finishes.mark]
        exact hending.behind_eq
      exact ⟨[], hdone _ (by omega), fun _ => rfl, List.forall_mem_nil _⟩
    | true =>
      -- on a line of its own the word `with` begins another statement
      have hmark : o.is j ";" = false := hwith.is_eq
      have hend : o.moduleEnd j = j := by
        rw [moduleEnd, hline]
        simp only [Bool.not_true, Bool.and_false, Bool.false_eq_true, if_false, hmark]
      have hstop : o.statementEnd j = o.size := by
        rw [statementEnd_eq hwith' (by decide), statementEndFrom, if_pos hbrace.lt,
          hbrace.breaksBefore_mark, Bool.and_false, if_neg Bool.false_ne_true, if_pos hbrace.opens]
        exact hending.statementEndFrom_eq j
      obtain ⟨statements, hstatement, hkinds⟩ := statement_attributes hwith hstop
      refine ⟨statements, ?_, fun hnone => absurd hnone (Option.some_ne_none _), hkinds⟩
      rw [hend, show max j (i + 1) = j by omega, bodyFrom, if_pos hwith.lt, hmark,
        if_neg Bool.false_ne_true, hstatement]
      show (o.bodyFrom (max o.size (j + 1)) >>= _) = _
      rw [hdone _ (by omega)]
      show Except.ok (statements ++ []) = _
      rw [List.append_nil]

/-- The word `import` at the beginning is followed by no bracket and no dot. -/
theorem statement_moduleImport {d : ModuleImport} (hlegal : d.Legal) (h : o.Carries i d.lexemes) :
    o.statement i = (o.importing i).map fun read => ([read.1], read.2) := by
  have hlength : 0 < (d.form.lexemes d.source ++ d.tail).length := by
    obtain ⟨form, source, attributes, semicolon⟩ := d
    cases form with
    | effect | single => exact Nat.succ_pos _
    | grouped first group => cases first <;> cases group <;> exact Nat.succ_pos _
  obtain ⟨l, hl, hat⟩ := h.2.exists_at (Nat.le_refl _) (by omega)
  have hreadable := hlegal l (List.mem_cons_of_mem _ hl)
  have hmarks : ∀ b ∈ Lexeme.allMarks, [b] ≠ Bytes.ofString "(" ∧ [b] ≠ Bytes.ofString "." := by
    decide +kernel
  exact statement_of_import h.1
    (hat.is_eq_false hreadable (by decide) fun b hb => (hmarks b hb).1)
    (hat.is_eq_false hreadable (by decide) fun b hb => (hmarks b hb).2)

end Outline

/-! ### Imports as texts -/

namespace ModuleImport

/-- The lexemes of a list of readable ones that has no braces. -/
theorem braced_of_readable {lexemes : List Lexeme} (h : ∀ l ∈ lexemes, l.Readable)
    (hbracket : ∀ l ∈ lexemes, ¬ l.IsBracket) : Braced lexemes :=
  .flat (flat_of_readable h hbracket)

theorem braced_inBraces {rows : List (List Lexeme)} {comma : Bool}
    (hflat : Flat (separatedBy comma rows)) : Braced (inBraces comma rows) :=
  .group (List.forall_mem_nil _) hflat (.flat (List.forall_mem_nil _))

theorem braced_group {group : Group} (h : ∀ l ∈ group.lexemes, l.Readable) :
    Braced group.lexemes := by
  cases group with
  | all name =>
    refine braced_of_readable h ?_
    have hstar : ¬ Lexeme.IsBracket (.mark '*') := by
      unfold Lexeme.IsBracket
      decide
    exact List.forall_mem_cons.mpr ⟨hstar, by simp [Lexeme.IsBracket]⟩
  | list entries comma => exact braced_inBraces (flat_entries h)

theorem braced_form {form : Form} {source : Literal}
    (h : ∀ l ∈ form.lexemes source, l.Readable) : Braced (form.lexemes source) := by
  have horigin : ∀ l ∈ origin source, ¬ l.IsBracket := by simp [origin, Lexeme.IsBracket]
  cases form with
  | effect => exact braced_of_readable h (by simp [Form.lexemes, Lexeme.IsBracket])
  | single name =>
    exact braced_of_readable h (List.forall_mem_cons.mpr ⟨by simp [Lexeme.IsBracket], horigin⟩)
  | grouped first group =>
    -- the name and the comma before a group are passed
    have hrest (hrest : ∀ l ∈ group.lexemes ++ origin source, l.Readable) :
        Braced (group.lexemes ++ origin source) := by
      obtain ⟨hgroup, hfrom⟩ := List.forall_mem_append.mp hrest
      exact (braced_group hgroup).append (braced_of_readable hfrom horigin)
    cases first with
    | none => exact hrest h
    | some first =>
      have hcomma : ¬ Lexeme.IsBracket (.mark ',') := by
        unfold Lexeme.IsBracket
        decide
      obtain ⟨hname, h⟩ := List.forall_mem_cons.mp h
      obtain ⟨hmark, h⟩ := List.forall_mem_cons.mp h
      exact ((hrest h).cons (Lexeme.isText_bracket hmark hcomma)).cons
        (Lexeme.isText_bracket hname (by simp [Lexeme.IsBracket]))

theorem braced_tail {d : ModuleImport} (h : ∀ l ∈ d.tail, l.Readable) : Braced d.tail := by
  obtain ⟨form, source, attributes, semicolon⟩ := d
  have hending : Braced (ending semicolon) := by
    refine .flat ?_
    cases semicolon <;> unfold Flat <;> decide
  cases attributes with
  | none => exact hending
  | some attributes =>
    have hword : ∀ text ∈ Token.openers ++ Token.closers,
      Lexeme.isText (.keyword "with") text = false := by decide
    have hinside := flat_attributes fun l hl =>
      h l (List.mem_append_left _ (List.mem_cons_of_mem _ hl))
    exact ((braced_inBraces hinside).cons hword).append hending

/-- Braces stand in pairs in an import. -/
theorem braced {d : ModuleImport} (hlegal : d.Legal) : Braced d.lexemes := by
  obtain ⟨himport, hrest⟩ := List.forall_mem_cons.mp hlegal
  obtain ⟨hform, htail⟩ := List.forall_mem_append.mp hrest
  exact ((braced_form hform).append (braced_tail htail)).cons
    (Lexeme.isText_bracket himport (by simp [Lexeme.IsBracket]))

end ModuleImport

/-- **A text that is an import** is read as this import, with whatever names, unless the
reader's table has a default or a name for all names of the module; then it is malformed. -/
theorem Script.parse_moduleImport {d : ModuleImport} {text : Bytes} (dialect : Dialect)
    (hlegal : d.Legal) (h : d.Spell text) :
    (d.Admitted → ∃ s others, Script.parse dialect text = .ok ⟨text, dialect, s :: others⟩ ∧
      d.Node s ∧ (d.attributes = none → others = []) ∧ ∀ t ∈ others, t.kind ≠ .importing) ∧
    (¬ d.Admitted → ∃ span, Script.parse dialect text = .error ⟨.malformedImport, span⟩) := by
  obtain ⟨tokens, hscan, hshows⟩ : ∃ tokens, Token.scan dialect.elements text = .ok tokens ∧
      List.Forall₂ Lexeme.Shows d.lexemes tokens := h.scan_readable hlegal
  obtain ⟨o, hof, ho, hcarries, hsize⟩ := Outline.exists_nested (ModuleImport.braced hlegal) hshows
  have hparse : Script.parse dialect text = do
      let body ← o.bodyFrom 0
      return ⟨text, dialect, body⟩ := by
    rw [Script.parse, hscan]
    show (Outline.ofTokens tokens >>= _) = _
    rw [hof]
    rfl
  have hmark : o.is 0 ";" = false := hcarries.1.is_eq
  have hbody : o.bodyFrom 0 = do
      let read ← o.importing 0
      let others ← o.bodyFrom (max read.2 1)
      return read.1 :: others := by
    rw [Outline.bodyFrom, if_pos hcarries.1.lt, hmark, if_neg Bool.false_ne_true,
      Outline.statement_moduleImport hlegal hcarries]
    cases o.importing 0 <;> rfl
  constructor
  · intro hadmitted
    obtain ⟨s, hread, hnode⟩ := Outline.importing_accepted ho hlegal hadmitted hcarries
    obtain ⟨others, hothers, hnone, hkinds⟩ :=
      Outline.bodyFrom_tail (i := 0) ho hlegal hcarries.2.right (by
        rw [← hsize, ModuleImport.lexemes, List.length_cons, List.length_append]
        omega) (by omega)
    refine ⟨s, others, ?_, hnode, hnone, hkinds⟩
    rw [hparse, hbody, hread]
    show ((o.bodyFrom _ >>= _) >>= _) = _
    rw [hothers]
    rfl
  · intro hadmitted
    obtain ⟨span, hread⟩ := Outline.importing_rejected hlegal hadmitted hcarries
    refine ⟨span, ?_⟩
    rw [hparse, hbody, hread]
    rfl

/-- Names that look like `type`, `as` and `from`, in braces. -/
theorem Script.parse_moduleImport_contextual : ∃ (d : ModuleImport) (s : Statement),
    d.Legal ∧ d.Spell "import a,\x7btype,as as of,\"a\\nb\"as from\x7dfrom\"x\"" ∧ d.Admitted ∧
    Script.parse ⟨false, false⟩ "import a,\x7btype,as as of,\"a\\nb\"as from\x7dfrom\"x\"" =
      .ok ⟨"import a,\x7btype,as as of,\"a\\nb\"as from\x7dfrom\"x\"", ⟨false, false⟩, [s]⟩ ∧
    s.bindings = [⟨"a", "default", ⟨7, 8⟩, false⟩, ⟨"type", "type", ⟨10, 14⟩, false⟩,
      ⟨"of", "as", ⟨21, 23⟩, false⟩, ⟨"from", "a\\nb", ⟨33, 37⟩, false⟩] := by
  let outer : Literal := ⟨'"', "a\\nb", ⟨24, 30⟩⟩
  let source : Literal := ⟨'"', "x", ⟨42, 45⟩⟩
  let d : ModuleImport :=
    ⟨.grouped (some ⟨"a", ⟨7, 8⟩⟩) (.list
        [.same ⟨"type", ⟨10, 14⟩⟩, .renamed (.word ⟨"as", ⟨15, 17⟩⟩) ⟨"of", ⟨21, 23⟩⟩,
          .renamed (.literal outer) ⟨"from", ⟨33, 37⟩⟩] false),
      source, none, false⟩
  have houter : outer.Readable :=
    ⟨.inl rfl, .plain (by decide) (.escaped (.plain (by decide) .nil))⟩
  have hsource : source.Readable := ⟨.inl rfl, .plain (by decide) .nil⟩
  have hlegal : d.Legal := by
    -- the literals are given, the words and marks are checked
    have hwords : ∀ l ∈ d.lexemes, l.kind = .word → isWordText l.text = true := by decide
    have hmarks : ∀ l ∈ d.lexemes, l.kind = .mark →
        Lexeme.allMarks.contains (l.text.headD 0) = true := by
      decide
    have hliterals : ∀ l ∈ d.lexemes, l.kind = .string →
        l = .literal outer ∨ l = .literal source := by
      decide
    intro l hl
    cases l with
    | keyword | name => exact hwords _ hl rfl
    | mark b => exact List.mem_of_elem_eq_true (hmarks _ hl rfl)
    | literal =>
      rcases hliterals _ hl rfl with hl | hl
      · exact hl ▸ houter
      · exact hl ▸ hsource
  have hspell : d.Spell "import a,\x7btype,as as of,\"a\\nb\"as from\x7dfrom\"x\"" := by
    have hblank : Filler [' '] := .blank rfl .nil
    -- one step for each lexeme, with the filler before it
    have h : Spells false 0 d.lexemes _ :=
      .next .nil (by decide) (by decide) <| .next hblank (by decide) (by decide) <|
      .next .nil (by decide) (by decide) <| .next .nil (by decide) (by decide) <|
      .next .nil (by decide) (by decide) <| .next .nil (by decide) (by decide) <|
      .next .nil (by decide) (by decide) <| .next hblank (by decide) (by decide) <|
      .next hblank (by decide) (by decide) <| .next .nil (by decide) (by decide) <|
      .next .nil (by decide) (by decide) <| .next .nil (by decide) (by decide) <|
      .next hblank (by decide) (by decide) <| .next .nil (by decide) (by decide) <|
      .next .nil (by decide) (by decide) <| .next .nil (by decide) (by decide) <|
      .done (.filler .nil)
    exact h
  have hadmitted : d.Admitted := by
    unfold ModuleImport.Admitted
    decide
  obtain ⟨s, others, hparse, hnode, hnone, -⟩ :=
    (Script.parse_moduleImport ⟨false, false⟩ hlegal hspell).1 hadmitted
  rw [hnone rfl] at hparse
  exact ⟨d, s, hlegal, hspell, hadmitted, hparse, hnode.bindings⟩

/-- A contextual word is not read as the name of a default. -/
theorem Script.parse_contextual_default :
    Script.parse ⟨false, false⟩ "import of from 'x';" =
      .error ⟨.malformedImport, .ofOffsets 0 9⟩ := by
  decide +kernel

end ScriptLint
