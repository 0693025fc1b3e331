/-
Import and export clauses as text.

A module's border is a list of clauses.  A clause is written as lexemes, and lexemes as text
with fillers between them: blanks, line feeds and comments.  Every name and every module name
carries its place, so that a text spells a list of clauses in one way only:

* **`Clause`** — the forms of imports and exports;
* **`Clause.lexemes`** — the words and marks of a clause, in order;
* **`Spells`** — a text consists of lexemes with fillers around them;
* **`Clause.requests`**, **`Clause.imports`**, **`Clause.exports`**, **`Clause.exportsAll`** —
  what a clause shares with other modules.
-/
import ScriptLint.Interface
import ScriptLint.Token.Scan

namespace ScriptLint

/-! ### Names and literals -/

/-- An ASCII letter, `_` or `$`. -/
def isNameStart (b : UInt8) : Bool :=
  ('a' ≤ b && b ≤ 'z') || ('A' ≤ b && b ≤ 'Z') || b == '_' || b == '$'

/-- A byte that continues an ASCII identifier. -/
def isNamePart (b : UInt8) : Bool := isNameStart b || Bytes.isDigit b

/-- An ASCII identifier. -/
def isIdentifier : Bytes → Bool
  | [] => false
  | b :: rest => isNameStart b && rest.all isNamePart

/-- An ASCII identifier that can name a binding. -/
def isFreeName (text : Bytes) : Bool := isIdentifier text && text ∉ Token.reserved

/-- A byte that begins a word of any letters. -/
def startsWord (b : UInt8) : Bool := isNameStart b || 0x80 ≤ b

/-- A word of any letters: ones of ASCII, or bytes outside of it. -/
def isWordText : Bytes → Bool
  | [] => false
  | b :: rest => startsWord b && rest.all fun b => startsWord b || Bytes.isDigit b

/-- A name of another module: one that can name a binding, or `default`. -/
def isOuterName (text : Bytes) : Bool := isFreeName text || text == "default"

/-- A quoted module name.  The place is that of the literal with its quotes. -/
structure Literal where
  quote : UInt8
  source : Identifier
  deriving DecidableEq, Inhabited, Repr

/-- The literal is quoted, and its contents have no such quote, no backslash and no line
feed. -/
def Literal.Legal (l : Literal) : Prop :=
  (l.quote = '"' ∨ l.quote = '\'') ∧
    ∀ b ∈ l.source.name, b ≠ l.quote ∧ b ≠ '\\' ∧ b ≠ '\n'

instance (l : Literal) : Decidable l.Legal := inferInstanceAs (Decidable (_ ∧ _))

/-- The contents of a literal: neither its quote nor a line feed stands in it, except behind a
backslash. -/
inductive Quoted (quote : UInt8) : Bytes → Prop
  | nil : Quoted quote []
  | plain {b : UInt8} {rest : Bytes} : b ≠ quote ∧ b ≠ '\\' ∧ b ≠ '\n' → Quoted quote rest →
      Quoted quote (b :: rest)
  | escaped {b : UInt8} {rest : Bytes} : Quoted quote rest → Quoted quote ('\\' :: b :: rest)

/-- The literal is quoted, and its contents do not end it. -/
structure Literal.Readable (l : Literal) : Prop where
  quote : l.quote = '"' ∨ l.quote = '\''
  quoted : Quoted l.quote l.source.name

/-! ### Lexemes -/

/-- A word or mark of a clause.  Names and module names carry their places. -/
inductive Lexeme where
  | keyword (text : Bytes)
  | mark (b : UInt8)
  | name (id : Identifier)
  | literal (l : Literal)
  deriving DecidableEq, Inhabited, Repr

namespace Lexeme

/-- The class of a lexeme. -/
def kind : Lexeme → Token.Kind
  | keyword _ | name _ => .word
  | mark _ => .mark
  | literal _ => .string

/-- The text of a lexeme. -/
def text : Lexeme → Bytes
  | keyword text => text
  | mark b => [b]
  | name id => id.name
  | literal l => l.quote :: l.source.name ++ [l.quote]

/-- The place that a lexeme claims to have. -/
def place? : Lexeme → Option Span
  | name id => some id.span
  | literal l => some l.source.span
  | _ => none

/-- The marks of clauses. -/
def marks : Bytes := ['\x7b', '\x7d', ',', '*', ';']

/-- The words of clauses other than names. -/
def keywords : List Bytes := ["import", "export", "type", "as", "from"]

/-- The lexeme is one of clauses. -/
def Legal : Lexeme → Prop
  | keyword text => text ∈ keywords
  | mark b => b ∈ marks
  | name id => isOuterName id.name = true
  | literal l => l.Legal

/-- The marks of clauses and of import attributes. -/
def allMarks : Bytes := ':' :: marks

/-- The lexeme is read as one token. -/
def Readable : Lexeme → Prop
  | keyword text => isWordText text = true
  | mark b => b ∈ allMarks
  | name id => isWordText id.name = true
  | literal l => l.Readable

end Lexeme

/-! ### Clauses -/

namespace Clause

/-- One entry of a list in braces. -/
structure ListEntry where
  name : Identifier
  renamed : Option Identifier
  typeOnly : Bool
  deriving DecidableEq, Inhabited, Repr

/-- What an import binds other than a default: all names of the module as one, or a list,
which may end with a comma. -/
inductive Group where
  | all (name : Identifier)
  | list (entries : List ListEntry) (comma : Bool)
  deriving DecidableEq, Inhabited, Repr

/-- The forms of clauses: an import without names, one of a default, one of other names with
or without a default; an export of everything, as one name or not; an export of a list, from
another module or not. -/
inductive Form where
  | effect (source : Literal)
  | single (typeOnly : Bool) (name : Identifier) (source : Literal)
  | grouped (typeOnly : Bool) (first : Option Identifier) (group : Group) (source : Literal)
  | star (typeOnly : Bool) (name : Option Identifier) (source : Literal)
  | list (typeOnly : Bool) (entries : List ListEntry) (comma : Bool) (source : Option Literal)
  deriving DecidableEq, Inhabited, Repr

end Clause

/-- A clause with or without a semicolon. -/
structure Clause where
  form : Clause.Form
  semicolon : Bool
  deriving DecidableEq, Inhabited, Repr

namespace Clause

/-- The word `type` where only types are meant. -/
def typeWord (typeOnly : Bool) : List Lexeme := if typeOnly then [.keyword "type"] else []

/-- `from` and a module name. -/
def origin (source : Literal) : List Lexeme := [.keyword "from", .literal source]

/-- `as` and a name, if there is one. -/
def aliased : Option Identifier → List Lexeme
  | some name => [.keyword "as", .name name]
  | none => []

/-- A semicolon, if there is one. -/
def ending (semicolon : Bool) : List Lexeme := if semicolon then [.mark ';'] else []

/-- Rows of lexemes with commas between them, and maybe another one at the end. -/
def separatedBy (comma : Bool) : List (List Lexeme) → List Lexeme
  | [] => []
  | [row] => row ++ if comma then [.mark ','] else []
  | row :: rest => row ++ .mark ',' :: separatedBy comma rest

namespace ListEntry

/-- `name`, `type name`, `name as renamed` or `type name as renamed`. -/
def lexemes (e : ListEntry) : List Lexeme :=
  typeWord e.typeOnly ++ .name e.name :: aliased e.renamed

/-- Entries with commas between them, and maybe another one at the end. -/
def separated (comma : Bool) : List ListEntry → List Lexeme
  | [] => []
  | [e] => e.lexemes ++ if comma then [.mark ','] else []
  | e :: rest => e.lexemes ++ .mark ',' :: separated comma rest

/-- The name that an entry has inside of an importing module, and outside of an exporting
one. -/
def inner (e : ListEntry) : Identifier := e.renamed.getD e.name

/-- The names of an entry are ones of modules. -/
def Legal (e : ListEntry) : Prop :=
  isOuterName e.name.name = true ∧ ∀ renamed ∈ e.renamed, isOuterName renamed.name = true

end ListEntry

/-- A list in braces. -/
def braces (entries : List ListEntry) (comma : Bool) : List Lexeme :=
  .mark '\x7b' :: (ListEntry.separated comma entries ++ [.mark '\x7d'])

namespace Group

/-- `* as name` or a list. -/
def lexemes : Group → List Lexeme
  | all name => .mark '*' :: aliased (some name)
  | list entries comma => braces entries comma

/-- The names of a group can be bound. -/
def Legal : Group → Prop
  | all name => isFreeName name.name = true
  | list entries _ => ∀ e ∈ entries, e.Legal

end Group

namespace Form

/-- The lexemes of a clause up to its semicolon. -/
def lexemes : Form → List Lexeme
  | effect source => [.keyword "import", .literal source]
  | single typeOnly name source =>
    .keyword "import" :: (typeWord typeOnly ++ .name name :: origin source)
  | grouped typeOnly (some first) group source =>
    .keyword "import" :: (typeWord typeOnly ++
      .name first :: .mark ',' :: (group.lexemes ++ origin source))
  | grouped typeOnly none group source =>
    .keyword "import" :: (typeWord typeOnly ++ (group.lexemes ++ origin source))
  | star typeOnly name source =>
    .keyword "export" :: (typeWord typeOnly ++ .mark '*' :: (aliased name ++ origin source))
  | list typeOnly entries comma (some source) =>
    .keyword "export" :: (typeWord typeOnly ++ (braces entries comma ++ origin source))
  | list typeOnly entries comma none =>
    .keyword "export" :: (typeWord typeOnly ++ braces entries comma)

/-- The names and literals of a clause are ones of modules. -/
def Legal : Form → Prop
  | effect source => source.Legal
  | single _ name source => isFreeName name.name = true ∧ source.Legal
  | grouped _ first group source =>
    (∀ n ∈ first, isFreeName n.name = true) ∧ group.Legal ∧ source.Legal
  | star _ name source => (∀ n ∈ name, isOuterName n.name = true) ∧ source.Legal
  | list _ entries _ source => (∀ e ∈ entries, e.Legal) ∧ ∀ l ∈ source, l.Legal

end Form

/-- The kind of the statement that a clause is. -/
def kind (c : Clause) : Statement.Kind :=
  match c.form with
  | .effect _ | .single .. | .grouped .. => .importing
  | .star .. | .list .. => .exporting

/-- The lexemes of a clause. -/
def lexemes (c : Clause) : List Lexeme := c.form.lexemes ++ ending c.semicolon

/-! ### What a clause shares -/

variable (offset : UInt32)

/-- The module that a clause asks for. -/
def requests (c : Clause) : List Request :=
  match c.form with
  | .effect l => [⟨l.source.name, .importing, l.source.span.shifted offset, false⟩]
  | .single typeOnly _ l => [⟨l.source.name, .importing, l.source.span.shifted offset, typeOnly⟩]
  | .grouped typeOnly _ _ l =>
    [⟨l.source.name, .importing, l.source.span.shifted offset, typeOnly⟩]
  | .star typeOnly _ l => [⟨l.source.name, .reexporting, l.source.span.shifted offset, typeOnly⟩]
  | .list typeOnly _ _ (some l) =>
    [⟨l.source.name, .reexporting, l.source.span.shifted offset, typeOnly⟩]
  | .list _ _ _ none => []

/-- The name under which the default of a module is imported. -/
def importDefault (source : Bytes) (typeOnly : Bool) (name : Identifier) : ImportedName :=
  ⟨source, "default", name.name, name.span.shifted offset, typeOnly⟩

/-- The names that a group imports from a module. -/
def Group.imports (source : Bytes) (typeOnly : Bool) : Group → List ImportedName
  | all name => [⟨source, "*", name.name, name.span.shifted offset, typeOnly⟩]
  | list entries _ => entries.map fun e =>
    ⟨source, e.name.name, e.inner.name, e.inner.span.shifted offset, typeOnly || e.typeOnly⟩

/-- The names that a clause imports. -/
def imports (c : Clause) : List ImportedName :=
  match c.form with
  | .single typeOnly name l => [importDefault offset l.source.name typeOnly name]
  | .grouped typeOnly first group l =>
    (first.toList.map (importDefault offset l.source.name typeOnly)) ++
      group.imports offset l.source.name typeOnly
  | _ => []

/-- The names that a clause exports. -/
def exports (c : Clause) : List Bytes :=
  match c.form with
  | .star _ (some name) _ => [name.name]
  | .list _ entries _ _ => entries.map fun e => e.inner.name
  | _ => []

/-- The clause exports whatever another module exports. -/
def exportsAll (c : Clause) : Bool :=
  match c.form with
  | .star _ none _ => true
  | _ => false

end Clause

/-- The interface of a list of clauses. -/
def Interface.ofClauses (path : Path) (segment : Nat) (offset : UInt32) (clauses : List Clause) :
    Interface where
  path := path
  segment := segment
  requests := clauses.flatMap (Clause.requests offset)
  imports := clauses.flatMap (Clause.imports offset)
  exports := clauses.flatMap Clause.exports
  exportsAll := clauses.any Clause.exportsAll

/-! ### Texts -/

/-- ASCII blanks, line feeds, and comments of any bytes. -/
inductive Filler : Bytes → Prop
  | nil : Filler []
  | blank {b : UInt8} {rest : Bytes} : isBlank b = true → Filler rest → Filler (b :: rest)
  | lineFeed {rest : Bytes} : Filler rest → Filler ('\n' :: rest)
  | line {body rest : Bytes} : (∀ b ∈ body, b ≠ '\n') → Filler rest →
      Filler ('/' :: '/' :: (body ++ ('\n' :: rest : Bytes)))
  | block {body rest : Bytes} : ¬ ("*/" : Bytes) <:+: body → Filler rest →
      Filler ('/' :: '*' :: (body ++ ('*' :: '/' :: rest : Bytes)))

/-- The end of a text: a filler, after which a comment may reach up to the end. -/
inductive LastFiller : Bytes → Prop
  | filler {text : Bytes} : Filler text → LastFiller text
  | line {text body : Bytes} : Filler text → (∀ b ∈ body, b ≠ '\n') →
      LastFiller (text ++ ('/' :: '/' :: body : Bytes))

/-- The text at an offset spells the lexemes: they stand in it with fillers between them, a
name or literal at the place it claims.  Two words are kept apart by a filler that is not
empty; `afterWord` tells whether the text follows a word. -/
inductive Spells : Bool → Nat → List Lexeme → Bytes → Prop
  | done {afterWord : Bool} {pos : Nat} {text : Bytes} : LastFiller text →
      Spells afterWord pos [] text
  | next {afterWord : Bool} {pos : Nat} {filler text : Bytes} {l : Lexeme}
      {lexemes : List Lexeme} : Filler filler →
      (afterWord = true → l.kind = .word → filler ≠ []) →
      (∀ span ∈ l.place?, span = .ofOffsets (pos + filler.length)
        (pos + filler.length + l.text.length)) →
      Spells (l.kind = .word) (pos + filler.length + l.text.length) lexemes text →
      Spells afterWord pos (l :: lexemes) (filler ++ (l.text ++ text))

/-- A text spells clauses. -/
def Clause.Spell (clauses : List Clause) (text : Bytes) : Prop :=
  Spells false 0 (clauses.flatMap Clause.lexemes) text

end ScriptLint
