/-
Module-level statements.

A script is read as a flat list of statements.  Of each statement only what
matters between modules and for the use of names is kept: what it imports and
exports, which identifiers it declares, and which it mentions.  A `debugger`
statement inside another statement is listed after it.
-/
import ScriptLint.Span
import ScriptLint.Dialect

namespace ScriptLint

/-- An identifier and its place. -/
structure Identifier where
  name : Bytes
  span : Span
  deriving DecidableEq, Inhabited, Repr

/-- A name on both sides of a module's border.  For an import, `inner` is the
local binding and `outer` the name that the other module exports, `default`, or
`*`.  For an export, `inner` is the local name, empty if there is none, and
`outer` the exported name. -/
structure Binding where
  inner : Bytes
  outer : Bytes
  span : Span
  typeOnly : Bool
  deriving DecidableEq, Inhabited, Repr

/-- The kinds of statements. -/
inductive Statement.Kind where
  | importing | exporting | debugger | variable | function | classDef | expression
  deriving DecidableEq, Inhabited, Repr

/-- The name under which a kind is shown. -/
def Statement.Kind.name : Statement.Kind → Bytes
  | .importing => "ImportDeclaration"
  | .exporting => "ExportDeclaration"
  | .debugger => "DebuggerStatement"
  | .variable => "VariableDeclaration"
  | .function => "FunctionDeclaration"
  | .classDef => "ClassDeclaration"
  | .expression => "ExpressionStatement"

/-- A statement.  `source` is the contents and the place of the literal that
names another module. -/
structure Statement where
  kind : Statement.Kind
  span : Span
  source : Option Identifier := none
  typeOnly : Bool := false
  isDefault : Bool := false
  bindings : List Binding := []
  declared : List Identifier := []
  references : List Identifier := []
  deriving DecidableEq, Inhabited, Repr

/-- A text as a list of statements. -/
structure Script where
  text : Bytes
  dialect : Dialect
  body : List Statement
  deriving DecidableEq, Inhabited, Repr

/-- The number of statements of a kind. -/
def Script.count (s : Script) (kind : Statement.Kind) : Nat :=
  s.body.countP fun statement => statement.kind = kind

end ScriptLint
