/-
The names of a module's top level.

A scope lists what a script's imports and declarations bind, in the order of
the statements, and every identifier that the script mentions.
-/
import ScriptLint.Statement

namespace ScriptLint

/-- What introduces a name. -/
inductive Scope.Kind where
  | importing | variable | function | classDef
  deriving DecidableEq, Inhabited, Repr

/-- The name under which a kind is shown. -/
def Scope.Kind.name : Scope.Kind → Bytes
  | .importing => "import"
  | .variable => "variable"
  | .function => "function"
  | .classDef => "class"

/-- A bound name; `statement` is the index of the statement that binds it. -/
structure Scope.Entry where
  name : Bytes
  kind : Scope.Kind
  span : Span
  statement : Nat
  typeOnly : Bool := false
  deriving DecidableEq, Inhabited, Repr

/-- Bound names and mentioned identifiers. -/
structure Scope where
  entries : List Scope.Entry
  references : List Identifier
  deriving DecidableEq, Inhabited, Repr

namespace Scope

/-- The names that a statement declares, as entries of a kind. -/
def declaredEntries (kind : Kind) (index : Nat) (s : Statement) : List Entry :=
  s.declared.map fun d => { name := d.name, kind, span := d.span, statement := index }

/-- The names that the statement at an index binds.  Exported declarations
count as variables. -/
def statementEntries (index : Nat) (s : Statement) : List Entry :=
  match s.kind with
  | .importing => s.bindings.map fun b => ⟨b.inner, .importing, b.span, index, b.typeOnly⟩
  | .function => declaredEntries .function index s
  | .classDef => declaredEntries .classDef index s
  | .variable | .exporting => declaredEntries .variable index s
  | .debugger | .expression => []

/-- The scope of a list of statements. -/
def ofBody (body : List Statement) : Scope where
  entries := (body.zipIdx.map fun (s, index) => statementEntries index s).flatten
  references := body.flatMap Statement.references

/-- The first entry of a name. -/
def find? (s : Scope) (name : Bytes) : Option Entry := s.entries.find? fun e => e.name = name

/-- How often a name is mentioned. -/
def mentions (s : Scope) (name : Bytes) : Nat := s.references.countP fun r => r.name = name

/-- Whether a name is mentioned at all. -/
def isMentioned (s : Scope) (name : Bytes) : Bool := 0 < s.mentions name

end Scope

end ScriptLint
