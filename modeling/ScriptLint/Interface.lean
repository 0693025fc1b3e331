/-
What a script shares with other modules.

The interface of a script lists the modules it asks for, the names it imports,
and the names it exports.  All places are offsets into the file, not into the
segment:

* **`Interface.ofScript`** — reads the interface off the statements.
-/
import ScriptLint.Path
import ScriptLint.Segment

namespace ScriptLint

/-- Why another module is asked for. -/
inductive Request.Kind where
  | importing | reexporting
  deriving DecidableEq, Inhabited, Repr

/-- The name under which a kind is shown. -/
def Request.Kind.name : Request.Kind → Bytes
  | .importing => "import"
  | .reexporting => "re-export"

/-- A module that is asked for; `span` is that of its name. -/
structure Request where
  specifier : Bytes
  kind : Request.Kind
  span : Span
  typeOnly : Bool
  deriving DecidableEq, Inhabited, Repr

/-- An imported name: `outer` in the other module, `inner` in this one. -/
structure ImportedName where
  specifier : Bytes
  outer : Bytes
  inner : Bytes
  span : Span
  typeOnly : Bool
  deriving DecidableEq, Inhabited, Repr

/-- Requests, imported names and exported names of a segment.  A module that
re-exports everything of another one may export any name. -/
structure Interface where
  path : Path
  segment : Nat
  requests : List Request := []
  imports : List ImportedName := []
  exports : List Bytes := []
  exportsAll : Bool := false
  deriving DecidableEq, Inhabited, Repr

namespace Interface

/-- The name is among the exported ones. -/
def exportsName (i : Interface) (name : Bytes) : Bool := name ∈ i.exports

/-- A binding that stands for everything another module exports. -/
def isStar (b : Binding) : Bool := b.outer == "*" && b.inner.isEmpty

/-- The module that a statement asks for. -/
def requestOf (offset : UInt32) (s : Statement) : Option Request :=
  match s.kind, s.source with
  | .importing, some source =>
    some ⟨source.name, .importing, source.span.shifted offset, s.typeOnly⟩
  | .exporting, some source =>
    some ⟨source.name, .reexporting, source.span.shifted offset, s.typeOnly⟩
  | _, _ => none

/-- The names that a statement imports. -/
def importsOf (offset : UInt32) (s : Statement) : List ImportedName :=
  match s.kind, s.source with
  | .importing, some source =>
    s.bindings.map fun b => ⟨source.name, b.outer, b.inner, b.span.shifted offset, b.typeOnly⟩
  | _, _ => []

/-- The bindings that a statement exports. -/
def exportsOf (s : Statement) : List Binding :=
  match s.kind with
  | .exporting => s.bindings
  | _ => []

/-- The interface of a script that begins at an offset of the file. -/
def ofScript (path : Path) (segment : Nat) (offset : UInt32) (script : Script) : Interface where
  path := path
  segment := segment
  requests := script.body.filterMap (requestOf offset)
  imports := script.body.flatMap (importsOf offset)
  exports := ((script.body.flatMap exportsOf).filter (!isStar ·)).map Binding.outer
  exportsAll := (script.body.flatMap exportsOf).any isStar

end Interface

end ScriptLint
