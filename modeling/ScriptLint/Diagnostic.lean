/-
Reported problems.

A diagnostic says what is wrong and where: in which file, in which segment of
a file that has several, and at which bytes of the file.  Reports are ordered:

* **`Diagnostic.less`** — by path text, segment, span, code and message, each
  missing part before every present one;
* **`Diagnostic.render`** — the one-line form for people.
-/
import ScriptLint.Fault
import ScriptLint.Path

namespace ScriptLint

/-- How grave a problem is.  A rule that is off does not run. -/
inductive Severity where
  | off | warning | error
  deriving DecidableEq, Inhabited, Repr

/-- The name under which a severity is shown. -/
def Severity.name : Severity → Bytes
  | .off => "off"
  | .warning => "warning"
  | .error => "error"

/-- Codes of the problems that no rule reports. -/
def Code.disk : Bytes := "io"
@[inherit_doc Code.disk] def Code.parse : Bytes := "parse"
@[inherit_doc Code.disk] def Code.resolve : Bytes := "resolve"
@[inherit_doc Code.disk] def Code.ruleFailure : Bytes := "rule-failure"
@[inherit_doc Code.disk] def Code.internal : Bytes := "internal"

/-- One reported problem.  The span counts bytes of the whole file. -/
structure Diagnostic where
  path : Path
  segment : Option Nat := none
  span : Option Span := none
  severity : Severity := .error
  code : Bytes
  message : Bytes
  help : Option Bytes := none
  deriving DecidableEq, Inhabited, Repr

namespace Diagnostic

/-- The key of a span: a missing one precedes all others. -/
def spanKey : Option Span → List Nat
  | none => []
  | some s => [s.start.toNat, s.stop.toNat]

/-- The key of a segment: a missing one precedes all others. -/
def segmentKey : Option Nat → List Nat
  | none => []
  | some n => [n]

/-- The order of reports. -/
def order : Diagnostic → Diagnostic → Ordering :=
  compareLex (compareOn (·.path.text)) <|
  compareLex (compareOn fun d => segmentKey d.segment) <|
  compareLex (compareOn fun d => spanKey d.span) <|
  compareLex (compareOn (·.code)) (compareOn (·.message))

/-- A diagnostic that a report shows before another one. -/
def less (a b : Diagnostic) : Bool := order a b == .lt

/-- Diagnostics in the order of reports; those that the order does not tell
apart stay as they came. -/
def sort (ds : List Diagnostic) : List Diagnostic := ds.mergeSort fun a b => !less b a

/-- `path:start-stop (segment n): severity[code]: message (help: …)`, without
the parts that are missing. -/
def render (d : Diagnostic) : Bytes :=
  d.path.text ++
  (match d.span with
    | none => []
    | some s => ":" ++ Bytes.decimal s.start.toNat ++ "-" ++ Bytes.decimal s.stop.toNat) ++
  (match d.segment with
    | none => []
    | some n => " (segment " ++ Bytes.decimal n ++ ")") ++
  ": " ++ d.severity.name ++ "[" ++ d.code ++ "]: " ++ d.message ++
  (match d.help with
    | none => []
    | some help => " (help: " ++ help ++ ")")

/-- The problem with its span moved by an offset, and without an empty help. -/
def shifted (offset : UInt32) (d : Diagnostic) : Diagnostic :=
  { d with span := d.span.map (·.shifted offset), help := d.help.filter (· ≠ []) }

end Diagnostic

/-- A fault as a reported problem of no particular file. -/
def Failure.diagnostic (f : Failure) : Diagnostic :=
  { path := ⟨[]⟩, span := some f.span, code := Code.parse, message := f.fault.message }

end ScriptLint
