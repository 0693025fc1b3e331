/-
Rules and what they find.

A rule looks at one segment of a module and answers with findings.  It can also
end early; then it has failed, unless its mishap has no wording.  Rules are
known by their names, and a name stands for at most one rule:

* **`Rule.register`** — adds a rule, in place of one of the same name;
* **`RuleSet`** — rules with the severities at which they run.
-/
import ScriptLint.Diagnostic
import ScriptLint.Files
import ScriptLint.Fix
import ScriptLint.ModuleGraph
import ScriptLint.Scope

namespace ScriptLint

/-- Something a rule reports, in offsets of the segment.  An empty help is
none. -/
structure Finding where
  span : Span
  message : Bytes
  help : Bytes := []
  fix : Option Fix := none
  deriving DecidableEq, Inhabited, Repr

/-- What a rule may look at.  Without the graph, modules are looked at one by
one. -/
structure Subject where
  path : Path
  index : Nat
  segment : Segment
  script : Script
  scope : Option Scope
  record : Option Record
  graph : Option ModuleGraph

/-- What a rule answers: its findings, and how it ended early if it did. -/
structure Verdict where
  findings : List Finding
  mishap : Option Mishap := none
  deriving Inhabited, Repr

/-- The wording of a rule's failure; a rule that did not fail has none. -/
def Verdict.failure? (v : Verdict) : Option Bytes :=
  (v.mishap.map Mishap.message).filter (· ≠ [])

/-- A rule. -/
structure Rule where
  name : Bytes
  description : Bytes
  severity : Severity
  fixable : Bool := false
  needsGraph : Bool := false
  check : Subject → Verdict

/-- A rule and the severity at which it runs. -/
structure RuleSetting where
  rule : Rule
  severity : Severity

/-- Rules with their severities, in the order in which they run. -/
abbrev RuleSet := List RuleSetting

namespace Rule

/-- Adds a rule at the end, or puts it in the place of the first one of its
name. -/
def register (rule : Rule) : List Rule → List Rule
  | [] => [rule]
  | known :: rest => if known.name = rule.name then rule :: rest else known :: register rule rest

/-- The rule of a name. -/
def find? (name : Bytes) (rules : List Rule) : Option Rule :=
  List.find? (fun rule => rule.name = name) rules

/-- All rules at their own severities. -/
def defaults (rules : List Rule) : RuleSet := rules.map fun rule => ⟨rule, rule.severity⟩

end Rule

/-- A span of the file as one of the segment, unless it lies before it. -/
def Segment.toLocal (s : Segment) (span : Span) : Span :=
  if span.start < s.offset then span else span.unshifted s.offset

end ScriptLint
