/-
Analyzing a module.

The rules look at each segment in turn.  A rule that fails is reported, and its
findings are dropped; the others still run.  With fixing on, the fixes of all
segments are merged and written at once, and a finding whose fix was applied is
not reported:

* **`AnalysisSettings.inspect`** — the findings and failures of one segment;
* **`AnalysisSettings.analyze`** — the whole analysis; breaking off the writing
  breaks off the analysis, after what was reported until then.
-/
import ScriptLint.Module
import ScriptLint.Rule

namespace ScriptLint

/-- A finding with the rule's name and severity, and the segment that it is in. -/
structure Message where
  segment : Nat
  offset : UInt32
  code : Bytes
  severity : Severity
  finding : Finding
  deriving DecidableEq, Inhabited, Repr

/-- A message as a reported problem, in offsets of the file. -/
def Message.diagnostic (m : Module) (message : Message) : Diagnostic :=
  Diagnostic.shifted message.offset
    { path := m.path
      segment := m.shownSegment message.segment
      span := some message.finding.span
      severity := message.severity
      code := message.code
      message := message.finding.message
      help := some message.finding.help }

/-- The fix of a message, in offsets of the file. -/
def Message.fix? (message : Message) : Option Fix :=
  message.finding.fix.map fun f => { f with span := f.span.shifted message.offset }

/-- Counts of an analysis, and whether the file was written. -/
structure AnalysisCounts where
  diagnostics : Nat := 0
  ruleFailures : Nat := 0
  fixesApplied : Nat := 0
  written : Bool := false
  deriving DecidableEq, Inhabited, Repr

/-- What an analysis reports, in this order, and its counts unless it broke
off. -/
structure AnalysisResult where
  emitted : List Diagnostic
  counts : Attempt AnalysisCounts

/-- What the rules say about a segment: messages, and reports of failed rules. -/
structure Inspection where
  messages : List Message := []
  failures : List Diagnostic := []
  deriving DecidableEq, Inhabited, Repr

/-- What analyses depend on. -/
structure AnalysisSettings where
  rules : RuleSet
  fix : Bool := false

namespace AnalysisSettings

variable {σ : Type} [FileStore σ] (s : AnalysisSettings)

/-- The report of a failed rule. -/
def failureDiagnostic (m : Module) (index : Nat) (rule failure : Bytes) : Diagnostic where
  path := m.path
  segment := m.shownSegment index
  code := Code.ruleFailure
  message := "Rule '" ++ rule ++ "' failed: " ++ failure
  help := some "Other rules still ran on this file"

/-- The rule runs on the subject. -/
def applies (setting : RuleSetting) (subject : Subject) : Bool :=
  setting.severity != .off && (!setting.rule.needsGraph || subject.graph.isSome)

/-- What one rule says about a subject. -/
def inspectWith (m : Module) (subject : Subject) (setting : RuleSetting) : Inspection :=
  if applies setting subject then
    let verdict := setting.rule.check subject
    match verdict.failure? with
    | some failure =>
      { failures := [failureDiagnostic m subject.index setting.rule.name failure] }
    | none =>
      { messages := verdict.findings.map fun finding =>
          ⟨subject.index, subject.segment.offset, setting.rule.name, setting.severity, finding⟩ }
  else {}

/-- What all rules say about a subject. -/
def inspect (m : Module) (subject : Subject) : Inspection :=
  let inspections := s.rules.map (inspectWith m subject)
  ⟨inspections.flatMap Inspection.messages, inspections.flatMap Inspection.failures⟩

/-- The requests of a segment that do not resolve, as problems. -/
def unresolvedDiagnostics (m : Module) (index : Nat) (e : Extract) : List Diagnostic :=
  e.resolutions.filterMap fun r =>
    match r.outcome with
    | .ok _ => none
    | .error error =>
      some { path := m.path, segment := m.shownSegment index, span := some r.span,
             code := Code.resolve, message := error.message }

/-- The subject of a segment.  `links` tells which interfaces the requests of a
segment lead to. -/
def subject (links : Nat → Table Interface) (graph : Option ModuleGraph) (m : Module)
    (index : Nat) (segment : Segment) (e : Extract) : Subject where
  path := m.path
  index := index
  segment := segment
  script := e.script
  scope := some e.scope
  record := some ⟨e.interface, links index⟩
  graph := graph

/-- The messages of a segment, and what is reported about it at once: failed
rules, then requests that do not resolve. -/
def inspectPart (links : Nat → Table Interface) (graph : Option ModuleGraph) (m : Module)
    (index : Nat) (part : Part) : Inspection × List Diagnostic :=
  match part.outcome with
  | .error _ => ({}, [])
  | .ok e =>
    (s.inspect m (subject links graph m index part.segment e), unresolvedDiagnostics m index e)

/-- The fixes of messages, each with the position of its message. -/
def proposals (messages : List Message) : List (Fix × Nat) :=
  messages.zipIdx.filterMap fun (message, owner) => message.fix?.map (·, owner)

/-- The failure to write fixes, as a problem. -/
def writeDiagnostic (m : Module) (e : Error) : Diagnostic where
  path := m.path
  code := Code.disk
  message := "Failed to write fixes: " ++ e.message

/-- The messages whose positions are not among the fixed ones, as problems. -/
def report (m : Module) (messages : List Message) (fixed : List Nat) : List Diagnostic :=
  (messages.zipIdx.filter fun (_, owner) => owner ∉ fixed).map fun (message, _) =>
    message.diagnostic m

/-- Analyzes a module with content; one without is left alone. -/
def analyze (links : Nat → Table Interface) (graph : Option ModuleGraph) (m : Module) (files : σ) :
    AnalysisResult × σ :=
  match m.content with
  | none => (⟨[], .ok {}⟩, files)
  | some content =>
    let inspections := m.kept.zipIdx.map fun (part, index) =>
      s.inspectPart links graph m index part
    let messages := inspections.flatMap fun i => i.1.messages
    let early := inspections.flatMap fun i => i.1.failures ++ i.2
    let ruleFailures := (inspections.flatMap fun i => i.1.failures).length
    let finish (more : List Diagnostic) (fixed : List Nat) (counts : AnalysisCounts) :
        AnalysisResult :=
      let emitted := early ++ more ++ report m messages fixed
      ⟨emitted, .ok { counts with diagnostics := emitted.length, ruleFailures }⟩
    let proposed := proposals messages
    let result := Fix.apply content.text (proposed.map Prod.fst)
    if s.fix && result.changed then
      let (outcome, files) := FileStore.write m.path result.output files
      match outcome with
      | .error (.brokenOff reason) => (⟨early, .error (.brokenOff reason)⟩, files)
      | .error (.failed e) => (finish [writeDiagnostic m e] [] {}, files)
      | .ok () =>
        let owners := result.applied.filterMap fun i => (proposed[i]?).map Prod.snd
        (finish [] owners { fixesApplied := result.applied.length, written := true }, files)
    else (finish [] [] {}, files)

end AnalysisSettings

end ScriptLint
