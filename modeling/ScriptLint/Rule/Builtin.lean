/-
The rules that are always known.

* **`Rule.noDebugger`** — no `debugger` statements; it deletes them;
* **`Rule.noDuplicateImports`** — no module imported twice in the same way;
* **`Rule.noUnusedImports`** — no imported binding that is never mentioned;
* **`Rule.noSelfImport`** — no module that imports itself;
* **`Rule.noCycle`** — no import that leads back to the importing module;
* **`Rule.named`** — no import of a name that the other module does not export.
-/
import ScriptLint.Rule

namespace ScriptLint.Rule

/-- The finding for a `debugger` statement, and the fix that deletes it. -/
def debuggerFinding (s : Statement) : Finding :=
  { span := s.span, message := "`debugger` statement is not allowed",
    fix := some ⟨s.span, []⟩ }

/-- Reports every `debugger` statement. -/
def noDebugger : Rule where
  name := "no-debugger"
  description := "Disallow debugger statements"
  severity := .error
  fixable := true
  check subject :=
    ⟨(subject.script.body.filter fun s => s.kind = .debugger).map debuggerFinding, none⟩

/-- The module names of imports that repeat an earlier import; `seen` holds the
earlier ones, with whether they import types only. -/
def duplicates (seen : List (Bytes × Bool)) : List Statement → List Identifier
  | [] => []
  | s :: rest =>
    match s.kind, s.source with
    | .importing, some source =>
      if (source.name, s.typeOnly) ∈ seen then source :: duplicates seen rest
      else duplicates ((source.name, s.typeOnly) :: seen) rest
    | _, _ => duplicates seen rest

/-- Reports imports of a module that was imported before. -/
def noDuplicateImports : Rule where
  name := "no-duplicate-imports"
  description := "Disallow importing the same module in several declarations"
  severity := .warning
  check subject :=
    ⟨(duplicates [] subject.script.body).map fun source =>
      { span := source.span, message := "'" ++ source.name ++ "' import is duplicated",
        help := "Merge the imports of this module into one declaration" }, none⟩

/-- An imported name that nothing mentions. -/
def isUnusedImport (scope : Scope) (e : Scope.Entry) : Bool :=
  e.kind = .importing && e.name ≠ [] && !scope.isMentioned e.name

/-- Reports imported bindings that are never mentioned. -/
def noUnusedImports : Rule where
  name := "no-unused-imports"
  description := "Disallow imported bindings that are never referenced"
  severity := .warning
  check subject :=
    match subject.scope with
    | none => ⟨[], none⟩
    | some scope =>
      ⟨(scope.entries.filter (isUnusedImport scope)).map fun e =>
        { span := e.span, message := "'" ++ e.name ++ "' is imported but never used",
          help := "Remove the unused import" }, none⟩

/-- The interface that a specifier of the record leads to. -/
def target? (record : Record) (specifier : Bytes) : Option Interface :=
  Table.find? specifier record.loaded

/-- Reports requests that lead to the requesting module. -/
def noSelfImport : Rule where
  name := "no-self-import"
  description := "Disallow a module from importing itself"
  severity := .error
  needsGraph := true
  check subject :=
    match subject.record with
    | none => ⟨[], none⟩
    | some record =>
      ⟨(record.interface.requests.filter fun r =>
          (target? record r.specifier).any fun i => i.path.same subject.path).map fun r =>
        { span := subject.segment.toLocal r.span, message := "Module imports itself" }, none⟩

/-- The file names of a module and of the modules on a way back to it. -/
def chainText (path : Path) (way : List Path) : Bytes :=
  path.fileName ++ way.flatMap fun step => (" -> " ++ step.fileName : Bytes)

/-- The way from the target of a request back to the module. -/
def wayBack? (subject : Subject) (record : Record) (graph : ModuleGraph) (r : Request) :
    Option (List Path) :=
  if r.typeOnly then none
  else match target? record r.specifier with
    | none => none
    | some i => if i.path.same subject.path then none else graph.findPath i.path subject.path

/-- Reports requests from whose targets imports lead back to the module. -/
def noCycle : Rule where
  name := "import/no-cycle"
  description := "Disallow imports that lead back to the importing module"
  severity := .off
  needsGraph := true
  check subject :=
    match subject.record, subject.graph with
    | some record, some graph =>
      ⟨record.interface.requests.filterMap fun r =>
        (wayBack? subject record graph r).map fun way =>
          { span := subject.segment.toLocal r.span, message := "Dependency cycle detected",
            help := chainText subject.path way }, none⟩
    | _, _ => ⟨[], none⟩

/-- The import asks an intact module for a name that it does not export.
Modules that export nothing, or everything of another module, may mean any
name. -/
def isMissing (record : Record) (graph : ModuleGraph) (entry : ImportedName) : Bool :=
  !entry.typeOnly && entry.outer != "default" && entry.outer != "*" &&
    (target? record entry.specifier).any fun i =>
      !(graph.find? i.path).any Node.failed && !i.exportsAll && !i.exports.isEmpty &&
        !i.exportsName entry.outer

/-- Reports imports of names that are not exported. -/
def named : Rule where
  name := "import/named"
  description := "Disallow named imports that the imported module does not export"
  severity := .off
  needsGraph := true
  check subject :=
    match subject.record, subject.graph with
    | some record, some graph =>
      ⟨(record.interface.imports.filter (isMissing record graph)).map fun entry =>
        { span := subject.segment.toLocal entry.span,
          message := "'" ++ entry.outer ++ "' is not exported by '" ++ entry.specifier ++ "'" },
        none⟩
    | _, _ => ⟨[], none⟩

/-- The rules, in the order in which they run. -/
def builtin : List Rule :=
  [noDebugger, noDuplicateImports, noUnusedImports, noSelfImport, noCycle, named]

end ScriptLint.Rule
