/-
Loading a module.

Loading reads a file, cuts it into segments, reads each segment's statements
and interface, and resolves what it asks for.  A module that was asked for by
the caller keeps its content, and with it the lease of an arena, until it has
been analyzed; a dependency does so only on request:

* **`LoadSettings.load`** — the loaded module; breaking off the reading breaks
  off the loading;
* **`Module.records`**, **`Module.kept`** — its segments for the graph and for
  the analysis, one entry for each segment.
-/
import ScriptLint.Arena.Pool
import ScriptLint.Diagnostic
import ScriptLint.Files
import ScriptLint.Interface
import ScriptLint.Loaders
import ScriptLint.Resolver
import ScriptLint.Scope

namespace ScriptLint

/-- What became of a specifier; `span` is that of its first request. -/
structure Resolution where
  specifier : Bytes
  span : Span
  outcome : Outcome Path
  deriving Inhabited

/-- A segment that could be read. -/
structure Extract where
  script : Script
  interface : Interface
  resolutions : List Resolution
  deriving Inhabited

/-- A segment, read or refused. -/
structure Part where
  segment : Segment
  outcome : Except Diagnostic Extract

/-- How far loading came: the file's form is not known, it could not be read or
cut, or it has these segments. -/
inductive Module.Body where
  | unsupported
  | refused (d : Diagnostic)
  | parts (parts : List Part)

/-- What a module keeps for its analysis. -/
structure Module.Content where
  lease : Arena.Lease
  text : Bytes

/-- A loaded module.  It is composite unless its only segment is the file. -/
structure Module where
  path : Path
  entry : Bool
  composite : Bool := false
  body : Module.Body
  content : Option Module.Content := none

namespace Module

/-- The segments for the graph: interfaces and resolutions, or what is wrong. -/
def records (m : Module) : List (Except Diagnostic Extract) :=
  match m.body with
  | .unsupported => []
  | .refused d => [.error d]
  | .parts parts => parts.map Part.outcome

/-- The segments for the analysis, if the content is kept. -/
def kept (m : Module) : List Part :=
  match m.content, m.body with
  | some _, .parts parts => parts
  | _, _ => []

/-- Files of this form cannot be loaded. -/
def isSupported (m : Module) : Bool :=
  match m.body with
  | .unsupported => false
  | _ => true

/-- What is wrong with the module, by segment. -/
def diagnostics (m : Module) : List Diagnostic :=
  m.records.filterMap fun
    | .error d => some d
    | .ok _ => none

/-- Something is wrong with the module. -/
def failed (m : Module) : Bool := !m.diagnostics.isEmpty

/-- The segment number that reports show. -/
def shownSegment (m : Module) (index : Nat) : Option Nat := if m.composite then some index else none

end Module

/-- The names and mentions of a segment that could be read. -/
def Extract.scope (e : Extract) : Scope := Scope.ofBody e.script.body

/-- What loading depends on. -/
structure LoadSettings where
  loaders : Loaders
  /-- Without a resolver no request is resolved. -/
  resolver : Option Resolver
  /-- Dependencies have interfaces too. -/
  extractDependencies : Bool := true
  /-- Dependencies keep their content too. -/
  retainDependencies : Bool := false

/-- Files, and the arenas that contents are kept in. -/
structure Resources (σ : Type) where
  files : σ
  pool : Arena.Pool

namespace LoadSettings

variable {σ : Type} [FileStore σ] (s : LoadSettings)

/-- The requests of specifiers that are not requested before. -/
def firstRequests (seen : List Bytes) : List Request → List Request
  | [] => []
  | r :: rest =>
    if r.specifier ∈ seen then firstRequests seen rest
    else r :: firstRequests (r.specifier :: seen) rest

/-- What becomes of the specifiers of an interface that the resolver handles,
each once. -/
def resolutions (files : σ) (i : Interface) : List Resolution :=
  match s.resolver with
  | none => []
  | some resolver =>
    let directory := i.path.parent
    (firstRequests [] (i.requests.filter fun r => resolver.handles r.specifier)).map fun r =>
      ⟨r.specifier, r.span,
        (resolver.resolve (FileStore.isFile files) directory r.specifier).mapError
          (·.error directory)⟩

/-- A segment of a file, read and with its requests resolved. -/
def part (files : σ) (path : Path) (entry composite : Bool) (index : Nat) (segment : Segment) :
    Part where
  segment := segment
  outcome :=
    match segment.parse with
    | .error f =>
      .error { f.diagnostic with path, segment := if composite then some index else none }
    | .ok script =>
      let interface : Interface :=
        if entry || s.extractDependencies then .ofScript path index segment.offset script
        else { path, segment := index }
      .ok ⟨script, interface, s.resolutions files interface⟩

/-- The only segment is the whole text. -/
def isWhole (text : Bytes) : List Segment → Bool
  | [segment] => segment.offset == 0 && segment.text.length == text.length
  | _ => false

/-- The content of a module is kept. -/
def keeps (entry : Bool) : Bool := entry || s.retainDependencies

/-- A text that was read, as a module without content. -/
def ofText (files : σ) (path : Path) (entry : Bool) (form : FileForm) (text : Bytes) : Module :=
  match form.split path.extension text with
  | .error f => { path, entry, body := .refused { f.diagnostic with path } }
  | .ok segments =>
    let composite := !isWhole text segments
    { path, entry, composite,
      body := .parts (segments.zipIdx.map fun (segment, index) =>
        s.part files path entry composite index segment) }

/-- A file that could not be read, as a module without content. -/
def ofUnreadable (path : Path) (entry : Bool) (e : Error) : Module :=
  { path, entry, body := .refused { path, code := Code.disk, message := e.message } }

/-- Keeps the lease with the module or ends it. -/
def settle (m : Module) (text : Bytes) (lease : Arena.Lease) (r : Resources σ) :
    Module × Resources σ :=
  if s.keeps m.entry then ({ m with content := some ⟨lease, text⟩ }, r)
  else (m, { r with pool := r.pool.giveBack lease })

/-- Loads the module of a path. -/
def load (path : Path) (entry : Bool) (r : Resources σ) : Attempt Module × Resources σ :=
  match s.loaders.find? path.extension with
  | none =>
    let m : Module := { path, entry, body := .unsupported }
    if s.keeps entry then
      let (lease, pool) := r.pool.acquire
      (.ok { m with content := some ⟨lease, []⟩ }, { r with pool })
    else (.ok m, r)
  | some form =>
    let (lease, pool) := r.pool.acquire
    let (outcome, files) := FileStore.read path r.files
    match outcome with
    | .error (.brokenOff reason) =>
      (.error (.brokenOff reason), { files, pool := pool.giveBack lease })
    | .error (.failed e) =>
      let (m, r) := s.settle (ofUnreadable path entry e) [] lease { files, pool }
      (.ok m, r)
    | .ok text =>
      let (m, r) := s.settle (s.ofText files path entry form text) text lease { files, pool }
      (.ok m, r)

end LoadSettings

end ScriptLint
