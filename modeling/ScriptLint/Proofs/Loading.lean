/-
What loading makes of a path.

`Linter.module files p` is the module that a linter loads for `p` from the given
files, apart from which arena holds its content.  It does not depend on when it
is loaded (`Linter.unleased_loaded`), nor, paths being compared by their keys, on
how the path is spelled (`Linter.keyed_module`).

Two modules are compared through `Module.keyed`, which has the key of a path in
the place of the path; so are diagnostics, `Diagnostic.keyed`, and interfaces.
What rules and the graph read off a module is a function of it.
-/
import ScriptLint.Proofs.Reading
import ScriptLint.Proofs.Spelling
import ScriptLint.Run

namespace ScriptLint

/-! ### Keys in the place of paths -/

/-- A diagnostic with the key of its path in the place of the path: two
diagnostics that differ in how the path is spelled say the same. -/
def Diagnostic.keyed (d : Diagnostic) : Path.Key × Diagnostic :=
  (d.path.key, { d with path := ⟨[]⟩ })

/-- An interface with the key of its module's path in the place of the path. -/
def Interface.keyed (i : Interface) : Path.Key × Interface :=
  (i.path.key, { i with path := ⟨[]⟩ })

/-- What became of a specifier, with the key of the target and without the
context of a failure, which spells the directory. -/
def Resolution.keyed (r : Resolution) : Bytes × Span × Except Bytes Path.Key :=
  (r.specifier, r.span, (r.outcome.map Path.key).mapError Error.message)

/-- A segment that could be read, with keys. -/
def Extract.keyed (e : Extract) :
    Script × (Path.Key × Interface) × List (Bytes × Span × Except Bytes Path.Key) :=
  (e.script, e.interface.keyed, e.resolutions.map Resolution.keyed)

/-- The edge of a request that resolves. -/
def Resolution.edge? (r : Resolution) : Option Edge :=
  r.outcome.toOption.map fun t => ⟨r.specifier, t⟩

/-- The edges of a segment. -/
def recordEdges : Except Diagnostic Extract → List Edge
  | .error _ => []
  | .ok e => e.resolutions.filterMap Resolution.edge?

/-- The interface of a segment that could be read. -/
def recordInterface? : Except Diagnostic Extract → Option Interface
  | .error _ => none
  | .ok e => some e.interface

/-- What became of a segment, with keys. -/
def keyedOutcome (o : Except Diagnostic Extract) :
    Except (Path.Key × Diagnostic)
      (Script × (Path.Key × Interface) × List (Bytes × Span × Except Bytes Path.Key)) :=
  (o.map Extract.keyed).mapError Diagnostic.keyed

namespace Module

/-- The segments of a file that could be cut. -/
def parts (m : Module) : Option (List Part) :=
  match m.body with
  | .parts parts => some parts
  | _ => none

/-- The problem of a file that could not be cut. -/
def refusal (m : Module) : Option Diagnostic :=
  match m.body with
  | .refused d => some d
  | _ => none

/-- A module with the arena of its content left out. -/
def unleased (m : Module) : Module :=
  { m with content := m.content.map fun c => { c with lease := default } }

/-- A module with the mark of an entry left out. -/
def unmarked (m : Module) : Module := { m with entry := false }

/-- Everything about a module that depends on its path by the key alone. -/
structure Keyed where
  key : Path.Key
  entry : Bool
  composite : Bool
  refusal : Option (Path.Key × Diagnostic)
  parts : Option (List (Segment × Except (Path.Key × Diagnostic)
    (Script × (Path.Key × Interface) × List (Bytes × Span × Except Bytes Path.Key))))
  content : Option Bytes

/-- A module with keys in the place of paths. -/
def keyed (m : Module) : Keyed where
  key := m.path.key
  entry := m.entry
  composite := m.composite
  refusal := m.refusal.map Diagnostic.keyed
  parts := m.parts.map fun ps => ps.map fun p => (p.segment, keyedOutcome p.outcome)
  content := m.content.map Content.text

/-- Modules that are the same are the same without the marks of entries. -/
theorem unmarked_congr {m m' : Module} (h : m.keyed = m'.keyed) :
    m.unmarked.keyed = m'.unmarked.keyed :=
  congrArg (fun k : Keyed => { k with entry := false }) h

/-- The interfaces of the segments that could be read. -/
def interfaces (m : Module) : List Interface := m.records.filterMap recordInterface?

/-- The requests that resolve, as edges. -/
def edges (m : Module) : List Edge := m.records.flatMap recordEdges

/-- The modules that the requests of a module resolve to. -/
def targets (m : Module) : List Path := m.edges.map Edge.target

variable (m : Module)

@[simp] theorem path_unleased : m.unleased.path = m.path := rfl

@[simp] theorem entry_unleased : m.unleased.entry = m.entry := rfl

@[simp] theorem composite_unleased : m.unleased.composite = m.composite := rfl

@[simp] theorem body_unleased : m.unleased.body = m.body := rfl

@[simp] theorem records_unleased : m.unleased.records = m.records := rfl

@[simp] theorem interfaces_unleased : m.unleased.interfaces = m.interfaces := rfl

@[simp] theorem edges_unleased : m.unleased.edges = m.edges := rfl

@[simp] theorem targets_unleased : m.unleased.targets = m.targets := rfl

@[simp] theorem diagnostics_unleased : m.unleased.diagnostics = m.diagnostics := rfl

@[simp] theorem failed_unleased : m.unleased.failed = m.failed := rfl

@[simp] theorem isSupported_unleased : m.unleased.isSupported = m.isSupported := rfl

@[simp] theorem isSome_content_unleased : m.unleased.content.isSome = m.content.isSome := by
  simp [unleased]

end Module

/-! ### The module of a path -/

/-- A module with its content kept, if it is to be. -/
def Module.keeping (m : Module) (keep : Bool) (text : Bytes) : Module :=
  if keep then { m with content := some ⟨default, text⟩ } else m

/-- What a linter loads for a path from the given files, apart from the arena
of its content. -/
def Linter.module (l : Linter) (files : MemoryFiles) (p : Path) : Module :=
  let entry := l.entries.contains p
  let keep := l.loading.keeps entry
  match l.loading.loaders.find? p.extension with
  | none => Module.keeping { path := p, entry, body := .unsupported } keep []
  | some form =>
    match (FileStore.read p files).1 with
    | .error (.brokenOff reason) => Closing.brokenModule p entry (.brokenOff reason)
    | .error (.failed e) => (LoadSettings.ofUnreadable p entry e).keeping keep []
    | .ok text => (l.loading.ofText files p entry form text).keeping keep text

namespace LoadSettings

variable (s : LoadSettings)

/-- Only the set of files matters for what becomes of requests. -/
theorem resolutions_congr {σ : Type} [FileStore σ] {files files' : σ}
    (h : ∀ q, FileStore.isFile files q = FileStore.isFile files' q) (i : Interface) :
    s.resolutions files i = s.resolutions files' i := by
  have hf : FileStore.isFile files = FileStore.isFile files' := funext h
  simp only [resolutions, hf]

theorem ofText_congr {σ : Type} [FileStore σ] {files files' : σ}
    (h : ∀ q, FileStore.isFile files q = FileStore.isFile files' q) (path : Path) (entry : Bool)
    (form : FileForm) (text : Bytes) :
    s.ofText files path entry form text = s.ofText files' path entry form text := by
  simp only [ofText, part, resolutions_congr s h]

theorem content_ofText {σ : Type} [FileStore σ] (files : σ) (path : Path) (entry : Bool)
    (form : FileForm) (text : Bytes) : (s.ofText files path entry form text).content = none := by
  unfold ofText
  split <;> rfl

theorem entry_ofText {σ : Type} [FileStore σ] (files : σ) (path : Path) (entry : Bool)
    (form : FileForm) (text : Bytes) : (s.ofText files path entry form text).entry = entry := by
  unfold ofText
  split <;> rfl

theorem path_ofText {σ : Type} [FileStore σ] (files : σ) (path : Path) (entry : Bool)
    (form : FileForm) (text : Bytes) : (s.ofText files path entry form text).path = path := by
  unfold ofText
  split <;> rfl

theorem unleased_settle {σ : Type} {m : Module} (h : m.content = none) (text : Bytes)
    (lease : Arena.Lease) (r : Resources σ) :
    (s.settle m text lease r).1.unleased = m.keeping (s.keeps m.entry) text := by
  unfold settle Module.keeping
  split
  · rfl
  · show m.unleased = _
    rw [Module.unleased, h, Option.map_none, ← h]

end LoadSettings

namespace Linter

variable (l : Linter)

/-- A module is loaded the same from files that agree on it and on the set of files. -/
theorem unleased_loaded {r : Resources MemoryFiles} {files : MemoryFiles} {p : Path}
    (hplans : r.files.plans = files.plans) (hfind : r.files.find? p = files.find? p)
    (hfile : ∀ q, FileStore.isFile r.files q = FileStore.isFile files q) :
    (Closing.loaded l p r).1.unleased = l.module files p := by
  have hread : (FileStore.read p r.files).1 = (FileStore.read p files).1 :=
    MemoryFiles.attemptRead_fst hplans hfind
  have hfile' (q : Path) : FileStore.isFile (FileStore.read p r.files).2 q =
      FileStore.isFile files q :=
    (MemoryFiles.isFile_attemptRead r.files p q).trans (hfile q)
  unfold Linter.module Closing.loaded LoadSettings.load
  cases l.loading.loaders.find? p.extension with
  | none =>
    cases hk : l.loading.keeps (l.entries.contains p) <;> simp [hk] <;> rfl
  | some form =>
    simp only [hread]
    cases (FileStore.read p files).1 with
    | error mishap =>
      cases mishap with
      | brokenOff reason => rfl
      | failed e => exact LoadSettings.unleased_settle _ (by rfl) _ _ _
    | ok text =>
      simp only
      rw [LoadSettings.unleased_settle _ (LoadSettings.content_ofText _ _ _ _ _ _),
        LoadSettings.entry_ofText, LoadSettings.ofText_congr _ hfile']

/-- The files after loading are those before it, or those after a read. -/
theorem files_loaded (p : Path) (r : Resources MemoryFiles) :
    (Closing.loaded l p r).2.files = r.files ∨
      (Closing.loaded l p r).2.files = (r.files.attemptRead p).2 := by
  unfold Closing.loaded LoadSettings.load
  cases l.loading.loaders.find? p.extension with
  | none =>
    cases hk : l.loading.keeps (l.entries.contains p) <;> simp [hk]
  | some form =>
    right
    simp only
    cases h : (FileStore.read p r.files).1 with
    | error mishap =>
      cases mishap with
      | brokenOff reason => rfl
      | failed e =>
        simp only [LoadSettings.settle]
        split <;> rfl
    | ok text =>
        simp only [LoadSettings.settle]
        split <;> rfl

end Linter

/-! ### Spellings of a path -/

namespace MemoryFiles

/-- The outcome of a read, apart from the context of a failure, does not depend
on the spelling of the path. -/
theorem attemptRead_spelling (m : MemoryFiles) {p q : Path} (h : p.key = q.key) :
    (m.attemptRead p).1 = (m.attemptRead q).1 ∨
      ∃ e e' : Error, (m.attemptRead p).1 = .error (.failed e) ∧
        (m.attemptRead q).1 = .error (.failed e') ∧ e.message = e'.message := by
  unfold attemptRead
  rw [h]
  split
  · exact .inl rfl
  · simp only [read, find?_congr m h]
    cases m.find? q with
    | none => exact .inr ⟨_, _, rfl, rfl, rfl⟩
    | some f =>
      by_cases hr : f.readable = true
      · exact .inl (by simp only [hr, if_true])
      · exact .inr ⟨_, _, by simp only [hr]; rfl, by simp only [hr]; rfl, by rfl⟩

end MemoryFiles

namespace LoadSettings

variable (s : LoadSettings) (files : MemoryFiles)

theorem keyed_resolutions {i j : Interface} (h : i.keyed = j.keyed) :
    (s.resolutions files i).map Resolution.keyed = (s.resolutions files j).map Resolution.keyed := by
  obtain ⟨hkey, hrest⟩ := Prod.ext_iff.mp h
  have hrest : ({ i with path := ⟨[]⟩ } : Interface) = { j with path := ⟨[]⟩ } := hrest
  have hrequests : i.requests = j.requests := by simpa using congrArg Interface.requests hrest
  unfold resolutions
  rw [hrequests]
  cases s.resolver with
  | none => rfl
  | some resolver =>
    simp only [List.map_map]
    refine List.map_congr_left fun r _ => ?_
    have hk := resolver.resolve_keys (Path.key_parent_congr hkey) r.specifier files.files.contains
    simp only [Function.comp_apply, Resolution.keyed, Prod.mk.injEq, true_and]
    change (resolver.resolve (FileStore.isFile files) i.path.parent r.specifier).map Path.key =
      (resolver.resolve (FileStore.isFile files) j.path.parent r.specifier).map Path.key at hk
    generalize resolver.resolve (FileStore.isFile files) i.path.parent r.specifier = a at hk ⊢
    generalize resolver.resolve (FileStore.isFile files) j.path.parent r.specifier = b at hk ⊢
    cases a with
    | ok p =>
      cases b with
      | ok q => simpa [Except.map, Except.mapError] using hk
      | error u => exact absurd hk (by simp [Except.map])
    | error u =>
      cases b with
      | ok q => exact absurd hk (by simp [Except.map])
      | error v =>
        obtain rfl : u = v := by simpa [Except.map] using hk
        cases u <;> rfl

theorem keyed_part {p q : Path} (h : p.key = q.key) (entry composite : Bool) (index : Nat)
    (segment : Segment) :
    keyedOutcome (s.part files p entry composite index segment).outcome =
      keyedOutcome (s.part files q entry composite index segment).outcome := by
  unfold part
  cases segment.parse with
  | error f => simp [keyedOutcome, Except.map, Except.mapError, Diagnostic.keyed, h]
  | ok script =>
    have hi : (if (entry || s.extractDependencies) = true then
          Interface.ofScript p index segment.offset script
        else { path := p, segment := index }).keyed =
        (if (entry || s.extractDependencies) = true then
          Interface.ofScript q index segment.offset script
        else { path := q, segment := index }).keyed := by
      split <;> simp [Interface.keyed, Interface.ofScript, h]
    simp only [keyedOutcome, Except.map, Except.mapError, Extract.keyed, hi,
      keyed_resolutions s files hi]

theorem keyed_ofText {p q : Path} (h : p.key = q.key) (entry : Bool) (form : FileForm)
    (text : Bytes) :
    (s.ofText files p entry form text).keyed = (s.ofText files q entry form text).keyed := by
  unfold ofText
  rw [Path.extension_congr h]
  cases form.split q.extension text with
  | error f => simp [Module.keyed, Module.refusal, Module.parts, Diagnostic.keyed, h]
  | ok segments =>
    simp only [Module.keyed, Module.refusal, Module.parts, h, List.map_map, Option.map_some,
      Module.Keyed.mk.injEq, true_and, and_true, Option.some_inj]
    refine List.map_congr_left fun x _ => ?_
    exact Prod.ext rfl (keyed_part s files h entry _ x.2 x.1)

end LoadSettings

theorem PathSet.contains_congr (s : PathSet) {p q : Path} (h : p.key = q.key) :
    s.contains p = s.contains q := by
  rw [contains, contains, h]

theorem Module.keyed_keeping {m m' : Module} (h : m.keyed = m'.keyed) (keep : Bool) (text : Bytes) :
    (m.keeping keep text).keyed = (m'.keeping keep text).keyed := by
  unfold keeping
  split
  · simp only [keyed, refusal, parts, Keyed.mk.injEq] at h ⊢
    simp [h]
  · exact h

namespace Linter

variable (l : Linter)

/-- **How a path is spelled does not matter for what is loaded.** -/
theorem keyed_module (files : MemoryFiles) {p q : Path} (h : p.key = q.key) :
    (l.module files p).keyed = (l.module files q).keyed := by
  unfold Linter.module
  rw [PathSet.contains_congr _ h, Path.extension_congr h]
  cases l.loading.loaders.find? q.extension with
  | none =>
    refine Module.keyed_keeping ?_ _ _
    simp [Module.keyed, Module.refusal, Module.parts, h]
  | some form =>
    simp only
    rcases files.attemptRead_spelling h with heq | ⟨e, e', hp, hq, hmessage⟩
    · have hread : (FileStore.read p files).1 = (FileStore.read q files).1 := heq
      rw [hread]
      cases (FileStore.read q files).1 with
      | ok text => exact Module.keyed_keeping (LoadSettings.keyed_ofText _ _ h _ _ _) _ _
      | error mishap =>
        cases mishap with
        | brokenOff reason =>
          simp [Closing.brokenModule, internalDiagnostic, Module.keyed, Module.refusal,
            Module.parts, Diagnostic.keyed, h]
        | failed e =>
          refine Module.keyed_keeping ?_ _ _
          simp [LoadSettings.ofUnreadable, Module.keyed, Module.refusal, Module.parts,
            Diagnostic.keyed, h]
    · have hp' : (FileStore.read p files).1 = .error (.failed e) := hp
      have hq' : (FileStore.read q files).1 = .error (.failed e') := hq
      rw [hp', hq']
      refine Module.keyed_keeping ?_ _ _
      simp [LoadSettings.ofUnreadable, Module.keyed, Module.refusal, Module.parts,
        Diagnostic.keyed, h, hmessage]

end Linter

end ScriptLint
