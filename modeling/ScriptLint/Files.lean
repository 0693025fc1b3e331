/-
Where files are kept.

Loading and fixing need three things of a store of files: whether a path names
a file, the text of a file, and replacing the text.  Reading and writing can
fail with an error, or break off without one:

* **`FileStore`** — what a store offers;
* **`MemoryFiles`** — a store that is a table of texts, which counts how often
  each file is read and written, and on which failures can be planned.
-/
import ScriptLint.Error
import ScriptLint.Path

namespace ScriptLint

/-- How a step ends early: with an error, or broken off, with a reason if one
is known. -/
inductive Mishap where
  | failed (e : Error)
  | brokenOff (reason : Option Bytes)
  deriving DecidableEq, Inhabited, Repr

/-- The wording of a mishap. -/
def Mishap.message : Mishap → Bytes
  | .failed e => e.message
  | .brokenOff (some reason) => reason
  | .brokenOff none => "unknown exception"

/-- What a step that can end early answers. -/
abbrev Attempt (α : Type) := Except Mishap α

/-- A store of files. -/
class FileStore (σ : Type) where
  /-- The path names a file. -/
  isFile : σ → Path → Bool
  /-- The text of a file. -/
  read : Path → σ → Attempt Bytes × σ
  /-- Replaces the text of a file. -/
  write : Path → Bytes → σ → Attempt Unit × σ
  /-- No more than this many paths name files. -/
  bound : σ → Nat

/-- A file in memory. -/
structure MemoryFile where
  path : Path
  text : Bytes
  readable : Bool := true
  reads : Nat := 0
  writes : Nat := 0
  deriving DecidableEq, Inhabited, Repr

/-- Failures planned for a path: reading breaks off, writing breaks off, or
writing fails with a message. -/
structure Plan where
  breakRead : Option Bytes := none
  breakWrite : Option Bytes := none
  failWrite : Option Bytes := none
  deriving DecidableEq, Inhabited, Repr

/-- Files by path, and the failures that are planned. -/
structure MemoryFiles where
  files : Std.TreeMap Path.Key MemoryFile := ∅
  plans : Std.TreeMap Path.Key Plan := ∅
  deriving Inhabited

namespace MemoryFiles

/-- No files. -/
def empty : MemoryFiles := {}

variable (m : MemoryFiles)

/-- The file of a path. -/
def find? (p : Path) : Option MemoryFile := m.files[p.key]?

/-- A new file, in place of one of the same path. -/
def add (p : Path) (text : Bytes) : MemoryFiles :=
  { m with files := m.files.insert p.key { path := p, text } }

/-- A new file that cannot be read. -/
def addUnreadable (p : Path) : MemoryFiles :=
  { m with files := m.files.insert p.key { path := p, text := [], readable := false } }

/-- Plans failures for a path. -/
def plan (p : Path) (plan : Plan) : MemoryFiles :=
  { m with plans := m.plans.insert p.key plan }

/-- The text of a file, whether it can be read or not. -/
def content (p : Path) : Option Bytes := (m.find? p).map MemoryFile.text

/-- How often a file was read. -/
def reads (p : Path) : Nat := ((m.find? p).map MemoryFile.reads).getD 0

/-- How often a file was written. -/
def writes (p : Path) : Nat := ((m.find? p).map MemoryFile.writes).getD 0

/-- How often files were written. -/
def totalWrites : Nat := m.files.values.foldl (fun n f => n + f.writes) 0

/-- The text of a file, with the reading counted. -/
def read (p : Path) : Outcome Bytes × MemoryFiles :=
  match m.find? p with
  | none =>
    (.error ⟨.disk, "Failed to open file: No such file or directory", some p.text⟩, m)
  | some f =>
    (if f.readable then .ok f.text
      else .error ⟨.disk, "Failed to open file: Permission denied", some p.text⟩,
      { m with files := m.files.insert p.key { f with reads := f.reads + 1 } })

/-- Replaces the text of a file, or makes a new one.  The file can be read then. -/
def write (p : Path) (text : Bytes) : MemoryFiles :=
  let f := (m.find? p).getD { path := p, text := [] }
  { m with
    files := m.files.insert p.key { f with text, readable := true, writes := f.writes + 1 } }

/-- A reason, unless it is empty. -/
def reason (text : Bytes) : Option Bytes := if text = [] then none else some text

/-- Reads as planned. -/
def attemptRead (p : Path) : Attempt Bytes × MemoryFiles :=
  match (m.plans[p.key]?).bind Plan.breakRead with
  | some text => (.error (.brokenOff (reason text)), m)
  | none =>
    let (outcome, m) := m.read p
    (outcome.mapError .failed, m)

/-- Writes as planned. -/
def attemptWrite (p : Path) (text : Bytes) : Attempt Unit × MemoryFiles :=
  let plan := (m.plans[p.key]?).getD {}
  match plan.breakWrite, plan.failWrite with
  | some why, _ => (.error (.brokenOff (reason why)), m)
  | none, some message => (.error (.failed ⟨.disk, message, none⟩), m)
  | none, none => (.ok (), m.write p text)

instance : FileStore MemoryFiles where
  isFile m p := m.files.contains p.key
  read p m := m.attemptRead p
  write p text m := m.attemptWrite p text
  bound m := m.files.size

end MemoryFiles

end ScriptLint
