/-
From inputs to the files to lint.

A file that is named as an input is taken as it is; a directory is walked, and
the files below it that are accepted are taken, in path order.  What is ignored
is left out.  The ignore files of the working directory and of every directory
that is walked add to the rules as the walk comes to them:

* **`IgnoreRules.addFile`** — the rules of an ignore file;
* **`Walk.walk`** — the files below a directory;
* **`Disk.collect`** — the files of all inputs, each once.
-/
import ScriptLint.Disk
import ScriptLint.Ignore
import ScriptLint.PathSet

namespace ScriptLint

namespace IgnoreRules

/-- The rules with those of numbered lines, up to the first line that is at
fault. -/
def addLines (file base : Path) : Nat → IgnoreRules → List Bytes → IgnoreRules × Option Error
  | _, rules, [] => (rules, none)
  | number, rules, line :: rest =>
    match rules.add line base with
    | .ok rules => addLines file base (number + 1) rules rest
    | .error fault =>
      (rules, some (fault.error.inContext (file.text ++ ":" ++ Bytes.decimal number)))

/-- The rules with those of an ignore file, which are about its directory, and
what is wrong with the file. -/
def addFile (d : Disk) (file : Path) (rules : IgnoreRules) : IgnoreRules × Option Error :=
  if !d.isFile file then (rules, some ⟨.notFound, "Ignore file not found", some file.text⟩)
  else
    match d.read file with
    | .error _ => (rules, some ⟨.disk, "Failed to open ignore file", some file.text⟩)
    | .ok text =>
      addLines file (d.directory / file).parent.normalize 1 rules (Bytes.lines text)

end IgnoreRules

/-- How directories are walked. -/
structure WalkOptions where
  /-- The name of ignore files; an empty one means that there are none. -/
  ignoreFileName : Bytes := ".gitignore"
  /-- Hidden directories and package directories are left out. -/
  skipHidden : Bool := true
  deriving DecidableEq, Inhabited, Repr

/-- What a walk knows so far: the rules, the ignore files they come from, and the
files that were found, the last one first. -/
structure Walk where
  rules : IgnoreRules
  loaded : Path.Set := ∅
  found : List Path := []

/-- What a walk depends on. -/
structure Walker where
  disk : Disk
  accepts : Path → Bool
  options : WalkOptions := {}

namespace Walker

variable (w : Walker)

/-- Takes in the ignore file of a directory, once. -/
def enter (directory : Path) (s : Walk) : Outcome Walk :=
  let file : Path := directory / (⟨w.options.ignoreFileName⟩ : Path)
  if w.options.ignoreFileName = [] ∨ !w.disk.isFile file ∨ s.loaded.contains file.key then .ok s
  else
    match s.rules.addFile w.disk file with
    | (rules, none) => .ok { s with rules, loaded := s.loaded.add file }
    | (_, some e) => .error e

/-- A directory of this name is left out: a hidden one or one of packages. -/
def isHidden (name : Bytes) : Bool :=
  name == "node_modules" || (Bytes.startsWith name "." && 1 < name.length)

/-- The directory is not walked. -/
def skips (s : Walk) (name : Bytes) (p : Path) : Bool :=
  w.options.skipHidden && isHidden name || s.rules.isIgnored p true

/-- Takes a file, if it is accepted and not ignored. -/
def visit (p : Path) (s : Walk) : Walk :=
  if w.accepts p && !s.rules.isIgnored p false then { s with found := p :: s.found } else s

/-- Walks the entries of a directory in the order in which they are listed, and
the directories among them.  A link to a directory is not walked, but its ignore
file counts. -/
def walk (p : Path) : Directory → Walk → Outcome Walk
  | .empty, s => .ok s
  | .file name _ rest, s => walk p rest (w.visit (p / (⟨name⟩ : Path)) s)
  | .link name _ rest, s => do
    let target : Path := p / (⟨name⟩ : Path)
    if w.disk.isDirectory target then
      if w.skips s name target then walk p rest s
      else walk p rest (← w.enter target s)
    else if w.disk.isFile target then walk p rest (w.visit target s)
    else walk p rest s
  | .folder name inner rest, s => do
    let folder : Path := p / (⟨name⟩ : Path)
    if w.skips s name folder then walk p rest s
    else walk p rest (← walk folder inner (← w.enter folder s))

/-- Files in path order. -/
def sorted (files : List Path) : List Path :=
  files.mergeSort fun p q => (compare p.key q.key).isLE

/-- Adds the files of one input. -/
def addInput (cwd : Path) (files : PathSet) (s : Walk) (input : Path) : Outcome (PathSet × Walk) :=
  let p := input.absoluteFrom cwd
  if w.disk.isFile p then
    .ok (if s.rules.isIgnored p false then files else (files.insert p), s)
  else
    match w.disk.directory? p with
    | none => .error ⟨.notFound, "No such file or directory", some input.text⟩
    | some directory =>
      if s.rules.isIgnored p true then .ok (files, s)
      else do
        let s ← w.walk p directory { (← w.enter p s) with found := [] }
        return ((sorted s.found).foldl PathSet.insert files, s)

/-- Adds the files of the inputs in their order. -/
def addInputs (cwd : Path) (files : PathSet) (s : Walk) : List Path → Outcome PathSet
  | [] => .ok files
  | input :: rest => do
    let (files, s) ← w.addInput cwd files s input
    addInputs cwd files s rest

end Walker

namespace Disk

/-- The files that the inputs stand for, in the order of the inputs. -/
def collect (d : Disk) (inputs : List Path) (cwd : Path) (rules : IgnoreRules)
    (accepts : Path → Bool) (options : WalkOptions) : Outcome (List Path) := do
  let w : Walker := { disk := d, accepts, options }
  let s ← w.enter cwd.normalize { rules }
  return (← w.addInputs cwd .empty s inputs).paths

end Disk

end ScriptLint
