/-
The command line.

The program itself works on a tree of files.  Here that tree is filled from the
disk, as far as the program can look at it: the files that the arguments name,
configuration and ignore files, the files that are listed on standard input, one
path a line, and whatever the modules import.  An input that is no file is a
directory, whose files are those of the list.  After the run, files that changed
are written back.
-/
import ScriptLint.CommandLine.Program

namespace ScriptLint.Main

/-- The tree that was filled so far, and the paths that were looked at. -/
structure Survey where
  disk : Disk
  known : Path.Set := ∅

/-- The bytes of a string that comes from outside. -/
def bytesOf (s : String) : Bytes := Bytes.ofString s

/-- The text of a file, if the path leads to one that can be read. -/
def readText? (p : Path) : IO (Option Bytes) := do
  match String.fromUTF8? ⟨p.text.toArray⟩ with
  | none => return none
  | some name =>
    try
      return some (← IO.FS.readBinFile name).data.toList
    catch _ =>
      return none

/-- Looks at a path, once, and takes in its file. -/
def look (p : Path) (s : Survey) : IO Survey := do
  if s.known.contains p.key then return s
  let s := { s with known := s.known.add p }
  match ← readText? p with
  | none => return s
  | some text => return { s with disk := { s.disk with root := s.disk.root.put (.file text) p.names } }

/-- Looks at paths in their order, up to the first that leads to a file. -/
def lookFirst (s : Survey) : List Path → IO Survey
  | [] => return s
  | p :: rest => do
    let s ← look p s
    if s.disk.isFile p then return s else lookFirst s rest

/-- Looks at all of the paths. -/
def lookAll (s : Survey) (paths : List Path) : IO Survey := paths.foldlM (fun s p => look p s) s

/-- For each request of the modules of a graph, the paths that it may stand for. -/
def wanted (g : ModuleGraph) : List (List Path) :=
  let resolver : Resolver := {}
  g.nodes.values.flatMap fun n => n.records.flatMap fun r =>
    (r.interface.requests.filter fun q => isPathSpecifier q.specifier).map fun q =>
      resolver.candidates n.path.parent q.specifier

/-- The path and those above it. -/
def upward (p : Path) : List Path := p.ancestors p.text.length

/-- The files that are named by the arguments, and those that stand near them. -/
def named (cwd : Path) (a : Arguments) : List Path :=
  let given := a.positional ++ [("config" : Bytes), "ignore-path"].filterMap a.get?
  given.map (fun t => Path.absoluteFrom ⟨t⟩ cwd) ++ (upward cwd).map (· / Config.fileName) ++
    [cwd / (".gitignore" : Path)]

/-- The paths that are listed on standard input, after those found before. -/
partial def readList (cwd : Path) (input : IO.FS.Stream) (found : List Path) : IO (List Path) := do
  let line ← input.getLine
  if line.isEmpty then return found.reverse
  let name := Bytes.trim Bytes.isLineFeed (bytesOf line)
  readList cwd input (if name = [] then found else Path.absoluteFrom ⟨name⟩ cwd :: found)

/-- The paths that are listed on standard input, unless it is a terminal. -/
def listed (cwd : Path) : IO (List Path) := do
  let input ← IO.getStdin
  if ← input.isTty then return [] else readList cwd input []

/-- A listed file, and the ignore files of the directories above it. -/
def withIgnoreFiles (p : Path) : List Path :=
  p :: (upward p.parent).map (· / (".gitignore" : Path))

/-- Runs the program on the tree, and again whenever what the modules import
makes the tree grow. -/
partial def settle (arguments : List Bytes) (s : Survey) : IO (Survey × Ending) := do
  let ending := Program.run { disk := s.disk } arguments
  match ending.graph with
  | none => return (s, ending)
  | some g =>
    let grown ← (wanted g).foldlM lookFirst s
    if grown.disk.root.size = s.disk.root.size then return (s, ending)
    else settle arguments grown

/-- Writes the files of a graph that a run changed. -/
def writeBack (before after : Disk) (g : ModuleGraph) : IO Unit :=
  g.modules.forM fun p => do
    match before.read p, after.read p, String.fromUTF8? ⟨p.text.toArray⟩ with
    | .ok old, .ok new, some name => if old ≠ new then IO.FS.writeBinFile name ⟨new.toArray⟩
    | _, _, _ => return

end ScriptLint.Main

open ScriptLint ScriptLint.Main in
/-- The program. -/
def main (arguments : List String) : IO UInt32 := do
  let arguments := arguments.map bytesOf
  let cwd : Path := ⟨bytesOf (toString (← IO.currentDir))⟩
  let root := Directory.empty.put (.folder .empty) cwd.names
  let (a, _) := Arguments.parse Lint.options (arguments.drop 1)
  let s ← lookAll { disk := { root, workingNames := cwd.names } } (named cwd a)
  let inputs := a.positional.map fun t => Path.absoluteFrom ⟨t⟩ cwd
  let files ← if inputs.all s.disk.isFile then pure [] else listed cwd
  let (s, ending) ← settle arguments (← lookAll s (files.flatMap withIgnoreFiles))
  if let some g := ending.graph then writeBack s.disk ending.disk g
  (← IO.getStdout).write ⟨ending.output.toArray⟩
  (← IO.getStderr).write ⟨ending.errors.toArray⟩
  return ending.code.toUInt32
