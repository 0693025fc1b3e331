/-
A tree of directories, files and symbolic links.

A path is looked up name by name from the root or from the working directory.
A link leads on to its target, and no more than forty links are followed for one
path:

* **`Disk.locate`** — where a path leads;
* **`Disk.read`**, **`Disk.write`** — the text of a file;
* **`Disk.relativeTo`** — the way from a directory to a path, with links
  resolved as far as the paths exist.
-/
import ScriptLint.Files

namespace ScriptLint

/-- The entries of a directory, in the order in which they are listed. -/
inductive Directory where
  | empty
  | file (name text : Bytes) (rest : Directory)
  | link (name : Bytes) (target : Path) (rest : Directory)
  | folder (name : Bytes) (inner rest : Directory)
  deriving DecidableEq, Inhabited, Repr

/-- What a name can stand for. -/
inductive Entry where
  | file (text : Bytes)
  | link (target : Path)
  | folder (inner : Directory)
  deriving DecidableEq, Inhabited, Repr

namespace Directory

/-- The entry of a name. -/
def entry? (name : Bytes) : Directory → Option Entry
  | .empty => none
  | .file n text rest => if n = name then some (.file text) else entry? name rest
  | .link n target rest => if n = name then some (.link target) else entry? name rest
  | .folder n inner rest => if n = name then some (.folder inner) else entry? name rest

/-- The directory with one more entry in front. -/
def cons (name : Bytes) (entry : Entry) (rest : Directory) : Directory :=
  match entry with
  | .file text => .file name text rest
  | .link target => .link name target rest
  | .folder inner => .folder name inner rest

/-- The directory with an entry, in place of one of the same name or at the
end. -/
def set (name : Bytes) (entry : Entry) : Directory → Directory
  | .empty => cons name entry .empty
  | .file n text rest =>
    if n = name then cons name entry rest else .file n text (set name entry rest)
  | .link n target rest =>
    if n = name then cons name entry rest else .link n target (set name entry rest)
  | .folder n inner rest =>
    if n = name then cons name entry rest else .folder n inner (set name entry rest)

/-- The number of entries, those of the directories inside included. -/
def size : Directory → Nat
  | .empty => 0
  | .file _ _ rest => rest.size + 1
  | .link _ _ rest => rest.size + 1
  | .folder _ inner rest => inner.size + rest.size + 1

/-- What a list of names leads to, without following links. -/
def find? (d : Directory) : List Bytes → Option Entry
  | [] => some (.folder d)
  | [name] => d.entry? name
  | name :: rest =>
    match d.entry? name with
    | some (.folder inner) => inner.find? rest
    | _ => none

/-- The directory with an entry under a list of names.  Directories on the way
are made where they are missing. -/
def put (entry : Entry) (d : Directory) : List Bytes → Directory
  | [] => d
  | [name] => d.set name entry
  | name :: rest =>
    match d.entry? name with
    | some (.folder inner) => d.set name (.folder (inner.put entry rest))
    | _ => d.set name (.folder (put entry .empty rest))

end Directory

/-- Why a path leads nowhere. -/
inductive DiskFault where
  | notFound | notDirectory | isDirectory | tooManyLinks | nameTooLong
  deriving DecidableEq, Inhabited, Repr

/-- The wording of a fault. -/
def DiskFault.message : DiskFault → Bytes
  | .notFound => "No such file or directory"
  | .notDirectory => "Not a directory"
  | .isDirectory => "Is a directory"
  | .tooManyLinks => "Too many levels of symbolic links"
  | .nameTooLong => "File name too long"

/-- Where a path leads: to an entry, or to a free name in a directory. -/
inductive Place where
  | taken (names : List Bytes) (entry : Entry)
  | free (names : List Bytes)
  deriving DecidableEq, Inhabited, Repr

/-- What can be known about whether a path exists. -/
inductive Presence where
  | here (names : List Bytes)
  | absent
  | unclear
  deriving DecidableEq, Inhabited, Repr

/-- A tree and the names of the directory in which work is done. -/
structure Disk where
  root : Directory := .empty
  workingNames : List Bytes := []
  deriving DecidableEq, Inhabited, Repr

namespace Disk

/-- The number of links that are followed for one path. -/
def linkLimit : Nat := 40

/-- The longest name, and the longest path. -/
def nameLimit : Nat := 255

@[inherit_doc nameLimit] def pathLimit : Nat := 4095

/-- Walks along names.  `here` are the names of the directory where the walk
stands, the last one first. -/
def walk (root : Directory) (links : Nat) (here : List Bytes) :
    List Bytes → Except DiskFault Place
  | [] =>
    match root.find? here.reverse with
    | some entry => .ok (.taken here.reverse entry)
    | none => .error .notFound
  | name :: rest =>
    match root.find? here.reverse with
    | some (.folder directory) =>
      if name = [] ∨ name = "." then walk root links here rest
      else if name = ".." then walk root links here.tail rest
      else if nameLimit < name.length then .error .nameTooLong
      else
        match directory.entry? name, links with
        | none, _ =>
          if rest = [] then .ok (.free (here.reverse ++ [name])) else .error .notFound
        | some (.link _), 0 => .error .tooManyLinks
        | some (.link target), links + 1 =>
          walk root links (if target.isAbsolute then [] else here) (target.names ++ rest)
        | some _, links => walk root links (name :: here) rest
    | some _ => .error .notDirectory
    | none => .error .notFound
termination_by names => (links, names.length)

variable (d : Disk)

/-- The working directory as a path. -/
def directory : Path := Path.ofNames true d.workingNames

/-- Where a path leads. -/
def locate (p : Path) : Except DiskFault Place :=
  if p.isEmpty then .error .notFound
  else if pathLimit < p.text.length then .error .nameTooLong
  else walk d.root linkLimit (if p.isAbsolute then [] else d.workingNames.reverse) p.names

/-- The path leads to a file. -/
def isFile (p : Path) : Bool :=
  match d.locate p with
  | .ok (.taken _ (.file _)) => true
  | _ => false

/-- The directory that a path leads to. -/
def directory? (p : Path) : Option Directory :=
  match d.locate p with
  | .ok (.taken _ (.folder inner)) => some inner
  | _ => none

/-- The path leads to a directory. -/
def isDirectory (p : Path) : Bool := (d.directory? p).isSome

/-- The failure to open a file. -/
def openFailure (p : Path) (fault : DiskFault) : Error :=
  ⟨.disk, "Failed to open file: " ++ fault.message, some p.text⟩

/-- The text of a file. -/
def read (p : Path) : Outcome Bytes :=
  match d.locate p with
  | .ok (.taken _ (.file text)) => .ok text
  | .ok (.taken _ _) => .error (openFailure p .isDirectory)
  | .ok (.free _) => .error (openFailure p .notFound)
  | .error fault => .error (openFailure p fault)

/-- Replaces the text of a file, or makes a new file in a directory. -/
def write (p : Path) (text : Bytes) : Outcome Disk :=
  match d.locate p with
  | .ok (.taken names (.file _)) | .ok (.free names) =>
    .ok { d with root := d.root.put (.file text) names }
  | _ => .error ⟨.disk, "Failed to open file for writing", some p.text⟩

/-! ### Paths with links resolved -/

/-- Whether a path exists. -/
def presence (p : Path) : Presence :=
  match d.locate p with
  | .ok (.taken names _) => .here names
  | .ok (.free _) | .error .notFound | .error .notDirectory => .absent
  | .error _ => .unclear

/-- The longest beginning of a path that exists, and the names after it. -/
def leading (p : Path) : List Bytes → Option (Path × List Bytes)
  | [] => some (p, [])
  | name :: rest =>
    match d.presence (p / (⟨name⟩ : Path)) with
    | .here _ => leading (p / (⟨name⟩ : Path)) rest
    | .absent => some (p, name :: rest)
    | .unclear => none

/-- A path without links as far as it exists, and in normal form after that. -/
def resolved (p : Path) : Option Path :=
  match d.presence p with
  | .here names => some (Path.ofNames true names)
  | .unclear => none
  | .absent => do
    let (existing, rest) ← d.leading (if p.isAbsolute then "/" else ⟨[]⟩) p.names
    let start := match d.presence existing with
      | .here names => Path.ofNames true names
      | _ => existing
    return (rest.foldl (fun (q : Path) name => q / (⟨name⟩ : Path)) start).lexicallyNormal

/-- The way from `base` to a path; the path itself if there is none. -/
def relativeTo (p base : Path) : Path :=
  match d.resolved p, d.resolved base with
  | some target, some base =>
    let way := target.lexicallyRelative base
    if way.isEmpty then p else way
  | _, _ => p

/-- A path of a file is told by the links that lead to it and by the entry that
it ends at, which bounds their number. -/
instance : FileStore Disk where
  isFile := isFile
  read p d := ((d.read p).mapError .failed, d)
  write p text d :=
    match d.write p text with
    | .ok d => (.ok (), d)
    | .error e => (.error (.failed e), d)
  bound d := Nat.pow (d.root.size + 1) (linkLimit + 1)

end Disk

end ScriptLint
