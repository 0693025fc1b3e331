/-
File paths, lexically.

A path is a byte text cut at `/`.  Nothing here looks at a file system.  Two
paths name the same thing when they agree on being rooted and on their names;
empty names between slashes do not count, except for one at the end, which
stands for a trailing slash:

* **`Path.names`** — the names of a path, the last one empty after a trailing
  slash;
* **`Path.key`** — what path equality and path order look at;
* **`Path.normalize`** — resolves `.` and `..` by names alone;
* **`Path.relativeTo`** — the way from one directory to a path;
* **`Path.extension`** — the last dot of the file name and what follows.
-/
import Std.Data.TreeMap
import Std.Data.TreeSet
import ScriptLint.Bytes

namespace ScriptLint

/-- A path is its own text. -/
structure Path where
  text : Bytes
  deriving DecidableEq, Inhabited, Repr

namespace Path

/-- A literal names a path. -/
instance : Coe String Path := ⟨fun s => ⟨s⟩⟩

/-- The byte that separates names. -/
def isSlash (b : UInt8) : Bool := b == '/'

/-- The byte that separates a name from its extension. -/
def isDot (b : UInt8) : Bool := b == '.'

/-- The path begins with a slash. -/
def isAbsolute (p : Path) : Bool := Bytes.startsWith p.text "/"

/-- The path has no bytes. -/
def isEmpty (p : Path) : Bool := p.text.isEmpty

/-- The path is one or more slashes and nothing else. -/
def isRoot (p : Path) : Bool := !p.text.isEmpty && p.text.all isSlash

/-- The names of a path.  A final empty name stands for a trailing slash. -/
def names (p : Path) : List Bytes :=
  let fields := Bytes.splitOn '/' p.text
  let names := fields.filter (· ≠ [])
  if names ≠ [] ∧ fields.getLast? = some [] then names ++ [[]] else names

/-- The path with the given names, below the root or not. -/
def ofNames (rooted : Bool) (names : List Bytes) : Path :=
  ⟨(if rooted then ("/" : Bytes) else []) ++ Bytes.join "/" names⟩

/-- What equality and order of paths look at. -/
structure Key where
  rooted : Bool
  names : List Bytes
  deriving DecidableEq, Inhabited, Repr

/-- Unrooted paths come first; otherwise name by name. -/
instance : Ord Key := ⟨compareLex (compareOn Key.rooted) (compareOn Key.names)⟩

instance : Std.TransOrd Key :=
  inferInstanceAs (Std.TransCmp (compareLex (compareOn Key.rooted) (compareOn Key.names)))

instance : Std.LawfulEqOrd Key where
  eq_of_compare {a b} h := by
    have h : compareLex (compareOn Key.rooted) (compareOn Key.names) a b = .eq := h
    simp only [compareLex, compareOn, Ordering.then_eq_eq] at h
    have hr := Std.LawfulEqOrd.eq_of_compare h.1
    have hn := Std.LawfulEqOrd.eq_of_compare h.2
    cases a
    cases b
    simp_all

/-- The key of a path: rooted or not, and its names. -/
def key (p : Path) : Key := ⟨p.isAbsolute, p.names⟩

/-- Two paths are the same if their keys are. -/
def same (p q : Path) : Bool := p.key == q.key

/-- A set of paths in path order.  Of paths with the same key it keeps the text
of the first. -/
abbrev Set := Std.TreeMap Key Path

/-- The set with one more path. -/
def Set.add (p : Path) (s : Set) : Set := s.insertIfNew p.key p

/-- The paths of a set in their order. -/
def Set.paths (s : Set) : List Path := s.values

/-- A path below another one.  An absolute path stays as it is. -/
def append (p q : Path) : Path :=
  if q.isAbsolute || p.isEmpty then q
  else if Bytes.endsWith p.text "/" then ⟨p.text ++ q.text⟩
  else ⟨p.text ++ "/" ++ q.text⟩

instance : HDiv Path Path Path := ⟨append⟩

/-- The paths that the given names lead through, from a path on. -/
def through (p : Path) : List Bytes → List Path
  | [] => []
  | name :: rest => (p / (⟨name⟩ : Path)) :: through (p / (⟨name⟩ : Path)) rest

/-- The paths that lead to a path, itself the last one, beginning with the root
of an absolute path. -/
def prefixes (p : Path) : List Path :=
  if p.isAbsolute then "/" :: through "/" p.names else through ⟨[]⟩ p.names

/-- The last name; empty for the root and after a trailing slash. -/
def fileName (p : Path) : Bytes := p.names.getLast?.getD []

/-- The text without the separators that end it. -/
def dropSlashes (text : Bytes) : Bytes := (text.reverse.dropWhile isSlash).reverse

/-- The text without the last name and the slashes before it.  The root has no
name to lose. -/
def parent (p : Path) : Path :=
  if p.names = [] then p
  else
    let above := (p.text.reverse.dropWhile (!isSlash ·)).reverse
    let stem := dropSlashes above
    if stem.isEmpty && p.isAbsolute then "/" else ⟨stem⟩

/-- A file name from its last dot on.  A dot at the beginning is part of the
name, and `..` has no extension. -/
def extensionOf (name : Bytes) : Bytes :=
  if name = ".." then []
  else
    let tail := (name.reverse.takeWhile (!isDot ·)).reverse
    if tail.length + 1 < name.length then '.' :: tail else []

/-- The extension of the file name, with its dot. -/
def extension (p : Path) : Bytes := extensionOf p.fileName

/-- Resolves the names that remain against the names kept so far, last one
first.  `..` takes back a name, is kept where there is none to take back, and
is dropped at the root. -/
def collapse (rooted : Bool) : List Bytes → List Bytes → List Bytes
  | kept, [] => kept.reverse
  | kept, name :: rest =>
    if name = "." then collapse rooted kept rest
    else if name = ".." then
      match kept with
      | [] => collapse rooted (if rooted then [] else [name]) rest
      | last :: before =>
        if last = ".." then collapse rooted (name :: kept) rest
        else collapse rooted before rest
    else if name = [] ∧ kept = [] then collapse rooted kept rest
    else collapse rooted (name :: kept) rest

/-- The path without `.` and, as far as names can tell, without `..`.  What is
left empty is `.`, and a path of slashes alone stays as it is. -/
def normalize (p : Path) : Path :=
  if p.isRoot then p
  else
    let names := collapse p.isAbsolute [] p.names
    if names = [] ∧ !p.isAbsolute then "." else ofNames p.isAbsolute names

/-- A path made absolute against a base, then normalized. -/
def absoluteFrom (p base : Path) : Path :=
  normalize (if p.isAbsolute then p else base / p)

/-- The number of directories above the last name; `.` is none. -/
def depth (p : Path) : Nat := (p.names.dropLast.filter fun n => n ≠ [] ∧ n ≠ ".").length

/-- Resolves names as `collapse` does, and remembers whether what stands last
is a directory by its spelling: after `.`, after a trailing slash, or after a
name that `..` took back. -/
def settle (rooted : Bool) : List Bytes → Bool → List Bytes → List Bytes × Bool
  | kept, slash, [] => (kept.reverse, slash)
  | kept, slash, name :: rest =>
    if name = "." ∨ name = [] then settle rooted kept (kept ≠ []) rest
    else if name = ".." then
      match kept with
      | [] => if rooted then settle rooted [] slash rest else settle rooted [name] false rest
      | last :: before =>
        if last = ".." then settle rooted (name :: kept) false rest
        else settle rooted before (before ≠ []) rest
    else settle rooted (name :: kept) false rest

/-- The normal form that keeps a trailing slash, except after `..`. -/
def lexicallyNormal (p : Path) : Path :=
  if p.isEmpty then p
  else
    let (names, slash) := settle p.isAbsolute [] false p.names
    if names = [] then (if p.isAbsolute then "/" else ".")
    else ofNames p.isAbsolute (if slash ∧ names.getLast? ≠ some ".." then names ++ [[]] else names)

/-- The names of two paths without those that both begin with. -/
def dropCommon : List Bytes → List Bytes → List Bytes × List Bytes
  | a :: as, b :: bs => if a = b then dropCommon as bs else (a :: as, b :: bs)
  | as, bs => (as, bs)

/-- How far a path of the given names leads down, negative for up. -/
def descent (names : List Bytes) : Int :=
  names.foldl (fun (n : Int) (name : Bytes) => if name = ".." then n - 1
    else if name = [] ∨ name = "." then n else n + 1) 0

/-- The way from `base` to a path by names alone, and the empty path if there
is none. -/
def lexicallyRelative (p base : Path) : Path :=
  if p.isAbsolute ≠ base.isAbsolute then ⟨[]⟩
  else match dropCommon p.names base.names with
    | ([], []) => "."
    | (rest, above) =>
      let up := descent above
      if up = 0 ∧ (rest = [] ∨ rest.head? = some []) then "."
      else if up < 0 then ⟨[]⟩
      else (List.replicate up.toNat (".." : Bytes) ++ rest).foldl (fun (q : Path) name => q / ⟨name⟩) ⟨[]⟩

/-- The way from `base` to a path where neither exists on a disk; the path
itself if there is none. -/
def relativeTo (p base : Path) : Path :=
  let way := p.lexicallyNormal.lexicallyRelative base.lexicallyNormal
  if way.isEmpty then p else way

end Path

/-- An import specifier that names a file: `./x`, `../x`, `.`, `..` or an
absolute path. -/
def isPathSpecifier (specifier : Bytes) : Bool :=
  Bytes.startsWith specifier "./" || Bytes.startsWith specifier "../" ||
    specifier == "." || specifier == ".." || Bytes.startsWith specifier "/"

end ScriptLint
