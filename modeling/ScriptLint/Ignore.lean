/-
Ignore rules.

A rule is a pattern below a base directory.  It may take back what earlier rules
say, and it may concern directories only.  A pattern with a slash before its
end is about the way from the base, any other one about names at any depth.  The
last rule that matches a path decides about it, and what lies in an ignored
directory is ignored:

* **`IgnoreRule.read`** — the rule that a line stands for;
* **`IgnoreRules.add`** — one more line;
* **`IgnoreRules.isIgnored`** — whether a path is ignored.
-/
import ScriptLint.Error
import ScriptLint.Glob
import ScriptLint.Path

namespace ScriptLint

/-- A rule. -/
structure IgnoreRule where
  /-- The rule is about paths below this one. -/
  base : Path
  pattern : Regex
  /-- What matches is not ignored after all. -/
  negated : Bool
  directoriesOnly : Bool
  /-- The pattern is matched against the way from the base. -/
  anchored : Bool
  deriving Inhabited, Repr

/-- What can be wrong with the line of a rule. -/
inductive IgnoreFault where
  | emptyPattern (line : Bytes)
  | invalid (line : Bytes) (fault : Regex.Fault)
  deriving DecidableEq, Inhabited, Repr

/-- The failure to read a line. -/
def IgnoreFault.error : IgnoreFault → Error
  | .emptyPattern line => ⟨.config, "Empty ignore pattern", some line⟩
  | .invalid line fault =>
    ⟨.config, "Invalid ignore pattern '" ++ line ++ "'", some fault.message⟩

namespace IgnoreRule

/-- A reversed line without the blanks at its end.  A quoted space is not a
blank. -/
def dropBlanks : Bytes → Bytes
  | [] => []
  | b :: rest =>
    if b = ' ' ∧ rest.head? = some ('\\' : UInt8) then b :: rest
    else if b = '\r' ∨ b = ' ' then dropBlanks rest
    else b :: rest

/-- A line without the blanks at its end. -/
def trimLine (line : Bytes) : Bytes := (dropBlanks line.reverse).reverse

/-- The rule that a line below a base stands for.  A blank line and a comment
stand for none. -/
def read (line : Bytes) (base : Path) : Except IgnoreFault (Option IgnoreRule) :=
  let line := trimLine line
  if line = [] ∨ Bytes.startsWith line "#" then .ok none
  else
    let negated := Bytes.startsWith line "!"
    let quoted := Bytes.startsWith line "\\!" || Bytes.startsWith line "\\#"
    let text := if negated || quoted then line.drop 1 else line
    let directoriesOnly := Bytes.endsWith text "/"
    let text := if directoriesOnly then text.dropLast else text
    let rooted := Bytes.startsWith text "/"
    let text := if rooted then text.drop 1 else text
    if text = [] then .error (.emptyPattern line)
    else match Regex.parse (Glob.expression text) with
      | .error fault => .error (.invalid line fault)
      | .ok pattern =>
        let anchored := rooted || text.contains '/'
        .ok (some { base := base.normalize, pattern, negated, directoriesOnly, anchored })

/-- What the pattern is matched against: the way from the base, or the name.
A path that is not below the base is no concern of the rule. -/
def subject? (r : IgnoreRule) (p : Path) : Option Bytes :=
  let way := p.lexicallyRelative r.base
  if way.isEmpty ∨ way.same "." ∨ way.names.head? = some ".." then none
  else some (if r.anchored then way.text else p.fileName)

/-- The rule is about the path and matches it. -/
def applies (r : IgnoreRule) (p : Path) (isDirectory : Bool) : Bool :=
  (isDirectory || !r.directoriesOnly) && (r.subject? p).any r.pattern.matchesAll

end IgnoreRule

/-- Rules in the order in which they were added. -/
abbrev IgnoreRules := List IgnoreRule

namespace IgnoreRules

/-- The rules with that of one more line. -/
def add (rules : IgnoreRules) (line : Bytes) (base : Path) : Except IgnoreFault IgnoreRules := do
  return rules ++ (← IgnoreRule.read line base).toList

/-- What the rules say about a path by itself: the last rule that applies
decides. -/
def verdict (rules : IgnoreRules) (p : Path) (isDirectory : Bool) : Bool :=
  rules.foldl (fun ignored r => if r.applies p isDirectory then !r.negated else ignored) false

/-- The path or a directory above it is ignored. -/
def isIgnored (rules : IgnoreRules) (p : Path) (isDirectory : Bool) : Bool :=
  match p.normalize.prefixes.reverse with
  | [] => false
  | last :: above => above.any (rules.verdict · true) || rules.verdict last isDirectory

end IgnoreRules

end ScriptLint
