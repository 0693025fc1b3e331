/-
File name patterns.

A pattern is read as a list of parts, and each part has an expression.  Inside a
name `*` stands for any bytes and `?` for one byte; `**` stands for any bytes at
all, and `**/` for any directories, possibly none.  A set of bytes stands in
brackets, and a backslash takes the meaning from the byte after it:

* **`Glob.parts`** — reads a pattern; every text is one;
* **`Glob.expression`** — the regular expression of a pattern.
-/
import ScriptLint.Regex

namespace ScriptLint.Glob

/-- What a pattern is made of. -/
inductive Part where
  | directories
  | anything
  | inName
  | byteInName
  | set (negated : Bool) (bytes : Bytes)
  | literal (b : UInt8)
  deriving DecidableEq, Repr

/-- The parts of a pattern.  The first argument is the set that is open, its
bytes last one first.  A bracket that is never closed is a literal one. -/
def parts : Option (Bool × Bytes) → Bytes → List Part
  | _, [] => []
  | some (negated, bytes), b :: rest =>
    if b = ']' then .set negated bytes.reverse :: parts none rest
    else parts (some (negated, b :: bytes)) rest
  | none, [b] =>
    [if b = '*' then .inName else if b = '?' then .byteInName else .literal b]
  | none, b :: c :: rest =>
    if b = '*' then
      if c = '*' then
        match rest with
        | [] => [.anything]
        | d :: rest =>
          if d = '/' then .directories :: parts none rest
          else .anything :: parts none (d :: rest)
      else .inName :: parts none (c :: rest)
    else if b = '?' then .byteInName :: parts none (c :: rest)
    else if b = '[' then
      if !(c :: rest).contains ']' then .literal b :: parts none (c :: rest)
      else if c = '!' ∨ c = '^' then parts (some (true, [])) rest
      else parts (some (false, [])) (c :: rest)
    else if b = '\\' then .literal c :: parts none rest
    else .literal b :: parts none (c :: rest)

/-- A byte in an expression. -/
def quote (b : UInt8) : Bytes := if Regex.isSpecial b then ['\\', b] else [b]

/-- A byte in the brackets of an expression. -/
def quoteInSet (b : UInt8) : Bytes := if b = '\\' ∨ b = '[' then ['\\', b] else [b]

/-- The expression of a part. -/
def Part.expression : Part → Bytes
  | .directories => "(?:.*/)?"
  | .anything => ".*"
  | .inName => "[^/]*"
  | .byteInName => "[^/]"
  | .set negated bytes =>
    (if negated then ("[^" : Bytes) else "[") ++ bytes.flatMap quoteInSet ++ "]"
  | .literal b => quote b

/-- The regular expression of a pattern. -/
def expression (pattern : Bytes) : Bytes := (parts none pattern).flatMap Part.expression

end ScriptLint.Glob
