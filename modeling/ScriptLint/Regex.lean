/-
Regular expressions over bytes.

Only the forms that file name patterns need: a set of bytes, a repeated set of
bytes, and an optional group.  Bytes are ordered as signed numbers, so the bytes
from 128 on come before all others:

* **`Regex.parse`** — reads an expression; a range whose ends are in the wrong
  order is the only fault that a well-formed expression can have;
* **`Regex.matchesAll`** — whether an expression matches the whole of a text.
-/
import ScriptLint.Bytes

namespace ScriptLint

/-- A set of bytes: single ones and ranges, or all bytes but these. -/
structure ByteSet where
  negated : Bool := false
  bytes : List UInt8 := []
  ranges : List (UInt8 × UInt8) := []
  deriving DecidableEq, Inhabited, Repr

namespace ByteSet

/-- The set of one byte. -/
def single (b : UInt8) : ByteSet := { bytes := [b] }

/-- Every byte that does not end a line. -/
def inLine : ByteSet := { negated := true, bytes := ['\n', '\r'] }

/-- The byte lies between the ends of a range. -/
def within (b : UInt8) (range : UInt8 × UInt8) : Bool :=
  range.1.toInt8 ≤ b.toInt8 && b.toInt8 ≤ range.2.toInt8

/-- The byte belongs to the set. -/
def has (s : ByteSet) (b : UInt8) : Bool :=
  (s.bytes.contains b || s.ranges.any (within b)) != s.negated

/-- The set with one more byte, if there is one. -/
def withByte? (s : ByteSet) : Option UInt8 → ByteSet
  | none => s
  | some b => { s with bytes := b :: s.bytes }

end ByteSet

/-- An expression: what it matches first, and what it matches after that. -/
inductive Regex where
  | done
  | one (set : ByteSet) (rest : Regex)
  | many (set : ByteSet) (rest : Regex)
  | maybe (group rest : Regex)
  deriving Inhabited, Repr

namespace Regex

/-- Why a text is no expression. -/
inductive Fault where
  | range | bracket | escape | group | unexpected
  deriving DecidableEq, Inhabited, Repr

/-- The wording of a fault. -/
def Fault.message : Fault → Bytes
  | .range => "Invalid range in bracket expression."
  | .bracket => "Unexpected end of bracket expression."
  | .escape => "Unexpected end of regex when escaping."
  | .group => "Parenthesis is not closed."
  | .unexpected => "Unexpected special character."

/-! ### Reading -/

/-- What stands between brackets: a byte, or a dash that may make a range. -/
inductive Member where
  | byte (b : UInt8)
  | dash
  deriving DecidableEq, Repr

/-- The members up to the closing bracket, and the text after it. -/
def readMembers : Bytes → Except Fault (List Member × Bytes)
  | [] => .error .bracket
  | b :: rest =>
    if b = ']' then .ok ([], rest)
    else if b = '\\' then
      match rest with
      | [] => .error .escape
      | c :: rest => do
        let (members, rest) ← readMembers rest
        return (.byte c :: members, rest)
    else do
      let (members, rest) ← readMembers rest
      return ((if b = '-' then .dash else .byte b) :: members, rest)

/-- The set with a range. -/
def addRange (first last : UInt8) (s : ByteSet) : Except Fault ByteSet :=
  if last.toInt8 < first.toInt8 then .error .range
  else .ok { s with ranges := (first, last) :: s.ranges }

/-- Adds members to a set.  The byte before them, if there is one, is what a dash
would make the beginning of a range; a dash without one, or at the end, stands for itself. -/
def addMembers : Option UInt8 → ByteSet → List Member → Except Fault ByteSet
  | start, s, [] => .ok (s.withByte? start)
  | start, s, .byte b :: rest => addMembers (some b) (s.withByte? start) rest
  | none, s, .dash :: rest => addMembers (some '-') s rest
  | some first, s, [.dash] => .ok ((s.withByte? (some first)).withByte? (some '-'))
  | some first, s, .dash :: .byte last :: rest => do
    addMembers none (← addRange first last s) rest
  | some first, s, .dash :: .dash :: rest => do
    addMembers none (← addRange first '-' s) rest

/-- A set in brackets, after the opening one. -/
def readBracket (text : Bytes) : Except Fault (ByteSet × Bytes) := do
  let negated := Bytes.startsWith text "^"
  let (members, rest) ← readMembers (if negated then text.drop 1 else text)
  return (← addMembers none { negated } members, rest)

/-- The bytes that do not stand for themselves. -/
def isSpecial (b : UInt8) : Bool := ("\\^$.|?*+()[]\x7b\x7d" : Bytes).contains b

/-- A set of bytes: in brackets, a dot, a quoted byte or a byte. -/
def readSet : Bytes → Except Fault (ByteSet × Bytes)
  | [] => .error .unexpected
  | b :: rest =>
    if b = '[' then readBracket rest
    else if b = '.' then .ok (.inLine, rest)
    else if b = '\\' then
      match rest with
      | [] => .error .escape
      | c :: rest => .ok (.single c, rest)
    else if isSpecial b then .error .unexpected
    else .ok (.single b, rest)

/-- An expression up to the end of its group or of the text.  The number bounds
the number of forms. -/
def read : Nat → Bytes → Except Fault (Regex × Bytes)
  | 0, _ => .error .unexpected
  | n + 1, text =>
    if text = [] ∨ Bytes.startsWith text ")" then .ok (.done, text)
    else if Bytes.startsWith text "(?:" then do
      let (group, rest) ← read n (text.drop 3)
      if Bytes.startsWith rest ")?" then
        let (after, rest) ← read n (rest.drop 2)
        return (.maybe group after, rest)
      else .error .group
    else do
      let (set, rest) ← readSet text
      if Bytes.startsWith rest "*" then
        let (after, rest) ← read n (rest.drop 1)
        return (.many set after, rest)
      else
        let (after, rest) ← read n rest
        return (.one set after, rest)

/-- The expression that a text stands for. -/
def parse (text : Bytes) : Except Fault Regex := do
  let (r, rest) ← read (text.length + 1) text
  if rest = [] then return r else .error .unexpected

/-! ### Matching -/

/-- Some number of bytes of a set, then what `next` accepts. -/
def acceptsMany (set : ByteSet) (next : Bytes → Bool) : Bytes → Bool
  | [] => next []
  | b :: rest => next (b :: rest) || (set.has b && acceptsMany set next rest)

/-- What the expression matches, then what `next` accepts. -/
def accepts : Regex → (Bytes → Bool) → Bytes → Bool
  | .done, next, text => next text
  | .one _ _, _, [] => false
  | .one set rest, next, b :: text => set.has b && rest.accepts next text
  | .many set rest, next, text => acceptsMany set (rest.accepts next) text
  | .maybe group rest, next, text =>
    group.accepts (rest.accepts next) text || rest.accepts next text

/-- The expression matches the whole text. -/
def matchesAll (r : Regex) (text : Bytes) : Bool := r.accepts List.isEmpty text

end Regex

end ScriptLint
