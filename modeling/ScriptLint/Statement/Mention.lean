/-
Which identifiers a range of tokens mentions.

Mentions are found token by token, without a grammar.  An identifier counts as
used unless it is a reserved or private name, a property after a dot, a key of
an object literal, or declared by the statement itself.  `debugger` statements
are found in the same way.
-/
import ScriptLint.Outline
import ScriptLint.Statement

namespace ScriptLint.Outline

variable (o : Outline)

/-- The indices from `start` up to `stop`. -/
def indices (start stop : Nat) : List Nat := List.range' start (stop - start)

/-- The identifier at an index. -/
def identifier (i : Nat) : Identifier := ⟨(o.token i).text, (o.token i).span⟩

/-- The token at an index follows a dot. -/
def followsDot (i : Nat) : Bool := 0 < i && o.is (i - 1) "."

/-- The token at an index is a key of an object literal. -/
def isKey (i : Nat) : Bool :=
  o.is (i + 1) ":" && 0 < i && (o.is (i - 1) "\x7b" || o.is (i - 1) ",")

/-- The token at an index mentions an identifier. -/
def isMention (i : Nat) : Bool :=
  o.isBindable i && (o.token i).text.head? != some '#' && !o.followsDot i && !o.isKey i

/-- The identifiers that the tokens from `start` up to `stop` mention, other
than the declared ones. -/
def references (declared : List Identifier) (start stop : Nat) : List Identifier :=
  (indices start stop).filterMap fun i =>
    if o.isMention i && declared.all (·.span != (o.token i).span) then some (o.identifier i)
    else none

/-- The token at an index is the word `debugger`, and no property. -/
def isDebugger (i : Nat) : Bool := o.is i "debugger" && !o.followsDot i

/-- The `debugger` statements among the tokens from `start` up to `stop`, each
with the semicolon that follows it. -/
def debuggers (start stop : Nat) : List Statement :=
  (indices start stop).filterMap fun i =>
    if o.isDebugger i then
      some { kind := .debugger, span := o.spanOf i (if o.is (i + 1) ";" then i + 2 else i + 1) }
    else none

/-- The names that a destructuring pattern binds, the pattern being the group
that the token at an index opens. -/
def patternNames (opener : Nat) : List Identifier :=
  (indices (opener + 1) (o.partnerOf opener)).filterMap fun k =>
    if o.isBindable k && !o.is (k - 1) "." && !o.is (k - 1) "=" &&
        (o.is (k + 1) "," || o.is (k + 1) "\x7d" || o.is (k + 1) "]" || o.is (k + 1) "=") then
      some (o.identifier k)
    else none

end ScriptLint.Outline
