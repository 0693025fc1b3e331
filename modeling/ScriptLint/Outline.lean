/-
Tokens with their brackets paired.

An outline is a token sequence in which every bracket knows its partner.  It
exists exactly for sequences whose brackets are well nested; otherwise the
first bracket that cannot be paired is the fault, or the innermost one left
open at the end:

* **`Outline.ofTokens`** — pairs the brackets;
* **`Outline.afterGroup`** — the place after a bracket's partner;
* **`Outline.statementEnd`** — the place after the statement that begins at a
  token, without reading it: a semicolon, a closing bracket, or a line that
  begins after the end of an expression.
-/
import ScriptLint.Token
import ScriptLint.Fault

namespace ScriptLint

namespace Token

/-- A word or mark that opens a bracket. -/
def opens (t : Token) : Bool := openers.any t.isText

/-- A word or mark that closes a bracket. -/
def closes (t : Token) : Bool := closers.any t.isText

end Token

/-- The byte that closes what another byte opens. -/
def closerOf (opener : UInt8) : UInt8 :=
  if opener = '(' then ')' else if opener = '[' then ']' else '}'

/-- Tokens, and for each bracket among them the index of its partner. -/
structure Outline where
  tokens : Array Token
  partner : Array (Option Nat)
  deriving Inhabited, Repr

namespace Outline

/-- Pairs the brackets of the tokens from index `i` on, given the brackets
that are open, the innermost first. -/
def pairFrom (partner : Array (Option Nat)) (opened : List (Nat × Token)) (i : Nat) :
    List Token → Except Failure (Array (Option Nat))
  | [] =>
    match opened with
    | [] => .ok partner
    | (_, o) :: _ => .error ⟨.unclosed o.text, o.span⟩
  | t :: rest =>
    if t.opens then pairFrom partner ((i, t) :: opened) (i + 1) rest
    else if t.closes then
      match opened with
      | [] => .error ⟨.unexpected t.text, t.span⟩
      | (j, o) :: opened =>
        let expected := closerOf (o.text.headD 0)
        if t.text = [expected] then
          pairFrom ((partner.setIfInBounds j (some i)).setIfInBounds i (some j)) opened (i + 1) rest
        else .error ⟨.mismatched (t.text.headD 0) expected, t.span⟩
    else pairFrom partner opened (i + 1) rest

/-- The outline of a token sequence with well-nested brackets. -/
def ofTokens (tokens : List Token) : Except Failure Outline := do
  let partner ← pairFrom (Array.replicate tokens.length none) [] 0 tokens
  return ⟨tokens.toArray, partner⟩

variable (o : Outline)

/-- The number of tokens. -/
def size : Nat := o.tokens.size

/-- The token at an index. -/
def token (i : Nat) : Token := o.tokens[i]?.getD default

/-- The token at an index is the given word or mark. -/
def is (i : Nat) (text : Bytes) : Bool := o.tokens[i]?.any (·.isText text)

/-- The token at an index is a word. -/
def isWord (i : Nat) : Bool := o.tokens[i]?.any (·.kind = .word)

/-- The token at an index is a string literal. -/
def isString (i : Nat) : Bool := o.tokens[i]?.any (·.kind = .string)

/-- The token at an index may name a binding. -/
def isBindable (i : Nat) : Bool := o.tokens[i]?.any fun t => t.kind = .word && t.text ∉ Token.reserved

/-- The token at an index opens a bracket. -/
def opens (i : Nat) : Bool := o.tokens[i]?.any Token.opens

/-- The token at an index closes a bracket. -/
def closes (i : Nat) : Bool := o.tokens[i]?.any Token.closes

/-- The index of a bracket's partner. -/
def partnerOf (i : Nat) : Nat := (o.partner[i]?.join).getD i

/-- The index after the partner of the bracket at an index. -/
def afterGroup (i : Nat) : Nat := max (o.partnerOf i) i + 1

theorem lt_afterGroup (i : Nat) : i < o.afterGroup i := by
  unfold afterGroup; omega

/-- The bytes from one token up to the last one before an index. -/
def spanOf (i stop : Nat) : Span :=
  if stop ≤ i then (o.token i).span else ⟨(o.token i).span.start, (o.token (stop - 1)).span.stop⟩

/-- A line begins at the token of an index, and a statement may begin there. -/
def breaksBefore (i : Nat) : Bool :=
  (o.token i).onNewLine && (o.token (i - 1)).endsExpression && (o.token i).startsStatement

/-- The end of the statement that begins at `start`, looked for from `i` on. -/
def statementEndFrom (start i : Nat) : Nat :=
  if i < o.size then
    if start < i && o.breaksBefore i then i
    else if o.opens i then statementEndFrom start (o.afterGroup i)
    else if o.is i ";" then i + 1
    else if o.closes i then i
    else statementEndFrom start (i + 1)
  else o.size
termination_by o.size - i
decreasing_by
  · have := o.lt_afterGroup i; omega
  · omega

/-- The index after the statement that begins at `start`. -/
def statementEnd (start : Nat) : Nat := o.statementEndFrom start start

end Outline

end ScriptLint
