/-
Cutting a text into tokens.

The text is read from left to right in pieces.  A piece is a gap (a blank, a
line feed or a comment) or a lexeme; its length is decided by what follows its
first byte, by the token before it, and by the braces that are open.  Every
piece has at least one byte, so the reading ends:

* **`stringExtent`**, **`templateExtent`**, **`patternExtent`**,
  **`numberExtent`** — how far a lexeme reaches after its first byte;
* **`Piece.first`** — the piece at the beginning of a text;
* **`Token.scan`** — the tokens of a text, or the first fault.
-/
import ScriptLint.Token
import ScriptLint.Fault

namespace ScriptLint

/-- What an open brace belongs to: a block, or the substitution that follows
the template part at an offset. -/
inductive Frame where
  | block
  | substitution (part : Nat)
  deriving DecidableEq, Inhabited, Repr

/-- A piece of text.  `extra` counts the bytes after its first one. -/
inductive Piece where
  | gap (extra : Nat) (breaksLine : Bool)
  | lexeme (kind : Token.Kind) (extra : Nat) (frames : List Frame)
  deriving DecidableEq, Inhabited, Repr

/-- Space, tab, carriage return, form feed and vertical tab. -/
def isBlank (b : UInt8) : Bool := b == ' ' || b == '\t' || b == '\r' || b == 0x0c || b == 0x0b

/-- A letter, `_`, `$`, `#`, or a byte outside ASCII. -/
def isWordStart (b : UInt8) : Bool :=
  ('a' ≤ b && b ≤ 'z') || ('A' ≤ b && b ≤ 'Z') || b == '_' || b == '$' || b == '#' || 0x80 ≤ b

/-- A byte that continues a word. -/
def isWordPart (b : UInt8) : Bool := isWordStart b || Bytes.isDigit b

/-- A length counted from further left. -/
def past (n : Nat) : Except Nat Nat → Except Nat Nat
  | .ok k => .ok (k + n)
  | .error k => .error (k + n)

/-- The bytes after the opening quote up to and with the closing one.  A
backslash takes the next byte with it.  The number of bytes read, where the
line or the text ends first. -/
def stringExtent (quote : UInt8) : Bytes → Except Nat Nat
  | [] => .error 0
  | [b] => if b = '\\' then .error 1 else if b = '\n' then .error 0
    else if b = quote then .ok 1 else .error 1
  | b :: c :: rest =>
    if b = '\\' then past 2 (stringExtent quote rest)
    else if b = '\n' then .error 0
    else if b = quote then .ok 1
    else past 1 (stringExtent quote (c :: rest))

/-- The bytes of a template part after its first one, and whether it ends at a
substitution. -/
def templateExtent : Bytes → Option (Nat × Bool)
  | [] => none
  | [b] => if b = 0x60 then some (1, false) else none
  | b :: c :: rest =>
    if b = '\\' then (templateExtent rest).map fun e => (e.1 + 2, e.2)
    else if b = 0x60 then some (1, false)
    else if b = '$' ∧ c = '{' then some (2, true)
    else (templateExtent (c :: rest)).map fun e => (e.1 + 1, e.2)

/-- The bytes of a regular expression after its first slash, with its flags.
A slash inside brackets does not end it. -/
def patternExtent (bracketed : Bool) : Bytes → Except Nat Nat
  | [] => .error 0
  | [b] => if b = '\n' then .error 0 else if b = '/' ∧ !bracketed then .ok 1 else .error 1
  | b :: c :: rest =>
    if b = '\\' then past 2 (patternExtent bracketed rest)
    else if b = '\n' then .error 0
    else if b = '[' then past 1 (patternExtent true (c :: rest))
    else if b = ']' then past 1 (patternExtent false (c :: rest))
    else if b = '/' ∧ !bracketed then .ok (1 + ((c :: rest).takeWhile isWordPart).length)
    else past 1 (patternExtent bracketed (c :: rest))

/-- The bytes of a number after its first one.  A sign belongs to it after an
exponent mark, unless the number is hexadecimal. -/
def numberExtent (hex : Bool) : UInt8 → Bytes → Nat
  | _, [] => 0
  | before, b :: rest =>
    if isWordPart b || b == '.' then 1 + numberExtent hex b rest
    else if !hex && (b == '+' || b == '-') && (before == 'e' || before == 'E') then
      1 + numberExtent hex b rest
    else 0

/-- The open braces after a mark. -/
def framesAfter (b : UInt8) (frames : List Frame) : List Frame :=
  if b = '{' then .block :: frames else if b = '}' then frames.tail else frames

/-- A fault from an offset over a number of bytes. -/
def faultAt (fault : Fault) (pos length : Nat) : Except Failure Piece :=
  .error ⟨fault, .ofOffsets pos (pos + length)⟩

/-- The template part whose first byte stands at `pos`. -/
def templatePiece (frames : List Frame) (pos : Nat) (rest : Bytes) : Except Failure Piece :=
  match templateExtent rest with
  | none => faultAt .openTemplate pos (1 + rest.length)
  | some (n, false) => .ok (.lexeme .template n frames)
  | some (n, true) => .ok (.lexeme .template n (.substitution pos :: frames))

/-- The piece that begins with the byte `b` at offset `pos`. -/
def Piece.first (elements : Bool) (last : Option Token) (frames : List Frame) (pos : Nat)
    (b : UInt8) (rest : Bytes) : Except Failure Piece :=
  if b = '\n' then .ok (.gap 0 true)
  else if isBlank b then .ok (.gap 0 false)
  else if b = '/' ∧ rest.head? = some '/' then
    .ok (.gap (rest.takeWhile (!Bytes.isLineFeed ·)).length false)
  else if b = '/' ∧ rest.head? = some '*' then
    match Bytes.find? "*/" rest.tail with
    | none => faultAt .openComment pos (1 + rest.length)
    | some n => .ok (.gap (n + 3) ((rest.take (n + 1)).contains '\n'))
  else if b = '"' ∨ b = '\'' then
    match stringExtent b rest with
    | .ok n => .ok (.lexeme .string n frames)
    | .error n => faultAt .openString pos (1 + n)
  else if b = 0x60 then templatePiece frames pos rest
  else match b == '}', frames with
  | true, .substitution _ :: below => templatePiece below pos rest
  | _, _ =>
    if isWordStart b then .ok (.lexeme .word (rest.takeWhile isWordPart).length frames)
    else if Bytes.isDigit b || (b == '.' && rest.head?.any Bytes.isDigit) then
      let hex := b == '0' && (rest.head? == some 'x' || rest.head? == some 'X')
      .ok (.lexeme .number (numberExtent hex b rest) frames)
    else if b = '/' ∧ last.all (Token.allowsPattern elements) then
      match patternExtent false rest with
      | .ok n => .ok (.lexeme .pattern n frames)
      | .error n => faultAt .openPattern pos (1 + n)
    else if b = '.' ∧ Bytes.startsWith rest ".." then .ok (.lexeme .mark 2 frames)
    else .ok (.lexeme .mark 0 (framesAfter b frames))

/-- The tokens of the text that begins at offset `pos`, after the token `last`;
`onNewLine` tells whether a line feed was passed since.  At the end every
substitution must be closed. -/
def Token.scanFrom (elements : Bool) (last : Option Token) (frames : List Frame)
    (onNewLine : Bool) (pos : Nat) (text : Bytes) : Except Failure (List Token) :=
  match text with
  | [] =>
    match frames.findSome? fun
      | .block => none
      | .substitution part => some part with
    | none => .ok []
    | some part => .error ⟨.openTemplate, .ofOffsets part pos⟩
  | b :: rest => do
    match ← Piece.first elements last frames pos b rest with
    | .gap extra breaks =>
      scanFrom elements last frames (onNewLine || breaks) (pos + 1 + extra) (rest.drop extra)
    | .lexeme kind extra frames =>
      let token : Token :=
        ⟨kind, b :: rest.take extra, .ofOffsets pos (pos + 1 + extra), onNewLine⟩
      let tokens ← scanFrom elements (some token) frames false (pos + 1 + extra) (rest.drop extra)
      return token :: tokens
termination_by text.length
decreasing_by all_goals simp only [List.length_drop, List.length_cons]; omega

/-- The tokens of a text.  A first line that begins with `#!` is not part of
the script. -/
def Token.scan (elements : Bool) (text : Bytes) : Except Failure (List Token) :=
  let skipped := if Bytes.startsWith text "#!" then (text.takeWhile (!Bytes.isLineFeed ·)).length else 0
  scanFrom elements none [] false skipped (text.drop skipped)

end ScriptLint
