/-
The scripts in a file.

A script file is one segment.  A markup file has a segment for the contents of
each `<script>` element, with the offset at which the contents begin:

* **`OpenTag.parse`** — the attributes of an opening tag up to its `>`;
* **`Segment.ofMarkup`** — the script elements of a markup text, outside of
  comments;
* **`FileForm.split`** — the segments of a file of a form.
-/
import ScriptLint.Fault
import ScriptLint.Dialect
import ScriptLint.Statement.Parse

namespace ScriptLint

/-- A script inside a file. -/
structure Segment where
  text : Bytes
  offset : UInt32
  dialect : Dialect
  deriving DecidableEq, Inhabited, Repr

/-- The statements of a segment.  The place of a fault is one of the file. -/
def Segment.parse (s : Segment) : Except Failure Script :=
  match Script.parse s.dialect s.text with
  | .ok script => .ok script
  | .error f => .error ⟨f.fault, f.span.shifted s.offset⟩

/-- What the opening tag of a script element says.  `length` counts the bytes
after `<script` up to the end of the tag. -/
structure OpenTag where
  length : Nat
  selfClosing : Bool
  language : Option Bytes
  deriving DecidableEq, Inhabited, Repr

namespace OpenTag

/-- The end of an element's opening or closing tag. -/
def isTagEnd (b : UInt8) : Bool := b == '>'

/-- A byte of an attribute's name. -/
def isNameByte (b : UInt8) : Bool := b != '=' && !isTagEnd b && !Bytes.isSpace b

/-- A byte of an attribute's value without quotes. -/
def isValueByte (b : UInt8) : Bool := !isTagEnd b && !Bytes.isSpace b

/-- The value of an attribute from the equals sign on, and how many bytes it
takes; an open quotation has none. -/
def value : Bytes → Option (Bytes × Nat)
  | [] => some ([], 0)
  | b :: rest =>
    if b != '=' then some ([], 0)
    else
      let plain := rest.takeWhile isValueByte
      match rest with
      | [] => some ([], 1)
      | quote :: rest =>
        if quote == '"' || quote == '\'' then
          let quoted := rest.takeWhile (· != quote)
          if quoted.length = rest.length then none else some (quoted, quoted.length + 3)
        else some (plain, plain.length + 1)

/-- The tag with more bytes before its end. -/
def grow (n : Nat) (tag : OpenTag) : OpenTag := { tag with length := tag.length + n }

/-- Reads the attributes up to the end of the tag; `before` is the byte before
the text.  Nothing if the tag does not end. -/
def parseFrom (before : UInt8) (language : Option Bytes) (text : Bytes) : Option OpenTag :=
  match text with
  | [] => none
  | b :: rest =>
    if isTagEnd b then some ⟨1, before == '/', language⟩
    else if Bytes.isSpace b || b == '/' then (parseFrom b language rest).map (grow 1)
    else
      let name := (b :: rest).takeWhile isNameByte
      match value ((b :: rest).drop name.length) with
      | none => none
      | some (value, taken) =>
        let extra := name.length + taken - 1
        let last := ((b :: rest.take extra).getLast?).getD b
        let language := if name = "lang" then some value else language
        (parseFrom last language (rest.drop extra)).map (grow (extra + 1))
termination_by text.length
decreasing_by all_goals simp only [List.length_drop, List.length_cons]; omega

/-- The opening tag whose text after `<script` is given. -/
def parse (text : Bytes) : Option OpenTag := parseFrom 't' none text

end OpenTag

/-- The flavour that the language of a script element stands for. -/
def Dialect.ofLanguage (language : Option Bytes) : Dialect :=
  if language = some "ts" then ⟨true, false⟩
  else if language = some "tsx" then ⟨true, true⟩
  else if language = some "jsx" then ⟨false, true⟩
  else ⟨false, false⟩

/-- The offset at which a lower-case text first occurs in any letter case. -/
def Bytes.findFolded? (pattern text : Bytes) : Option Nat :=
  Bytes.find? pattern (text.map Bytes.toLower)

/-- What may follow the name of an element in a tag. -/
def endsTagName (b : UInt8) : Bool := OpenTag.isTagEnd b || b == '/' || Bytes.isSpace b

theorem Bytes.ne_nil_of_findFolded? {pattern text : Bytes} {n : Nat} (hp : pattern ≠ [])
    (h : Bytes.findFolded? pattern text = some n) : 0 < text.length := by
  cases text with
  | nil => simp [Bytes.findFolded?, Bytes.find?, hp] at h
  | cons b rest => simp

/-- The script elements of the markup text that begins at offset `pos`. -/
def Segment.ofMarkupFrom (pos : Nat) (text : Bytes) : Except Failure (List Segment) :=
  match htag : Bytes.findFolded? "<script" text with
  | none => .ok []
  | some tag =>
    have : 0 < text.length := Bytes.ne_nil_of_findFolded? (by decide) htag
    match (Bytes.find? "<!--" text).filter (· < tag) with
    | some comment =>
      match Bytes.find? "-->" (text.drop (comment + 4)) with
      | none => .ok []
      | some n => ofMarkupFrom (pos + (comment + n + 7)) (text.drop (comment + n + 7))
    | none =>
      let heading := text.drop (tag + 7)
      if heading.head?.any (!endsTagName ·) then ofMarkupFrom (pos + (tag + 7)) heading
      else match OpenTag.parse heading with
        | none => .error ⟨.openScriptTag, .ofOffsets (pos + tag) (pos + text.length)⟩
        | some opening =>
          let start := tag + 7 + opening.length
          if opening.selfClosing then ofMarkupFrom (pos + start) (text.drop start)
          else match Bytes.findFolded? "</script" (text.drop start) with
            | none => .error ⟨.openScriptBlock, .ofOffsets (pos + tag) (pos + start)⟩
            | some length => do
              let closing := text.drop (start + length)
              let next := start + length + (closing.takeWhile (!OpenTag.isTagEnd ·)).length + 1
              let rest ← ofMarkupFrom (pos + next) (text.drop next)
              return ⟨text.slice start length, (pos + start).toUInt32,
                .ofLanguage opening.language⟩ :: rest
termination_by text.length
decreasing_by all_goals simp only [List.length_drop]; omega

/-- The script elements of a markup text. -/
def Segment.ofMarkup (text : Bytes) : Except Failure (List Segment) := ofMarkupFrom 0 text

/-- A script file as one segment, in the flavour of its extension. -/
def Segment.ofScript (extension text : Bytes) : Except Failure (List Segment) :=
  match Dialect.ofExtension? extension with
  | some dialect => .ok [⟨text, 0, dialect⟩]
  | none => .error ⟨.unsupportedExtension extension, .zero⟩

/-- How scripts are kept in a file. -/
inductive FileForm where
  | script | markup
  deriving DecidableEq, Inhabited, Repr

/-- The segments of a file. -/
def FileForm.split (form : FileForm) (extension text : Bytes) : Except Failure (List Segment) :=
  match form with
  | .script => Segment.ofScript extension text
  | .markup => Segment.ofMarkup text

end ScriptLint
