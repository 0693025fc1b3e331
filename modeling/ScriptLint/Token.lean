/-
Lexemes of a script.

A token is a piece of text with its place, and whether a line feed stands
between it and the token before.  The word lists here are the whole of what
later stages know about the language's vocabulary.
-/
import ScriptLint.Span

namespace ScriptLint

/-- The classes of lexemes.  A template literal is cut at its substitutions:
each part is a token of its own. -/
inductive Token.Kind where
  | word | string | template | number | pattern | mark
  deriving DecidableEq, Inhabited, Repr

/-- A lexeme. -/
structure Token where
  kind : Token.Kind
  text : Bytes
  span : Span
  onNewLine : Bool := false
  deriving DecidableEq, Inhabited, Repr

namespace Token

/-- The text between the quotes of a string literal. -/
def value (t : Token) : Bytes := t.text.tail.dropLast

/-- A name as a specifier spells it: the contents of a string literal, and
otherwise the text. -/
def spelling (t : Token) : Bytes := if t.kind = .string then t.value else t.text

/-- Words that cannot name a binding. -/
def reserved : List Bytes := List.map Bytes.ofString
  ["abstract", "as", "async", "await", "break", "case", "catch", "class", "const", "continue",
   "debugger", "declare", "default", "delete", "do", "else", "enum", "export", "extends", "false",
   "finally", "for", "from", "function", "get", "if", "implements", "import", "in", "infer",
   "instanceof", "interface", "is", "keyof", "let", "namespace", "new", "null", "of", "private",
   "protected", "public", "readonly", "return", "satisfies", "set", "static", "super", "switch",
   "this", "throw", "true", "try", "type", "typeof", "var", "void", "while", "with", "yield"]

/-- Words after which an operand is expected. -/
def operandWords : List Bytes :=
  ["return", "typeof", "instanceof", "in", "of", "new", "delete", "void", "throw", "case", "do",
   "else", "yield", "await", "extends"]

/-- Words that continue the line before rather than begin a statement. -/
def continuingWords : List Bytes :=
  ["in", "of", "instanceof", "as", "satisfies", "extends", "implements", "else", "catch",
   "finally", "while"]

/-- Words that want something after them although no operand. -/
def declaringWords : List Bytes :=
  ["export", "import", "const", "let", "var", "function", "class", "async"]

/-- The marks that close a bracket. -/
def closers : List Bytes := [")", "]", "\x7d"]

/-- The marks that open a bracket. -/
def openers : List Bytes := ["(", "[", "\x7b"]

/-- The token is the given word or mark. -/
def isText (t : Token) (text : Bytes) : Bool :=
  (t.kind = .word || t.kind = .mark) && t.text == text

/-- A template part that is followed by a substitution. -/
def opensSubstitution (t : Token) : Bool := Bytes.endsWith t.text "$\x7b"

/-- An expression may end with the token. -/
def endsExpression (t : Token) : Bool :=
  match t.kind with
  | .mark => t.text ∈ closers
  | .word => t.text ∉ operandWords && t.text ∉ declaringWords
  | .template => !t.opensSubstitution
  | _ => true

/-- A statement may begin with the token, on a new line after the end of an
expression. -/
def startsStatement (t : Token) : Bool :=
  match t.kind with
  | .word => t.text ∉ continuingWords
  | .number | .string => true
  | _ => false

/-- After the token a slash begins a regular expression rather than divides.
Where elements are allowed, `<` is followed by a closing tag. -/
def allowsPattern (elements : Bool) (t : Token) : Bool :=
  match t.kind with
  | .mark => !(elements && t.text == "<") && t.text ∉ closers
  | .word => t.text ∈ operandWords
  | .template => t.opensSubstitution
  | _ => false

end Token

end ScriptLint
