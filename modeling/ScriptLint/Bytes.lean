/-
Texts as byte sequences.

Files, paths, names and messages are arbitrary bytes, not necessarily valid
UTF-8, and every offset counts bytes.  A text is a list of bytes; literals are
written as Lean strings and stand for their UTF-8 bytes:

* **`Bytes.ofString`** — the bytes of a literal, also as a coercion;
* **`Bytes.decimal`** — the decimal digits of a number;
* **`Bytes.splitOn`**, **`Bytes.lines`** — cutting a text at a separator;
* **`Bytes.find?`** — the offset of the first occurrence of a text.
-/

namespace ScriptLint

/-- A text: any sequence of bytes. -/
abbrev Bytes := List UInt8

/-- An ASCII character literal stands for its byte. -/
instance coeCharByte : Coe Char UInt8 := ⟨Char.toUInt8⟩

namespace Bytes

/-- The UTF-8 bytes of a string. -/
def ofString (s : String) : Bytes := s.toByteArray.data.toList

instance : Coe String Bytes := ⟨ofString⟩

/-- Texts are compared byte by byte. -/
instance lawfulBEq : LawfulBEq Bytes := inferInstance

/-- The decimal digits of a number. -/
def decimal (n : Nat) : Bytes := (Nat.toDigits 10 n).map Char.toUInt8

/-- `'0'` to `'9'`. -/
def isDigit (b : UInt8) : Bool := '0' ≤ b && b ≤ '9'

/-- The byte that ends a line. -/
def isLineFeed (b : UInt8) : Bool := b == '\n'

/-- An upper-case ASCII letter becomes lower case, every other byte stays. -/
def toLower (b : UInt8) : UInt8 := if 'A' ≤ b && b ≤ 'Z' then b + 32 else b

/-- Space, tab, line feed, vertical tab, form feed and carriage return. -/
def isSpace (b : UInt8) : Bool := b == ' ' || (9 ≤ b && b ≤ 13)

/-- Whether a text begins with another one. -/
def startsWith (text start : Bytes) : Bool := start.isPrefixOf text

/-- Whether a text ends with another one. -/
def endsWith (text tail : Bytes) : Bool := tail.isSuffixOf text

/-- The offset at which `pattern` first occurs. -/
def find? (pattern : Bytes) : Bytes → Option Nat
  | [] => if pattern = [] then some 0 else none
  | b :: rest => if startsWith (b :: rest) pattern then some 0 else (find? pattern rest).map (· + 1)

/-- The fields between the occurrences of a separator byte. -/
def splitOn (separator : UInt8) : Bytes → List Bytes
  | [] => [[]]
  | b :: rest =>
    if b = separator then [] :: splitOn separator rest
    else match splitOn separator rest with
      | [] => [[b]]
      | field :: fields => (b :: field) :: fields

/-- The lines of a text: a line feed ends a line, and what follows the last
one is a line only if it is not empty. -/
def lines (text : Bytes) : List Bytes :=
  let fields := splitOn '\n' text
  if fields.getLast? = some [] then fields.dropLast else fields

/-- A text without the blanks at both of its ends, for a class of blanks. -/
def trim (blank : UInt8 → Bool) (text : Bytes) : Bytes :=
  ((text.dropWhile blank).reverse.dropWhile blank).reverse

/-- The text from an offset on, of at most the given length. -/
def slice (text : Bytes) (start length : Nat) : Bytes := (text.drop start).take length

/-- Texts joined with a separator between them. -/
def join (separator : Bytes) : List Bytes → Bytes
  | [] => []
  | [text] => text
  | text :: rest => text ++ separator ++ join separator rest

theorem splitOn_ne_nil (separator : UInt8) (text : Bytes) : splitOn separator text ≠ [] := by
  cases text with
  | nil => simp [splitOn]
  | cons b rest =>
    rw [splitOn]
    split
    · simp
    · split <;> simp

/-- Joining the fields with the separator gives the text back. -/
theorem join_splitOn (separator : UInt8) (text : Bytes) :
    join [separator] (splitOn separator text) = text := by
  induction text with
  | nil => rfl
  | cons b rest ih =>
    have hne := splitOn_ne_nil separator rest
    rw [splitOn]
    cases hs : splitOn separator rest with
    | nil => exact absurd hs hne
    | cons field fields =>
      rw [hs] at ih
      split
      · rename_i hb
        simp [join, ih, hb]
      · cases fields with
        | nil => simpa [join] using ih
        | cons f fs => simpa [join] using ih

end Bytes

end ScriptLint
