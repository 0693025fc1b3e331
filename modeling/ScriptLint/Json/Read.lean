/-
Reading JSON.

A text is one value between blanks.  A byte order mark at the beginning is
skipped.  Strings must be valid UTF-8 without control characters, and escaped
surrogates must come in pairs:

* **`Utf8.length?`** — the length of the character at the beginning of a text;
* **`JsonValue.readString`** — the contents of a string;
* **`JsonValue.parse`** — the value that a text stands for.
-/
import ScriptLint.Json

namespace ScriptLint

namespace Utf8

/-- A byte between two others. -/
def inRange (low high b : UInt8) : Bool := low ≤ b && b ≤ high

/-- A byte that continues a character. -/
def isContinuation (b : UInt8) : Bool := inRange 0x80 0xbf b

/-- The number of bytes of the character at the beginning of a text: shortest
forms only, no surrogates, nothing above U+10FFFF. -/
def length? : Bytes → Option Nat
  | [] => none
  | a :: rest =>
    if a < 0x80 then some 1
    else match rest with
    | b :: rest =>
      if inRange 0xc2 0xdf a then if isContinuation b then some 2 else none
      else match rest with
      | c :: rest =>
        let low : UInt8 := if a = 0xe0 then 0xa0 else if a = 0xf0 then 0x90 else 0x80
        let high : UInt8 := if a = 0xed then 0x9f else if a = 0xf4 then 0x8f else 0xbf
        if inRange 0xe0 0xef a then
          if inRange low high b && isContinuation c then some 3 else none
        else if inRange 0xf0 0xf4 a then
          match rest with
          | d :: _ =>
            if inRange low high b && isContinuation c && isContinuation d then some 4 else none
          | [] => none
        else none
      | [] => none
    | [] => none

/-- The bytes of a code point. -/
def encode (n : Nat) : Bytes :=
  if n < 0x80 then [n.toUInt8]
  else if n < 0x800 then [(0xc0 + n / 64).toUInt8, (0x80 + n % 64).toUInt8]
  else if n < 0x10000 then
    [(0xe0 + n / 4096).toUInt8, (0x80 + n / 64 % 64).toUInt8, (0x80 + n % 64).toUInt8]
  else
    [(0xf0 + n / 262144).toUInt8, (0x80 + n / 4096 % 64).toUInt8, (0x80 + n / 64 % 64).toUInt8,
      (0x80 + n % 64).toUInt8]

end Utf8

namespace JsonValue

/-- Space, tab, line feed and carriage return. -/
def isBlank (b : UInt8) : Bool := b == ' ' || b == '\t' || b == '\n' || b == '\r'

/-- The text without the blanks at its beginning. -/
def skipBlanks (text : Bytes) : Bytes := text.dropWhile isBlank

/-- The value of a hexadecimal digit. -/
def hexDigit? (b : UInt8) : Option Nat :=
  if '0' ≤ b && b ≤ '9' then some (b.toNat - 48)
  else if 'a' ≤ b && b ≤ 'f' then some (b.toNat - 87)
  else if 'A' ≤ b && b ≤ 'F' then some (b.toNat - 55)
  else none

/-- The value of four hexadecimal digits, and the text after them. -/
def readUnit : Bytes → Option (Nat × Bytes)
  | a :: b :: c :: d :: rest => do
    let a ← hexDigit? a
    let b ← hexDigit? b
    let c ← hexDigit? c
    let d ← hexDigit? d
    return (((a * 16 + b) * 16 + c) * 16 + d, rest)
  | _ => none

/-- The code point that follows `\u`, and the text after it. -/
def readCodePoint (text : Bytes) : Option (Nat × Bytes) := do
  let (high, rest) ← readUnit text
  if high < 0xd800 ∨ 0xdfff < high then return (high, rest)
  else if 0xdbff < high then none
  else match rest with
    | b :: c :: rest =>
      if b == '\\' && c == 'u' then do
        let (low, rest) ← readUnit rest
        if low < 0xdc00 ∨ 0xdfff < low then none
        else return (0x10000 + (high - 0xd800) * 1024 + (low - 0xdc00), rest)
      else none
    | _ => none

/-- The byte that a backslash and a letter stand for. -/
def simpleEscape? (b : UInt8) : Option UInt8 :=
  if b == '"' || b == '\\' || b == '/' then some b
  else if b == 'b' then some 8
  else if b == 'f' then some 12
  else if b == 'n' then some 10
  else if b == 'r' then some 13
  else if b == 't' then some 9
  else none

/-- The contents of a string up to its closing quote, and the text after it.
Every step takes at least one byte, so the length of the text is fuel enough. -/
def readStringFrom : Nat → Bytes → Option (Bytes × Bytes)
  | 0, _ => none
  | _, [] => none
  | fuel + 1, b :: rest =>
    if b == '"' then some ([], rest)
    else if b == '\\' then
      match rest with
      | [] => none
      | c :: rest =>
        if c == 'u' then do
          let (point, rest) ← readCodePoint rest
          let (contents, rest) ← readStringFrom fuel rest
          return (Utf8.encode point ++ contents, rest)
        else do
          let byte ← simpleEscape? c
          let (contents, rest) ← readStringFrom fuel rest
          return (byte :: contents, rest)
    else if b < 0x20 then none
    else do
      let length ← Utf8.length? (b :: rest)
      let (contents, rest') ← readStringFrom fuel ((b :: rest).drop length)
      return ((b :: rest).take length ++ contents, rest')

/-- The contents of a string whose opening quote was read, and the text after
it. -/
def readString (text : Bytes) : Option (Bytes × Bytes) := readStringFrom (text.length + 1) text

/-- One or more digits, and the text after them. -/
def readDigits (text : Bytes) : Option (Bytes × Bytes) :=
  let digits := text.takeWhile Bytes.isDigit
  if digits = [] then none else some (digits, text.drop digits.length)

/-- The digits before the point: no zero before other digits. -/
def readInteger (text : Bytes) : Option (Bytes × Bytes) :=
  if text.head? = some '0' then some (['0'], text.drop 1) else readDigits text

/-- A point and the digits after it, if there is a point. -/
def readFraction (text : Bytes) : Option (Bytes × Bytes) :=
  if text.head? = some '.' then
    (readDigits text.tail).map fun (digits, rest) => (('.' : UInt8) :: digits, rest)
  else some ([], text)

/-- An exponent, if there is one. -/
def readExponent (text : Bytes) : Option (Bytes × Bytes) :=
  match text with
  | [] => some ([], [])
  | e :: rest =>
    if e == 'e' || e == 'E' then
      let sign := if rest.head? = some '+' ∨ rest.head? = some '-' then rest.take 1 else []
      (readDigits (rest.drop sign.length)).map fun (digits, rest) => (e :: sign ++ digits, rest)
    else some ([], text)

/-- The number that digits stand for. -/
def ofDigits (digits : Bytes) : Nat :=
  digits.foldl (fun n b => n * 10 + (b.toNat - 48)) 0

/-- A number, and the text after it. -/
def readNumber (text : Bytes) : Option (JsonValue × Bytes) := do
  let sign : Bytes := if text.head? = some '-' then ['-'] else []
  let (whole, rest) ← readInteger (text.drop sign.length)
  let (fraction, rest) ← readFraction rest
  let (exponent, rest) ← readExponent rest
  if sign = [] ∧ fraction = [] ∧ exponent = [] ∧ ofDigits whole < UInt64.size then
    return (natural (ofDigits whole), rest)
  else return (number (sign ++ whole ++ fraction ++ exponent), rest)

/-- A word that stands for a value, and the text after it. -/
def readWord (text : Bytes) : Option (JsonValue × Bytes) :=
  if Bytes.startsWith text "null" then some (null, text.drop 4)
  else if Bytes.startsWith text "true" then some (bool true, text.drop 4)
  else if Bytes.startsWith text "false" then some (bool false, text.drop 5)
  else none

/-- What comes after a value in a list: another one, or the end. -/
def readSeparator (close : UInt8) (text : Bytes) : Option (Bool × Bytes) :=
  match skipBlanks text with
  | [] => none
  | b :: rest => if b == ',' then some (true, rest) else if b == close then some (false, rest) else none

mutual

/-- A value after blanks, and the text after it. -/
def readValue (fuel : Nat) (text : Bytes) : Option (JsonValue × Bytes) :=
  match fuel with
  | 0 => none
  | fuel + 1 =>
    match skipBlanks text with
    | [] => none
    | b :: rest =>
      if b == '"' then (readString rest).map fun (contents, rest) => (string contents, rest)
      else if b == '[' then
        match skipBlanks rest with
        | c :: after =>
          if c == ']' then some (array [], after)
          else (readItems fuel (c :: after)).map fun (items, rest) => (array items, rest)
        | [] => none
      else if b == '{' then
        match skipBlanks rest with
        | c :: after =>
          if c == '}' then some (object [], after)
          else (readMembers fuel (c :: after)).map fun (members, rest) => (ofMembers members, rest)
        | [] => none
      else if b == '-' || Bytes.isDigit b then readNumber (b :: rest)
      else readWord (b :: rest)

/-- The items of an array, and the text after its end. -/
def readItems (fuel : Nat) (text : Bytes) : Option (List JsonValue × Bytes) :=
  match fuel with
  | 0 => none
  | fuel + 1 => do
    let (item, rest) ← readValue fuel text
    match ← readSeparator ']' rest with
    | (false, rest) => return ([item], rest)
    | (true, rest) => do
      let (items, rest) ← readItems fuel rest
      return (item :: items, rest)

/-- The members of an object, and the text after its end. -/
def readMembers (fuel : Nat) (text : Bytes) : Option (List (Bytes × JsonValue) × Bytes) :=
  match fuel with
  | 0 => none
  | fuel + 1 =>
    match skipBlanks text with
    | [] => none
    | b :: rest =>
      if b != '"' then none
      else do
        let (key, rest) ← readString rest
        match skipBlanks rest with
        | [] => none
        | c :: rest =>
          if c != ':' then none
          else do
            let (value, rest) ← readValue fuel rest
            match ← readSeparator '}' rest with
            | (false, rest) => return ([(key, value)], rest)
            | (true, rest) => do
              let (members, rest) ← readMembers fuel rest
              return ((key, value) :: members, rest)

end

/-- The text without a byte order mark. -/
def skipMark (text : Bytes) : Bytes :=
  if Bytes.startsWith text [0xef, 0xbb, 0xbf] then text.drop 3 else text

/-- The value that a whole text stands for. -/
def parse (text : Bytes) : Option JsonValue := do
  let text := skipMark text
  let (value, rest) ← readValue (text.length + 1) text
  if skipBlanks rest = [] then return value else none

end JsonValue

end ScriptLint
