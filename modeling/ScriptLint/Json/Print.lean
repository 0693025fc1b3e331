/-
Printing JSON.

Values are printed over several lines, indented by two blanks for each level.
Only quotes, backslashes and control characters are escaped in strings.
-/
import ScriptLint.Json

namespace ScriptLint.JsonValue

/-- A digit of a hexadecimal number, in lower case. -/
def hexDigit (n : UInt8) : UInt8 := if n < 10 then n + 48 else n + 87

/-- A byte inside a string. -/
def escape (b : UInt8) : Bytes :=
  if b == '"' then "\\\""
  else if b == '\\' then "\\\\"
  else if b == 8 then "\\b"
  else if b == 12 then "\\f"
  else if b == 10 then "\\n"
  else if b == 13 then "\\r"
  else if b == 9 then "\\t"
  else if b < 0x20 then "\\u00" ++ [hexDigit (b / 16), hexDigit (b % 16)]
  else [b]

/-- A string in quotes. -/
def quote (text : Bytes) : Bytes := "\"" ++ text.flatMap escape ++ "\""

/-- A line break and the blanks at the beginning of a line. -/
def newLine (level : Nat) : Bytes := ('\n' : UInt8) :: List.replicate (2 * level) ' '

/-- Lines between brackets, or the brackets alone if there are none. -/
def bracketed (opener closer : Bytes) (level : Nat) (lines : List Bytes) : Bytes :=
  if lines = [] then opener ++ closer
  else
    opener ++ newLine (level + 1) ++ Bytes.join ("," ++ newLine (level + 1)) lines ++
      newLine level ++ closer

mutual

/-- The lines of a value at a level of indentation. -/
def printAt (level : Nat) : JsonValue → Bytes
  | null => "null"
  | bool b => if b then "true" else "false"
  | natural n => Bytes.decimal n
  | number text => text
  | string text => quote text
  | array items => bracketed "[" "]" level (printItems (level + 1) items)
  | object members => bracketed "\x7b" "\x7d" level (printMembers (level + 1) members)

/-- The lines of the items of an array. -/
def printItems (level : Nat) : List JsonValue → List Bytes
  | [] => []
  | item :: rest => printAt level item :: printItems level rest

/-- The lines of the members of an object. -/
def printMembers (level : Nat) : List (Bytes × JsonValue) → List Bytes
  | [] => []
  | (key, value) :: rest => (quote key ++ ": " ++ printAt level value) :: printMembers level rest

end

/-- A value as text. -/
def print (value : JsonValue) : Bytes := printAt 0 value

end ScriptLint.JsonValue
