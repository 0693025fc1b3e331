/-
JSON values.

Objects keep their members in ascending order of the keys.  A number without
sign, fraction and exponent that fits 64 bits is a natural number; any other
number is kept as it is written.
-/
import ScriptLint.Table

namespace ScriptLint

/-- A JSON value. -/
inductive JsonValue where
  | null
  | bool (b : Bool)
  | natural (n : Nat)
  | number (text : Bytes)
  | string (text : Bytes)
  | array (items : List JsonValue)
  | object (members : List (Bytes × JsonValue))
  deriving Inhabited, Repr

namespace JsonValue

/-- The member of a key. -/
def member? (key : Bytes) : JsonValue → Option JsonValue
  | object members => Table.find? key members
  | _ => none

/-- An optional value; none is null. -/
def ofOption {α : Type} (f : α → JsonValue) : Option α → JsonValue
  | none => null
  | some a => f a

/-- The object with the given members; of equal keys the last one counts. -/
def ofMembers (members : List (Bytes × JsonValue)) : JsonValue := object (Table.ofList members)

end JsonValue

end ScriptLint
