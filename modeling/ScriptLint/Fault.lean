/-
What can be wrong with a script text.

Each fault is a cause; its wording is `Fault.message`.  A `Failure` is a fault
at a place.
-/
import ScriptLint.Span

namespace ScriptLint

/-- The reasons for which a text is refused. -/
inductive Fault where
  | openComment
  | openString
  | openTemplate
  | openPattern
  | unexpected (closer : Bytes)
  | mismatched (closer expected : UInt8)
  | unclosed (opener : Bytes)
  | malformedImport
  | malformedExport
  | unsupportedExtension (extension : Bytes)
  | openScriptTag
  | openScriptBlock
  deriving DecidableEq, Inhabited, Repr

/-- The wording of a fault. -/
def Fault.message : Fault → Bytes
  | .openComment => "Unterminated comment"
  | .openString => "Unterminated string literal"
  | .openTemplate => "Unterminated template literal"
  | .openPattern => "Unterminated regular expression"
  | .unexpected closer => "Unexpected '" ++ closer ++ "'"
  | .mismatched closer expected => "Mismatched '" ++ [closer] ++ "', expected '" ++ [expected] ++ "'"
  | .unclosed opener => "Unclosed '" ++ opener ++ "'"
  | .malformedImport => "Malformed import declaration"
  | .malformedExport => "Malformed export declaration"
  | .unsupportedExtension extension => "Unsupported script extension '" ++ extension ++ "'"
  | .openScriptTag => "Unterminated <script> tag"
  | .openScriptBlock => "Unterminated <script> block"

/-- A fault and the bytes that it is about. -/
structure Failure where
  fault : Fault
  span : Span
  deriving DecidableEq, Inhabited, Repr

end ScriptLint
