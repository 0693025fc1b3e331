/-
Language flavours of a script.

Scripts are JavaScript or TypeScript, with or without elements in angle
brackets.  The file extension decides; JavaScript files may always contain
elements, so that as many files as possible can be read.
-/
import ScriptLint.Bytes

namespace ScriptLint

/-- The language of a script, and whether `<` may begin an element. -/
structure Dialect where
  typed : Bool := false
  elements : Bool := false
  deriving DecidableEq, Inhabited, Repr

/-- The flavour that a file extension stands for. -/
def Dialect.ofExtension? (extension : Bytes) : Option Dialect :=
  if extension ∈ ([".js", ".mjs", ".cjs", ".jsx"] : List Bytes) then some ⟨false, true⟩
  else if extension ∈ ([".ts", ".mts", ".cts"] : List Bytes) then some ⟨true, false⟩
  else if extension = ".tsx" then some ⟨true, true⟩
  else none

end ScriptLint
