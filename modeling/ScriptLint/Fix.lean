/-
Replacing parts of a text.

A fix replaces the bytes of a span by a text.  Fixes are tried in the order of
their spans; one whose span is inverted, ends behind the text, or begins before
the last replaced byte is skipped.
-/
import ScriptLint.Span

namespace ScriptLint

/-- A span and the text to put in its place. -/
structure Fix where
  span : Span
  content : Bytes
  deriving DecidableEq, Inhabited, Repr

/-- The text after the fixes, and the positions in the list of those that were
applied and of those that were skipped. -/
structure FixResult where
  output : Bytes
  applied : List Nat
  skipped : List Nat
  deriving DecidableEq, Inhabited, Repr

namespace Fix

/-- The order in which fixes are tried: by start, then by end; of equal spans
the one proposed first. -/
def tryOrder (fixes : List Fix) : List (Fix × Nat) :=
  fixes.zipIdx.mergeSort fun a b =>
    a.1.span.start < b.1.span.start ||
      (a.1.span.start == b.1.span.start && a.1.span.stop ≤ b.1.span.stop)

/-- The span can be replaced in a text of the given length of which the first
`cursor` bytes are settled. -/
def fits (length cursor : Nat) (f : Fix) : Bool :=
  f.span.start ≤ f.span.stop && f.span.stop.toNat ≤ length && cursor ≤ f.span.start.toNat

/-- Applies fixes to the text from the offset `cursor` on. -/
def applyFrom (source : Bytes) (cursor : Nat) : List (Fix × Nat) → FixResult
  | [] => ⟨source.drop cursor, [], []⟩
  | (f, i) :: rest =>
    if f.fits source.length cursor then
      let r := applyFrom source f.span.stop.toNat rest
      { r with
        output := source.slice cursor (f.span.start.toNat - cursor) ++ f.content ++ r.output
        applied := i :: r.applied }
    else
      let r := applyFrom source cursor rest
      { r with skipped := i :: r.skipped }

/-- Applies all fixes that fit. -/
def apply (source : Bytes) (fixes : List Fix) : FixResult :=
  let r := applyFrom source 0 (tryOrder fixes)
  { r with applied := r.applied.mergeSort, skipped := r.skipped.mergeSort }

end Fix

/-- Some fix was applied. -/
def FixResult.changed (r : FixResult) : Bool := !r.applied.isEmpty

end ScriptLint
