/-
Byte ranges.

A span is a half-open range of byte offsets.  Offsets are 32-bit words, so
moving a span by an offset and taking its size wrap around.
-/
import ScriptLint.Bytes

namespace ScriptLint

/-- The half-open byte range from `start` to `stop`. -/
structure Span where
  start : UInt32
  stop : UInt32
  deriving DecidableEq, Inhabited, Repr

namespace Span

/-- The range between two offsets, each reduced to 32 bits. -/
def ofOffsets (start stop : Nat) : Span := ⟨start.toUInt32, stop.toUInt32⟩

/-- The empty range at the beginning. -/
def zero : Span := ⟨0, 0⟩

/-- The number of bytes in the range. -/
def size (s : Span) : UInt32 := s.stop - s.start

/-- No byte lies in the range. -/
def isEmpty (s : Span) : Bool := s.start == s.stop

/-- Each range starts before the other one stops. -/
def overlaps (a b : Span) : Bool := a.start < b.stop && b.start < a.stop

/-- The range moved up by an offset. -/
def shifted (s : Span) (offset : UInt32) : Span := ⟨s.start + offset, s.stop + offset⟩

/-- The range moved down by an offset. -/
def unshifted (s : Span) (offset : UInt32) : Span := ⟨s.start - offset, s.stop - offset⟩

/-- The text that the range covers. -/
def cut (s : Span) (text : Bytes) : Bytes :=
  text.slice s.start.toNat (s.stop.toNat - s.start.toNat)

@[simp] theorem unshifted_shifted (s : Span) (offset : UInt32) :
    (s.shifted offset).unshifted offset = s := by
  simp [shifted, unshifted]

@[simp] theorem shifted_unshifted (s : Span) (offset : UInt32) :
    (s.unshifted offset).shifted offset = s := by
  simp [shifted, unshifted]

@[simp] theorem shifted_zero (s : Span) : s.shifted 0 = s := by
  simp [shifted]

end Span

end ScriptLint
