/-
Memory that is given out and taken back as a whole.

An arena hands out pieces of blocks from front to back.  A request goes into
the current block or, if it does not fit there, into the next one in which it
does; a new block is reserved when there is none.  Resetting empties all blocks
and keeps them.  Addresses and sizes are 64-bit words.
-/
import ScriptLint.Bytes

namespace ScriptLint

namespace Arena

/-- A reserved block: its first address, its size, how much of it is given
out, and the texts written into it, the last one first. -/
structure Block where
  base : UInt64
  size : UInt64
  used : UInt64 := 0
  writes : List (Nat × Bytes) := []
  deriving DecidableEq, Inhabited, Repr

/-- A place in a block. -/
structure Place where
  block : Nat
  offset : UInt64
  deriving DecidableEq, Inhabited, Repr

/-- The least multiple of a power of two that is not below a value. -/
def alignUp (value alignment : UInt64) : UInt64 := (value + alignment - 1) &&& ~~~(alignment - 1)

/-- The first offset in the free part of a block whose address is aligned. -/
def Block.nextOffset (b : Block) (alignment : UInt64) : UInt64 :=
  alignUp (b.base + b.used) alignment - b.base

/-- The free part of a block has room for a request. -/
def Block.hasRoom (b : Block) (request alignment : UInt64) : Bool :=
  b.nextOffset alignment + request ≤ b.size

/-- The block with a request given out at an offset. -/
def Block.giveOut (b : Block) (offset request : UInt64) : Block := { b with used := offset + request }

/-- The byte at an offset of a block, zero if none was written. -/
def Block.byte (b : Block) (offset : Nat) : UInt8 :=
  (b.writes.findSome? fun (start, text) =>
    if start ≤ offset then text[offset - start]? else none).getD 0

end Arena

/-- Blocks in the order in which they were reserved. -/
structure Arena where
  blockSize : UInt64
  blocks : List Arena.Block := []
  current : Nat := 0
  deriving DecidableEq, Inhabited, Repr

namespace Arena

/-- The block into which a request goes, looked for from the current one on. -/
def roomFor? (a : Arena) (request alignment : UInt64) : Option Nat :=
  ((a.blocks.drop a.current).findIdx? fun b => b.hasRoom request alignment).map (· + a.current)

/-- A new block that is large enough, at an address chosen by `bases`. -/
def newBlock (a : Arena) (bases : Nat → UInt64) (least : UInt64) : Block :=
  { base := bases a.blocks.length, size := max a.blockSize least }

/-- Gives out a number of bytes, at least one, at an aligned address.  The
function `bases` tells where a new block begins. -/
def allocate (a : Arena) (bases : Nat → UInt64) (bytes alignment : UInt64) : Place × Arena :=
  let request := max bytes 1
  match a.roomFor? request alignment with
  | some i =>
    let offset := ((a.blocks[i]?).map fun b => b.nextOffset alignment).getD 0
    (⟨i, offset⟩,
      { a with blocks := a.blocks.modify i fun b => b.giveOut offset request, current := i })
  | none =>
    let b := a.newBlock bases (request + alignment)
    let offset := b.nextOffset alignment
    (⟨a.blocks.length, offset⟩,
      { a with blocks := a.blocks ++ [b.giveOut offset request], current := a.blocks.length })

/-- A text written at a place. -/
def write (a : Arena) (place : Place) (text : Bytes) : Arena :=
  { a with blocks := a.blocks.modify place.block fun b =>
      { b with writes := (place.offset.toNat, text) :: b.writes } }

/-- Gives out room for a text and writes it there.  The empty text needs none. -/
def copy (a : Arena) (bases : Nat → UInt64) (text : Bytes) : Option Place × Arena :=
  if text = [] then (none, a)
  else
    let (place, a) := a.allocate bases text.length.toUInt64 1
    (some place, a.write place text)

/-- The bytes at a place. -/
def read (a : Arena) (place : Place) (length : Nat) : Bytes :=
  match a.blocks[place.block]? with
  | none => []
  | some b => (List.range length).map fun k => b.byte (place.offset.toNat + k)

/-- All blocks empty again. -/
def reset (a : Arena) : Arena :=
  { a with blocks := a.blocks.map (fun b => { b with used := 0 }), current := 0 }

/-- The bytes given out since the last reset, with those skipped between them. -/
def usedBytes (a : Arena) : UInt64 := a.blocks.foldl (fun n b => n + b.used) 0

/-- The bytes of all blocks. -/
def reservedBytes (a : Arena) : UInt64 := a.blocks.foldl (fun n b => n + b.size) 0

end Arena

end ScriptLint
