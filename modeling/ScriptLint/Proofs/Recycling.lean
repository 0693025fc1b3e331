/-
Tasks in a recycled arena.

A task makes requests; then the arena is reset, and the task is done again.  The first time
some blocks are reserved for it, and the second time they are there from the beginning, behind
the blocks that the arena had.  So what is shown of one request is that it makes no difference
whether the block that is reserved for it is there before: no block in front of it has room,
and it has room for the request as long as nothing is given out of it.

* **`Arena.Request.Fair`** — a request for which a block that is reserved is large enough;
* **`Arena.allocate_eq`** — what a request gives, told by the arena with what is reserved for it;
* **`Arena.serve_extend`** — requests to an arena with the blocks that they would reserve;
* **`Arena.repeats_steady`** — a task that is repeated gives the same places in the same arena.
-/
import Mathlib.Algebra.Group.Nat.Defs
import Mathlib.Tactic.Common
import ScriptLint.Arena

namespace ScriptLint

namespace Arena

/-! ### Padding -/

/-- How many bytes are skipped to come to an aligned address. -/
def padding (value alignment : UInt64) : UInt64 :=
  alignment - 1 - ((value + alignment - 1) &&& (alignment - 1))

/-- Clearing the bits of a mask takes away what they are worth. -/
theorem and_not_eq_sub (word mask : UInt64) : word &&& ~~~mask = word - (word &&& mask) := by
  have hdisjoint : (word.toBitVec &&& ~~~mask.toBitVec) &&& (word.toBitVec &&& mask.toBitVec) =
      0#64 := by
    ext i hi
    simp
    grind
  have hjoin : (word.toBitVec &&& ~~~mask.toBitVec) ||| (word.toBitVec &&& mask.toBitVec) =
      word.toBitVec := by
    ext i hi
    simp
    grind
  have hadd : (word &&& ~~~mask) + (word &&& mask) = word := by
    apply UInt64.toBitVec_inj.mp
    rw [UInt64.toBitVec_add, UInt64.toBitVec_and, UInt64.toBitVec_and, UInt64.toBitVec_not,
      BitVec.add_eq_or_of_and_eq_zero _ _ hdisjoint, hjoin]
  grind

theorem alignUp_eq (value alignment : UInt64) :
    alignUp value alignment = value + padding value alignment := by
  rw [alignUp, and_not_eq_sub, padding]
  grind

theorem padding_lt {alignment : UInt64} (value : UInt64) (h : 0 < alignment) :
    padding value alignment < alignment := by
  have hmask : (value + alignment - 1) &&& (alignment - 1) ≤ alignment - 1 := by
    rw [UInt64.le_iff_toNat_le, UInt64.toNat_and]
    exact Nat.and_le_right
  unfold padding
  grind

theorem Block.nextOffset_eq (b : Block) (alignment : UInt64) :
    b.nextOffset alignment = b.used + padding (b.base + b.used) alignment := by
  rw [Block.nextOffset, alignUp_eq]
  grind

/-! ### Requests -/

/-- How many bytes are asked for, and of what their address is a multiple. -/
structure Request where
  bytes : UInt64
  alignment : UInt64
  deriving DecidableEq, Repr

/-- How many bytes are given out for a request. -/
def Request.size (r : Request) : UInt64 := max r.bytes 1

/-- A request for which a block that is reserved is large enough: what is given out, together
with the alignment, is a number of 64 bits. -/
structure Request.Fair (r : Request) : Prop where
  positive : 0 < r.alignment
  fits : r.size.toNat + r.alignment.toNat < 2 ^ 64

variable {a : Arena} {r : Request} {i : Nat} {bases : Nat → UInt64}

/-- More blocks behind those of an arena. -/
def extend (a : Arena) (more : List Block) : Arena := { a with blocks := a.blocks ++ more }

theorem extend_nil (a : Arena) : a.extend [] = a := by simp [extend]

theorem extend_append (a : Arena) (more rest : List Block) :
    a.extend (more ++ rest) = (a.extend more).extend rest := by simp [extend]

theorem exists_hasRoom {n alignment : UInt64} (h : a.roomFor? n alignment = some i) :
    ∃ b, a.blocks[i]? = some b ∧ b.hasRoom n alignment := by
  obtain ⟨k, hk, rfl⟩ := Option.map_eq_some_iff.mp h
  obtain ⟨hlt, hroom, -⟩ := List.findIdx?_eq_some_iff_getElem.mp hk
  refine ⟨_, ?_, hroom⟩
  rw [← List.getElem?_eq_getElem hlt, List.getElem?_drop, Nat.add_comm]

theorem lt_of_roomFor? {n alignment : UInt64} (h : a.roomFor? n alignment = some i) :
    i < a.blocks.length := by
  obtain ⟨b, hb, -⟩ := exists_hasRoom h
  exact (List.getElem?_eq_some_iff.mp hb).1

/-- A request goes into a block that was there, if one of them has room. -/
theorem roomFor?_extend (hcurrent : a.current ≤ a.blocks.length) (n alignment : UInt64)
    (more : List Block) : (a.extend more).roomFor? n alignment =
      (a.roomFor? n alignment).or
        ((more.findIdx? fun b => b.hasRoom n alignment).map (· + a.blocks.length)) := by
  have hlength : a.blocks.length - a.current + a.current = a.blocks.length :=
    Nat.sub_add_cancel hcurrent
  simp only [roomFor?, extend, List.drop_append_of_le_length hcurrent, List.findIdx?_append,
    Option.map_or, Option.map_map, List.length_drop, Function.comp_def, Nat.add_assoc, hlength]

/-- Gives out bytes for a request from one of the blocks. -/
def giveOut (a : Arena) (i : Nat) (r : Request) : Place × Arena :=
  let offset := ((a.blocks[i]?).map fun b => b.nextOffset r.alignment).getD 0
  (⟨i, offset⟩,
    { a with blocks := a.blocks.modify i fun b => b.giveOut offset r.size, current := i })

theorem giveOut_extend (hi : i < a.blocks.length) (r : Request) (more : List Block) :
    (a.extend more).giveOut i r = ((a.giveOut i r).1, (a.giveOut i r).2.extend more) := by
  have hlonger : i < (a.blocks ++ more).length := by
    rw [List.length_append]
    omega
  have hmodify (f : Block → Block) :
      (a.blocks ++ more).modify i f = a.blocks.modify i f ++ more := by
    rw [List.modify_eq_take_cons_drop hlonger, List.modify_eq_take_cons_drop hi,
      List.take_append_of_le_length (Nat.le_of_lt hi), List.drop_append_of_le_length hi,
      List.getElem_append_left hi, List.append_assoc, List.cons_append]
  simp only [giveOut, extend, hmodify, List.getElem?_append_left hi]

/-- Whatever is given out, resetting takes it back. -/
theorem reset_giveOut (a : Arena) (i : Nat) (r : Request) : (a.giveOut i r).2.reset = a.reset := by
  have hblocks (offset : UInt64) :
      (a.blocks.modify i fun b => b.giveOut offset r.size).map (fun b => { b with used := 0 }) =
        a.blocks.map fun b => { b with used := 0 } := by
    refine List.ext_getElem? fun j => ?_
    rw [List.getElem?_map, List.getElem?_map, List.getElem?_modify]
    cases a.blocks[j]? <;> grind [Block.giveOut]
  simp only [giveOut, reset, hblocks]

/-- The blocks that are reserved for a request: one, or none if there is room for it. -/
def reserved (bases : Nat → UInt64) (a : Arena) (r : Request) : List Block :=
  if (a.roomFor? r.size r.alignment).isSome then []
  else [a.newBlock bases (r.size + r.alignment)]

theorem allocate_of_room (h : a.roomFor? r.size r.alignment = some i) :
    a.allocate bases r.bytes r.alignment = a.giveOut i r := by
  have h : a.roomFor? (max r.bytes 1) r.alignment = some i := h
  simp only [allocate, h, giveOut, Request.size]

/-- **What a request gives** it gives from the arena with the block that is reserved for it. -/
theorem allocate_eq (bases : Nat → UInt64) (a : Arena) (r : Request) :
    a.allocate bases r.bytes r.alignment = (a.extend (a.reserved bases r)).giveOut
      ((a.roomFor? r.size r.alignment).getD a.blocks.length) r := by
  unfold reserved
  cases hroom : a.roomFor? r.size r.alignment with
  | some i => rw [Option.isSome_some, if_pos rfl, extend_nil, allocate_of_room hroom]; rfl
  | none =>
    -- the block that is reserved is the last one, and the request goes into it
    have hlast (b : Block) (f : Block → Block) :
        (a.blocks ++ [b]).modify a.blocks.length f = a.blocks ++ [f b] := by
      rw [List.modify_eq_take_cons_drop (by simp)]
      simp
    have hroom : a.roomFor? (max r.bytes 1) r.alignment = none := hroom
    rw [Option.isSome_none, if_neg Bool.false_ne_true, Option.getD_none]
    simp only [allocate, hroom, giveOut, extend, Request.size, hlast,
      List.getElem?_concat_length, Option.map_some, Option.getD_some]

/-- A block that is reserved for a request has room for it. -/
theorem hasRoom_newBlock (hfair : r.Fair) (a : Arena) (bases : Nat → UInt64) :
    (a.newBlock bases (r.size + r.alignment)).hasRoom r.size r.alignment := by
  have hfits := hfair.fits
  have hpadding := UInt64.lt_iff_toNat_lt.mp
    (padding_lt (bases a.blocks.length + 0) hfair.positive)
  refine decide_eq_true (UInt64.le_iff_toNat_le.mpr ?_)
  rw [Block.nextOffset_eq]
  simp only [newBlock, UInt64.toNat_add, UInt64.toNat_max, UInt64.toNat_zero]
  omega

/-- In that arena the request would go into the same block. -/
theorem roomFor?_provided (hcurrent : a.current ≤ a.blocks.length) (hfair : r.Fair)
    (bases : Nat → UInt64) :
    (a.extend (a.reserved bases r)).roomFor? r.size r.alignment =
      some ((a.roomFor? r.size r.alignment).getD a.blocks.length) := by
  unfold reserved
  cases hroom : a.roomFor? r.size r.alignment with
  | some i => rw [Option.isSome_some, if_pos rfl, extend_nil, hroom, Option.getD_some]
  | none =>
    rw [Option.isSome_none, if_neg Bool.false_ne_true, roomFor?_extend hcurrent, hroom,
      Option.none_or, List.findIdx?_singleton, if_pos (hasRoom_newBlock hfair a bases),
      Option.map_some, Nat.zero_add, Option.getD_none]

/-- A block that would be reserved for a request can be there before, and more behind it. -/
theorem allocate_extend (hcurrent : a.current ≤ a.blocks.length) (hfair : r.Fair)
    (bases bases' : Nat → UInt64) (more : List Block) :
    (a.extend (a.reserved bases r ++ more)).allocate bases' r.bytes r.alignment =
      ((a.allocate bases r.bytes r.alignment).1,
        (a.allocate bases r.bytes r.alignment).2.extend more) := by
  have hroom := roomFor?_provided hcurrent hfair bases
  have hcurrent : (a.extend (a.reserved bases r)).current ≤
      (a.extend (a.reserved bases r)).blocks.length := by
    simp only [extend, List.length_append]
    omega
  have hmore : ((a.extend (a.reserved bases r)).extend more).roomFor? r.size r.alignment =
      some ((a.roomFor? r.size r.alignment).getD a.blocks.length) := by
    rw [roomFor?_extend hcurrent, hroom, Option.some_or]
  rw [extend_append, allocate_of_room hmore, giveOut_extend (lt_of_roomFor? hroom), allocate_eq]

theorem current_lt_allocate (hcurrent : a.current ≤ a.blocks.length) (hfair : r.Fair)
    (bases : Nat → UInt64) : (a.allocate bases r.bytes r.alignment).2.current <
      (a.allocate bases r.bytes r.alignment).2.blocks.length := by
  rw [allocate_eq]
  simpa only [giveOut, List.length_modify] using
    lt_of_roomFor? (roomFor?_provided hcurrent hfair bases)

/-- Nothing is given out of a block that is reserved. -/
theorem reserved_emptied (bases : Nat → UInt64) (a : Arena) (r : Request) :
    (a.reserved bases r).map (fun b => { b with used := 0 }) = a.reserved bases r := by
  unfold reserved
  split <;> rfl

/-- What is reserved for a request is kept when the arena is reset. -/
theorem reset_allocate (bases : Nat → UInt64) (a : Arena) (r : Request) :
    (a.allocate bases r.bytes r.alignment).2.reset = a.reset.extend (a.reserved bases r) := by
  rw [allocate_eq, reset_giveOut, reset, extend, List.map_append, reserved_emptied]
  rfl

/-! ### Tasks -/

/-- Meets some requests, one after the other. -/
def serve (bases : Nat → UInt64) (a : Arena) : List Request → List Place × Arena
  | [] => ([], a)
  | r :: rest =>
    let (place, a) := a.allocate bases r.bytes r.alignment
    let (places, a) := a.serve bases rest
    (place :: places, a)

/-- The blocks that are reserved while some requests are met. -/
def added (bases : Nat → UInt64) (a : Arena) : List Request → List Block
  | [] => []
  | r :: rest => a.reserved bases r ++ (a.allocate bases r.bytes r.alignment).2.added bases rest

variable {requests : List Request}

/-- **Blocks that would be reserved for some requests** can be there before. -/
theorem serve_extend (hcurrent : a.current ≤ a.blocks.length) (hfair : ∀ r ∈ requests, r.Fair)
    (bases bases' : Nat → UInt64) :
    (a.extend (a.added bases requests)).serve bases' requests = a.serve bases requests := by
  induction requests generalizing a with
  | nil => rw [added, extend_nil, serve, serve]
  | cons r rest ih =>
    obtain ⟨hfirst, hrest⟩ := List.forall_mem_cons.mp hfair
    have hcurrent' := current_lt_allocate hcurrent hfirst bases
    -- what the other requests would reserve stands behind the block for this one
    rw [added, serve, serve, allocate_extend hcurrent hfirst]
    dsimp only
    rw [ih (Nat.le_of_lt hcurrent') hrest]

/-- They are kept when the arena is reset. -/
theorem reset_serve (bases : Nat → UInt64) (a : Arena) (requests : List Request) :
    (a.serve bases requests).2.reset = a.reset.extend (a.added bases requests) := by
  induction requests generalizing a with
  | nil => rw [added, extend_nil, serve]
  | cons r rest ih =>
    rw [added, serve, extend_append, ← reset_allocate]
    exact ih _

/-- A task in an arena that is reset before. -/
def recycle (bases : Nat → UInt64) (a : Arena) (requests : List Request) : List Place × Arena :=
  a.reset.serve bases requests

/-- The second time, a task gives the same places, and leaves the same arena. -/
theorem recycle_recycle (hfair : ∀ r ∈ requests, r.Fair) (a : Arena) (bases bases' : Nat → UInt64) :
    (a.recycle bases requests).2.recycle bases' requests = a.recycle bases requests := by
  have hreset : a.reset.reset = a.reset := by simp [reset]
  have hcurrent : a.reset.current ≤ a.reset.blocks.length := Nat.zero_le _
  rw [recycle, recycle, reset_serve, hreset]
  exact serve_extend hcurrent hfair bases bases'

/-- **A task that is repeated reaches a steady state at once.** Whatever was given out of an arena
before, and wherever new blocks would begin, each repetition after a reset gives the same places,
and so the same addresses, and leaves the same arena: no block is added to it. -/
theorem repeats_steady (a : Arena) (bases : Nat → UInt64) (requests : List Request)
    (hfair : ∀ r ∈ requests, r.Fair) (again : List (Nat → UInt64)) :
    again.foldl (fun done bases' => done.2.recycle bases' requests) (a.recycle bases requests) =
      a.recycle bases requests := by
  induction again with
  | nil => rfl
  | cons bases' rest ih => rw [List.foldl_cons, recycle_recycle hfair, ih]

/-- A task that needs a block of its own size, in an arena that was used before. -/
theorem repeats_steady_oversized :
    let bases := fun n : Nat => 4096 * (n.toUInt64 + 1)
    let a := (({ blockSize := 64 } : Arena).allocate bases 40 8).2
    let requests : List Request := [⟨48, 8⟩, ⟨500, 16⟩, ⟨0, 1⟩]
    (∀ r ∈ requests, r.Fair) ∧ (a.recycle bases requests).2.blocks.length = 2 ∧
      [bases, fun _ => 0].foldl (fun done bases' => done.2.recycle bases' requests)
        (a.recycle bases requests) = a.recycle bases requests := by
  have hfair : ∀ r ∈ [(⟨48, 8⟩ : Request), ⟨500, 16⟩, ⟨0, 1⟩], r.Fair := by
    simp only [List.forall_mem_cons, List.not_mem_nil, false_implies, implies_true, and_true]
    exact ⟨⟨by decide, by decide⟩, ⟨by decide, by decide⟩, by decide, by decide⟩
  exact ⟨hfair, by decide, repeats_steady _ _ _ hfair _⟩

/-- A request whose bytes and alignment are together no number of 64 bits is met by a block
that is too small for it, so there is no room for the same request after a reset: repeating it
adds a block. -/
theorem recycle_adds_block :
    let bases := fun n : Nat => 4096 * (n.toUInt64 + 1)
    let requests : List Request := [⟨18446744073709551615, 1⟩]
    let first := ({ blockSize := 64 } : Arena).recycle bases requests
    let again := first.2.recycle bases requests
    first.2.blocks.length = 1 ∧ again.2.blocks.length = 2 ∧ again.1 ≠ first.1 ∧
      first.2.reservedBytes < again.2.reservedBytes := by
  decide

end Arena

end ScriptLint
