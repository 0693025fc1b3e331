/-
Pieces of an arena.

What is given out for a request is a piece of one block.  In an arena that requests and resets
lead to, no block is used behind its end, and a piece ends in the used part of its block, so the
next one comes behind it.  There is one thing to be careful about: whether a block has room is
tested with the sum of an offset and a size, and where that sum is no number of 64 bits, the test
is passed by a piece that does not fit, and the block counts as nearly empty afterwards.  So what
is kept about the ends of pieces is kept as long as their ends are numbers of 64 bits.

* **`Arena.Placed`** — blocks that stand in memory, none of them over another;
* **`Arena.Account`** — an arena, with the pieces that are given out since the last reset;
* **`Arena.Account.Sound`** — what is kept: by a request in `Sound.allocate`, by a reset in
  `sound_reset`, and so by all of them in `run_sound`;
* **`Arena.Account.Safe`** — what that says about the addresses of the pieces;
* **`Arena.Account.run_safe`** — every arena that requests and resets lead to is safe.
-/
import Mathlib.Algebra.Order.BigOperators.Group.List
import Mathlib.Algebra.Order.Ring.Nat
import Mathlib.Data.List.Infix
import Mathlib.Data.List.Nodup
import Mathlib.Data.List.Perm.Subperm
import ScriptLint.Proofs.Recycling

namespace ScriptLint

namespace Arena

/-! ### Blocks in memory -/

/-- Two ranges of addresses, by their first addresses and their lengths, have none in common. -/
def Apart (first length first' length' : Nat) : Prop :=
  first + length ≤ first' ∨ first' + length' ≤ first

instance (first length first' length' : Nat) : Decidable (Apart first length first' length') :=
  inferInstanceAs (Decidable (_ ∨ _))

/-- Where the blocks of an arena begin, and their sizes. -/
def extents (a : Arena) : List (Nat × Nat) :=
  a.blocks.map fun b => (b.base.toNat, b.size.toNat)

/-- The blocks of an arena stand in memory: none of them at the null address or over the last
address, and none over another. -/
structure Placed (a : Arena) : Prop where
  nonnull : ∀ e ∈ a.extents, 0 < e.1
  inside : ∀ e ∈ a.extents, e.1 + e.2 ≤ 2 ^ 64
  apart : a.extents.Pairwise fun e e' => Apart e.1 e.2 e'.1 e'.2

variable {a a' : Arena} {b : Block} {r : Request} {bases : Nat → UInt64}

theorem Placed.mono (h : a'.Placed) (hbegins : a.extents <+: a'.extents) : a.Placed :=
  ⟨fun e he => h.nonnull e (hbegins.subset he), fun e he => h.inside e (hbegins.subset he),
    h.apart.sublist hbegins.sublist⟩

theorem extents_reset (a : Arena) : a.reset.extents = a.extents := by
  rw [extents, reset, List.map_map]
  rfl

theorem extents_giveOut (a : Arena) (i : Nat) (r : Request) :
    (a.giveOut i r).2.extents = a.extents := by
  rw [← extents_reset, reset_giveOut, extents_reset]

theorem extents_allocate (bases : Nat → UInt64) (a : Arena) (r : Request) :
    (a.allocate bases r.bytes r.alignment).2.extents =
      (a.extend (a.reserved bases r)).extents := by
  rw [allocate_eq, extents_giveOut]

/-- No block is given up when there are more. -/
theorem extents_extend (a : Arena) (more : List Block) : a.extents <+: (a.extend more).extents := by
  rw [extents, extents, extend, List.map_append]
  exact List.prefix_append _ _

theorem mem_extents {i : Nat} (h : a.blocks[i]? = some b) :
    (b.base.toNat, b.size.toNat) ∈ a.extents :=
  List.mem_map.mpr ⟨b, List.mem_of_getElem? h, rfl⟩

/-- Different blocks are apart. -/
theorem Placed.apart_of_ne (h : a.Placed) {i j : Nat} {c : Block} (hi : a.blocks[i]? = some b)
    (hj : a.blocks[j]? = some c) (hne : i ≠ j) :
    Apart b.base.toNat b.size.toNat c.base.toNat c.size.toNat := by
  have hall := List.pairwise_iff_getElem.mp (List.pairwise_map.mp h.apart)
  obtain ⟨hilt, rfl⟩ := List.getElem?_eq_some_iff.mp hi
  obtain ⟨hjlt, rfl⟩ := List.getElem?_eq_some_iff.mp hj
  rcases Nat.lt_or_gt_of_ne hne with hlt | hlt
  · exact hall i j hilt hjlt hlt
  · exact (hall j i hjlt hilt hlt).symm

/-- All blocks together are smaller than the memory. -/
theorem Placed.sum_lt (h : a.Placed) : (a.blocks.map fun b => b.size.toNat).sum < 2 ^ 64 := by
  have hnodup : (a.extents.flatMap fun e => List.range' e.1 e.2).Nodup := by
    refine List.nodup_flatMap.mpr
      ⟨fun e _ => List.nodup_range', h.apart.imp fun hapart n hn hn' => ?_⟩
    rw [List.mem_range'_1] at hn hn'
    unfold Apart at hapart
    omega
  have hsubset : (a.extents.flatMap fun e => List.range' e.1 e.2) ⊆ List.range' 1 (2 ^ 64 - 1) := by
    intro n hn
    obtain ⟨e, he, hn⟩ := List.mem_flatMap.mp hn
    have hnonnull := h.nonnull e he
    have hinside := h.inside e he
    rw [List.mem_range'_1] at hn ⊢
    omega
  have hlength := (hnodup.subperm hsubset).length_le
  rw [List.length_flatMap, List.length_range', extents, List.map_map] at hlength
  simp only [Function.comp_def, List.length_range'] at hlength
  omega

/-! ### Sums of words -/

theorem toNat_foldl_add (f : Block → UInt64) (blocks : List Block) (start : UInt64) :
    (blocks.foldl (fun n b => n + f b) start).toNat =
      (start.toNat + (blocks.map fun b => (f b).toNat).sum) % 2 ^ 64 := by
  induction blocks generalizing start with
  | nil => simp
  | cons b rest ih =>
    rw [List.foldl_cons, ih, UInt64.toNat_add, List.map_cons, List.sum_cons]
    omega

/-- What is used of blocks in memory is no more than their sizes. -/
theorem Placed.usedBytes_le (h : a.Placed) (hused : ∀ b ∈ a.blocks, b.used ≤ b.size) :
    a.usedBytes ≤ a.reservedBytes := by
  have hsum := h.sum_lt
  have hle : (a.blocks.map fun b => b.used.toNat).sum ≤ (a.blocks.map fun b => b.size.toNat).sum :=
    List.sum_le_sum fun b hb => UInt64.le_iff_toNat_le.mp (hused b hb)
  rw [UInt64.le_iff_toNat_le, usedBytes, reservedBytes, toNat_foldl_add, toNat_foldl_add,
    UInt64.toNat_zero]
  omega

theorem usedBytes_reset (a : Arena) : a.reset.usedBytes = 0 := by
  rw [← UInt64.toNat_inj, usedBytes, toNat_foldl_add, reset, List.map_map]
  simp [Function.comp_def]

/-! ### Aligned addresses -/

theorem pos_of_power {alignment : UInt64} (hpower : ∃ k, alignment.toNat = 2 ^ k) :
    0 < alignment := by
  obtain ⟨k, hk⟩ := hpower
  rw [UInt64.lt_iff_toNat_lt, hk]
  exact Nat.two_pow_pos k

/-- A power of two that is a word divides the number of words. -/
theorem dvd_of_power {alignment : UInt64} (hpower : ∃ k, alignment.toNat = 2 ^ k) :
    alignment.toNat ∣ 2 ^ 64 := by
  obtain ⟨k, hk⟩ := hpower
  have hlt : 2 ^ k < 2 ^ 64 := hk ▸ alignment.toNat_lt
  rw [hk]
  exact Nat.pow_dvd_pow 2 (Nat.le_of_lt ((Nat.pow_lt_pow_iff_right (by decide)).mp hlt))

theorem dvd_add_padding {alignment : UInt64} (hpower : ∃ k, alignment.toNat = 2 ^ k)
    (value : UInt64) : alignment.toNat ∣ value.toNat + (padding value alignment).toNat := by
  have hwords := dvd_of_power hpower
  obtain ⟨k, hk⟩ := hpower
  have hmask : (alignment - 1).toNat = 2 ^ k - 1 := by
    have hone : 1 ≤ alignment := UInt64.le_iff_toNat_le.mpr (hk ▸ Nat.two_pow_pos k)
    rw [UInt64.toNat_sub_of_le _ _ hone, hk, UInt64.toNat_one]
  have hlow (word : UInt64) : (word &&& (alignment - 1)).toNat = word.toNat % 2 ^ k := by
    rw [UInt64.toNat_and, hmask, Nat.and_two_pow_sub_one_eq_mod]
  have hup : alignment.toNat ∣ (alignUp value alignment).toNat := by
    have hle : (value + alignment - 1) &&& (alignment - 1) ≤ value + alignment - 1 := by
      rw [UInt64.le_iff_toNat_le, hlow]
      exact Nat.mod_le _ _
    rw [alignUp, and_not_eq_sub, UInt64.toNat_sub_of_le _ _ hle, hlow, hk]
    exact Nat.dvd_sub_mod _
  rwa [alignUp_eq, UInt64.toNat_add, Nat.dvd_mod_iff hwords] at hup

/-- **The next aligned offset** of a block that stands in memory. -/
theorem Block.nextOffset_aligned {alignment : UInt64} (hpower : ∃ k, alignment.toNat = 2 ^ k)
    (hnonnull : 0 < b.base.toNat) (hinside : b.base.toNat + b.size.toNat ≤ 2 ^ 64)
    (hused : b.used ≤ b.size) :
    b.used.toNat ≤ (b.nextOffset alignment).toNat ∧
      (b.nextOffset alignment).toNat < b.used.toNat + alignment.toNat ∧
      alignment.toNat ∣ b.base.toNat + (b.nextOffset alignment).toNat := by
  have hwords := dvd_of_power hpower
  have hlt := UInt64.lt_iff_toNat_lt.mp (padding_lt (b.base + b.used) (pos_of_power hpower))
  have hdvd := dvd_add_padding hpower (b.base + b.used)
  rw [UInt64.le_iff_toNat_le] at hused
  rw [Block.nextOffset_eq]
  generalize padding (b.base + b.used) alignment = skipped at hlt hdvd ⊢
  -- the address is a multiple also when the sum of words wraps
  have haddress : alignment.toNat ∣ b.base.toNat + b.used.toNat + skipped.toNat := by
    rwa [UInt64.toNat_add, ← Nat.dvd_mod_iff hwords, Nat.mod_add_mod,
      Nat.dvd_mod_iff hwords] at hdvd
  have hbound : b.base.toNat + b.used.toNat + skipped.toNat ≤ 2 ^ 64 := by
    -- the next multiple behind the number of words is a whole alignment away
    by_contra hover
    have hbeyond := Nat.le_of_dvd (by omega) (Nat.dvd_sub haddress hwords)
    omega
  have hoffset : (b.used + skipped).toNat = b.used.toNat + skipped.toNat := by
    rw [UInt64.toNat_add]
    omega
  rw [hoffset, ← Nat.add_assoc]
  exact ⟨by omega, by omega, haddress⟩

/-! ### Pieces -/

/-- A request with a power of two as its alignment, whose bytes and alignment are together a
number of 64 bits. -/
structure Request.Legal (r : Request) : Prop where
  power : ∃ k, r.alignment.toNat = 2 ^ k
  fits : r.bytes.toNat + r.alignment.toNat < 2 ^ 64

theorem Request.toNat_size (r : Request) : r.size.toNat = max r.bytes.toNat 1 := by
  rw [Request.size, UInt64.toNat_max, UInt64.toNat_one]

theorem Request.Legal.fair (h : r.Legal) : r.Fair := by
  have hfits := h.fits
  obtain ⟨k, hk⟩ := h.power
  have hk64 : k < 64 := (Nat.pow_lt_pow_iff_right (by decide)).mp (hk ▸ r.alignment.toNat_lt)
  -- a request for no bytes takes one, for which the largest power of two leaves room
  have hhalf : 2 ^ k ≤ 2 ^ 63 := Nat.pow_le_pow_right (by decide) (Nat.le_of_lt_succ hk64)
  refine ⟨pos_of_power h.power, ?_⟩
  rw [r.toNat_size]
  omega

/-- Bytes that were given out: where, and for which request. -/
structure Piece where
  place : Place
  request : Request
  deriving DecidableEq, Repr

namespace Piece

/-- The offset at which a piece ends. -/
def stop (p : Piece) : Nat := p.place.offset.toNat + p.request.size.toNat

/-- The end of a piece is a number of 64 bits. -/
def Measured (p : Piece) : Prop := p.stop < 2 ^ 64

instance (p : Piece) : Decidable p.Measured := inferInstanceAs (Decidable (_ < _))

/-- A piece of a block.  Its address is a multiple of what was asked for; it lies inside of the
block if its end is a number of 64 bits, which it is if the sizes are small enough. -/
structure CutFrom (p : Piece) (b : Block) : Prop where
  aligned : p.request.alignment.toNat ∣ b.base.toNat + p.place.offset.toNat
  inside : p.stop ≤ b.size.toNat ↔ p.Measured
  measured : b.size.toNat + p.request.size.toNat + p.request.alignment.toNat ≤ 2 ^ 64 → p.Measured

/-- What is given out of a block that stands in memory, and has room, is a piece of it. -/
theorem cutFrom_nextOffset (hlegal : r.Legal) (hnonnull : 0 < b.base.toNat)
    (hinside : b.base.toNat + b.size.toNat ≤ 2 ^ 64) (hused : b.used ≤ b.size)
    (hroom : b.hasRoom r.size r.alignment) (i : Nat) :
    CutFrom ⟨⟨i, b.nextOffset r.alignment⟩, r⟩ b := by
  obtain ⟨-, hnear, haligned⟩ := b.nextOffset_aligned hlegal.power hnonnull hinside hused
  have hfits : b.nextOffset r.alignment + r.size ≤ b.size := of_decide_eq_true hroom
  have hsize := b.size.toNat_lt
  rw [UInt64.le_iff_toNat_le] at hused hfits
  rw [UInt64.toNat_add] at hfits
  refine ⟨haligned, ?_, ?_⟩
  · simp only [stop, Measured]
    omega
  · simp only [stop, Measured]
    omega

end Piece

/-- The address of a place. -/
def address (a : Arena) (place : Place) : Nat :=
  ((a.blocks[place.block]?).map fun b => b.base.toNat).getD 0 + place.offset.toNat

theorem address_eq {place : Place} (hb : a.blocks[place.block]? = some b) :
    a.address place = b.base.toNat + place.offset.toNat := by
  rw [address, hb, Option.map_some, Option.getD_some]

/-- An arena, and the pieces that were given out since the last reset, the last one first. -/
structure Account where
  arena : Arena
  pieces : List Piece := []

namespace Account

/-- What can be done with an arena. -/
inductive Op where
  | allocate (r : Request)
  | reset
  deriving DecidableEq, Repr

/-- The account after something was done. -/
def perform (bases : Nat → UInt64) (s : Account) : Op → Account
  | .allocate r =>
    let (place, arena) := s.arena.allocate bases r.bytes r.alignment
    ⟨arena, ⟨place, r⟩ :: s.pieces⟩
  | .reset => ⟨s.arena.reset, []⟩

/-- The account after all that was done with an arena. -/
def run (bases : Nat → UInt64) (blockSize : UInt64) (ops : List Op) : Account :=
  ops.foldl (perform bases) { arena := { blockSize } }

/-- The pieces stand in a row, those of one block one behind the other in its used part. -/
structure InRow (s : Account) : Prop where
  behind : ∀ p ∈ s.pieces, ∀ b, s.arena.blocks[p.place.block]? = some b → p.stop ≤ b.used.toNat
  ordered : s.pieces.Pairwise fun later p =>
    p.place.block = later.place.block → p.stop ≤ later.place.offset.toNat

/-- What requests and resets keep. -/
structure Sound (s : Account) : Prop where
  current : s.arena.current ≤ s.arena.blocks.length
  used : ∀ b ∈ s.arena.blocks, b.used ≤ b.size
  cut : ∀ p ∈ s.pieces, ∃ b, s.arena.blocks[p.place.block]? = some b ∧ p.CutFrom b
  row : (∀ p ∈ s.pieces, p.Measured) → s.InRow

variable {s : Account}

/-- The account after a piece was given out. -/
def given (s : Account) (i : Nat) (r : Request) : Account :=
  ⟨(s.arena.giveOut i r).2, ⟨(s.arena.giveOut i r).1, r⟩ :: s.pieces⟩

theorem perform_allocate (bases : Nat → UInt64) (s : Account) (r : Request) :
    s.perform bases (.allocate r) =
      given { s with arena := s.arena.extend (s.arena.reserved bases r) }
        ((s.arena.roomFor? r.size r.alignment).getD s.arena.blocks.length) r := by
  rw [perform, given, allocate_eq]

theorem sound_reset (bases : Nat → UInt64) (s : Account) : (s.perform bases .reset).Sound where
  current := Nat.zero_le _
  used b hb := by
    obtain ⟨c, -, rfl⟩ := List.mem_map.mp hb
    exact UInt64.zero_le
  cut := by simp [perform]
  row _ := ⟨by simp [perform], by simp [perform]⟩

/-- More blocks make no difference to the pieces. -/
theorem Sound.extend {more : List Block} (h : s.Sound) (hmore : ∀ b ∈ more, b.used ≤ b.size) :
    Sound { s with arena := s.arena.extend more } := by
  have hkeeps {i : Nat} {b : Block} (hb : s.arena.blocks[i]? = some b) :
      (s.arena.extend more).blocks[i]? = some b := by
    rw [Arena.extend, List.getElem?_append_left (List.getElem?_eq_some_iff.mp hb).1, hb]
  refine ⟨?_, List.forall_mem_append.mpr ⟨h.used, hmore⟩, fun p hp => ?_, fun hmeasured => ?_⟩
  · have hcurrent := h.current
    simp only [Arena.extend, List.length_append]
    omega
  · obtain ⟨b, hb, hcut⟩ := h.cut p hp
    exact ⟨b, hkeeps hb, hcut⟩
  · obtain ⟨hbehind, hordered⟩ := h.row hmeasured
    refine ⟨fun p hp b hb => ?_, hordered⟩
    obtain ⟨c, hc, -⟩ := h.cut p hp
    obtain rfl := Option.some.inj ((hkeeps hc).symm.trans hb)
    exact hbehind p hp c hc

section Given

variable {i : Nat} (hb : s.arena.blocks[i]? = some b)
include hb

theorem pieces_given :
    (s.given i r).pieces = ⟨⟨i, b.nextOffset r.alignment⟩, r⟩ :: s.pieces := by
  simp only [given, Arena.giveOut, hb, Option.map_some, Option.getD_some]

/-- Giving out a piece changes one block. -/
theorem getElem?_given (j : Nat) : (s.given i r).arena.blocks[j]? =
    if i = j then some (b.giveOut (b.nextOffset r.alignment) r.size)
    else s.arena.blocks[j]? := by
  simp only [given, Arena.giveOut, hb, Option.map_some, Option.getD_some, List.getElem?_modify]
  split
  case isTrue hij => rw [← hij, hb]; rfl
  case isFalse => exact Option.map_id'

/-- No more is used of it than its size. -/
theorem used_given (hused : ∀ b ∈ s.arena.blocks, b.used ≤ b.size)
    (hroom : b.hasRoom r.size r.alignment) :
    ∀ c ∈ (s.given i r).arena.blocks, c.used ≤ c.size := by
  intro c hc
  obtain ⟨j, hj⟩ := List.getElem?_of_mem hc
  rw [getElem?_given hb] at hj
  split at hj
  case isTrue =>
    obtain rfl := Option.some.inj hj
    exact of_decide_eq_true hroom
  case isFalse => exact hused c (List.mem_of_getElem? hj)

/-- The others are pieces of the same blocks as before. -/
theorem cut_given {p : Piece} (hcut : ∃ c, s.arena.blocks[p.place.block]? = some c ∧ p.CutFrom c) :
    ∃ c, (s.given i r).arena.blocks[p.place.block]? = some c ∧ p.CutFrom c := by
  obtain ⟨c, hc, hcut⟩ := hcut
  by_cases hij : i = p.place.block
  · obtain rfl : b = c := Option.some.inj (hb.symm.trans (hij ▸ hc))
    exact ⟨b.giveOut (b.nextOffset r.alignment) r.size, by rw [getElem?_given hb, if_pos hij],
      hcut.aligned, hcut.inside, hcut.measured⟩
  · exact ⟨c, by rw [getElem?_given hb, if_neg hij, hc], hcut⟩

/-- The new piece stands behind those of its block. -/
theorem InRow.given (h : s.InRow) (hnext : b.used.toNat ≤ (b.nextOffset r.alignment).toNat)
    (hmeasured : Piece.Measured ⟨⟨i, b.nextOffset r.alignment⟩, r⟩) : (s.given i r).InRow := by
  have hstop : ∀ p ∈ s.pieces, p.place.block = i → p.stop ≤ (b.nextOffset r.alignment).toNat :=
    fun p hp hij => Nat.le_trans (h.behind p hp b (hij ▸ hb)) hnext
  have hsum : (b.nextOffset r.alignment + r.size).toNat =
      (b.nextOffset r.alignment).toNat + r.size.toNat := by
    rw [UInt64.toNat_add]
    exact Nat.mod_eq_of_lt hmeasured
  refine ⟨fun p hp c hc => ?_, ?_⟩
  · rw [pieces_given hb] at hp
    rw [getElem?_given hb] at hc
    rcases List.mem_cons.mp hp with rfl | hp
    · -- what is used ends with the new piece, since the sum does not wrap
      rw [if_pos rfl] at hc
      obtain rfl := Option.some.inj hc
      exact Nat.le_of_eq hsum.symm
    · split at hc
      case isTrue hij =>
        have hstop := hstop p hp hij.symm
        obtain rfl := Option.some.inj hc
        change p.stop ≤ (b.nextOffset r.alignment + r.size).toNat
        omega
      case isFalse => exact h.behind p hp c hc
  · rw [pieces_given hb]
    exact List.pairwise_cons.mpr ⟨hstop, h.ordered⟩

end Given

/-- A piece is given out from a block that has room for it. -/
theorem Sound.given {i : Nat} (h : s.Sound) (hlegal : r.Legal) (hplaced : s.arena.Placed)
    (hroom : s.arena.roomFor? r.size r.alignment = some i) : (s.given i r).Sound := by
  obtain ⟨b, hb, hroom⟩ := exists_hasRoom hroom
  have hused := h.used b (List.mem_of_getElem? hb)
  have hnonnull := hplaced.nonnull _ (mem_extents hb)
  have hinside := hplaced.inside _ (mem_extents hb)
  have hcut := Piece.cutFrom_nextOffset hlegal hnonnull hinside hused hroom i
  obtain ⟨hnext, -, -⟩ := b.nextOffset_aligned hlegal.power hnonnull hinside hused
  refine ⟨?_, used_given hb h.used hroom, fun p hp => ?_, fun hmeasured => ?_⟩
  · rw [Account.given, Arena.giveOut, List.length_modify]
    exact Nat.le_of_lt (List.getElem?_eq_some_iff.mp hb).1
  · rw [pieces_given hb] at hp
    rcases List.mem_cons.mp hp with rfl | hp
    · exact ⟨b.giveOut (b.nextOffset r.alignment) r.size, by rw [getElem?_given hb, if_pos rfl],
        hcut.aligned, hcut.inside, hcut.measured⟩
    · exact cut_given hb (h.cut p hp)
  · rw [pieces_given hb] at hmeasured
    obtain ⟨hfirst, hrest⟩ := List.forall_mem_cons.mp hmeasured
    exact (h.row hrest).given hb hnext hfirst

/-- **A request** keeps an account sound, where the blocks stand in memory after it. -/
theorem Sound.allocate (h : s.Sound) (hlegal : r.Legal)
    (hplaced : (s.perform bases (.allocate r)).arena.Placed) :
    (s.perform bases (.allocate r)).Sound := by
  have hempty : ∀ b ∈ s.arena.reserved bases r, b.used ≤ b.size := by
    intro b hb
    rw [← reserved_emptied] at hb
    obtain ⟨c, -, rfl⟩ := List.mem_map.mp hb
    exact UInt64.zero_le
  have hplaced : (s.arena.extend (s.arena.reserved bases r)).Placed :=
    hplaced.mono (extents_allocate bases s.arena r ▸ List.prefix_refl _)
  rw [perform_allocate]
  exact (h.extend hempty).given hlegal hplaced
    (roomFor?_provided h.current hlegal.fair bases)

/-- The blocks that there are after something was done stood in memory before. -/
theorem placed_of_perform {op : Op} (h : (s.perform bases op).arena.Placed) :
    s.arena.Placed := by
  cases op with
  | allocate r =>
    refine h.mono ?_
    have hextents : (s.perform bases (.allocate r)).arena.extents = _ :=
      extents_allocate bases s.arena r
    rw [hextents]
    exact extents_extend _ _
  | reset =>
    refine h.mono ?_
    have hextents : (s.perform bases .reset).arena.extents = _ := extents_reset s.arena
    rw [hextents]

/-- **Every arena that requests and resets lead to** is sound. -/
theorem run_sound {blockSize : UInt64} {ops : List Op}
    (hlegal : ∀ r, .allocate r ∈ ops → r.Legal)
    (hplaced : (run bases blockSize ops).arena.Placed) : (run bases blockSize ops).Sound := by
  -- the last thing that was done is taken off: the blocks stood in memory before it as well
  induction ops using List.reverseRecOn with
  | nil => exact ⟨Nat.le_refl 0, by simp [run], by simp [run], fun _ => ⟨by simp [run], .nil⟩⟩
  | append_singleton ops op ih =>
    rw [run, List.foldl_concat] at hplaced ⊢
    have h := ih (fun r hr => hlegal r (List.mem_append_left _ hr)) (placed_of_perform hplaced)
    cases op with
    | allocate r => exact h.allocate (hlegal r (List.mem_append_right _ (.head _))) hplaced
    | reset => exact sound_reset bases _

/-! ### Addresses -/

/-- Two pieces of an arena have no address in common. -/
def PiecesApart (a : Arena) (p q : Piece) : Prop :=
  Apart (a.address p.place) p.request.size.toNat (a.address q.place) q.request.size.toNat

instance (a : Arena) (p q : Piece) : Decidable (PiecesApart a p q) :=
  inferInstanceAs (Decidable (Apart ..))

/-- What can be relied on.  Of no block more is used than its size, and in all no more than what
is reserved; each piece is a piece of one block; the pieces have no address in common, provided
that their ends are numbers of 64 bits; and a reset takes all of them back, and keeps the
blocks. -/
structure Safe (s : Account) : Prop where
  used_le : ∀ b ∈ s.arena.blocks, b.used ≤ b.size
  usedBytes_le : s.arena.usedBytes ≤ s.arena.reservedBytes
  aligned : ∀ p ∈ s.pieces, p.request.alignment.toNat ∣ s.arena.address p.place
  cut : ∀ p ∈ s.pieces, ∃ b, s.arena.blocks[p.place.block]? = some b ∧ p.CutFrom b
  apart : (∀ p ∈ s.pieces, p.Measured) → s.pieces.Pairwise (PiecesApart s.arena)
  reset : s.arena.reset.usedBytes = 0 ∧ s.arena.reset.extents = s.arena.extents

/-- The pieces of a sound account are apart, since they stand in a row in each block. -/
theorem Sound.apart (h : s.Sound) (hplaced : s.arena.Placed)
    (hmeasured : ∀ p ∈ s.pieces, p.Measured) : s.pieces.Pairwise (PiecesApart s.arena) := by
  refine (h.row hmeasured).ordered.imp_of_mem fun {later p} hlater hp hordered => ?_
  obtain ⟨b, hb, hcut⟩ := h.cut later hlater
  obtain ⟨c, hc, hcut'⟩ := h.cut p hp
  have hstop := hcut.inside.mpr (hmeasured later hlater)
  have hstop' := hcut'.inside.mpr (hmeasured p hp)
  rw [PiecesApart, address_eq hb, address_eq hc, Apart]
  unfold Piece.stop at hstop hstop' hordered
  by_cases hsame : p.place.block = later.place.block
  · obtain rfl : c = b := Option.some.inj (hc.symm.trans (hsame ▸ hb))
    have hbehind := hordered hsame
    omega
  · have happart := hplaced.apart_of_ne hb hc (Ne.symm hsame)
    unfold Apart at happart
    omega

/-- **Every arena that requests and resets lead to is safe**, wherever its blocks stand. -/
theorem run_safe (bases : Nat → UInt64) (blockSize : UInt64) (ops : List Op)
    (hlegal : ∀ r, .allocate r ∈ ops → r.Legal)
    (hplaced : (run bases blockSize ops).arena.Placed) : (run bases blockSize ops).Safe := by
  have h := run_sound hlegal hplaced
  refine ⟨h.used, hplaced.usedBytes_le h.used, fun p hp => ?_, h.cut, h.apart hplaced,
    usedBytes_reset _, extents_reset _⟩
  obtain ⟨b, hb, hcut⟩ := h.cut p hp
  rw [address_eq hb]
  exact hcut.aligned

/-- A block of the usual size, and one that is larger, after a reset. -/
theorem run_safe_oversized :
    let bases := fun n : Nat => 4096 * (n.toUInt64 + 1)
    let ops : List Op := [.allocate ⟨40, 8⟩, .reset, .allocate ⟨3, 1⟩, .allocate ⟨16, 16⟩,
      .allocate ⟨500, 8⟩]
    let s := run bases 64 ops
    (∀ r, .allocate r ∈ ops → r.Legal) ∧ s.arena.Placed ∧
      s.pieces.map (fun p => s.arena.address p.place) = [8192, 4112, 4096] ∧
      (∀ p ∈ s.pieces, p.Measured) ∧ s.Safe := by
  intro bases ops s
  have hlegal : ∀ r, .allocate r ∈ ops → r.Legal := by
    intro r hr
    simp only [ops, List.mem_cons, Op.allocate.injEq, reduceCtorEq, List.not_mem_nil, or_false,
      false_or] at hr
    obtain rfl | rfl | rfl | rfl := hr
    · exact ⟨⟨3, rfl⟩, by decide⟩
    · exact ⟨⟨0, rfl⟩, by decide⟩
    · exact ⟨⟨4, rfl⟩, by decide⟩
    · exact ⟨⟨3, rfl⟩, by decide⟩
  have hplaced : (run bases 64 ops).arena.Placed := ⟨by decide, by decide, by decide⟩
  exact ⟨hlegal, hplaced, by decide, by decide, run_safe bases 64 ops hlegal hplaced⟩

/-- A size that is too large for the sum with its offset: the second piece is longer than its
block, and the third has the address of the first. -/
theorem run_overlaps :
    let bases := fun n : Nat => 4096 * (n.toUInt64 + 1)
    let ops : List Op := [.allocate ⟨8, 1⟩, .allocate ⟨18446744073709551608, 1⟩, .allocate ⟨8, 1⟩]
    let s := run bases 64 ops
    (∀ r, .allocate r ∈ ops → r.Legal) ∧ s.arena.Placed ∧
      s.pieces.map (fun p => s.arena.address p.place) = [4096, 4104, 4096] ∧
      (∃ p ∈ s.pieces, ∀ b ∈ s.arena.blocks, b.size.toNat < p.stop) ∧
      ¬ s.pieces.Pairwise (PiecesApart s.arena) := by
  intro bases ops s
  refine ⟨fun r hr => ?_, ⟨by decide, by decide, by decide⟩, by decide, by decide, by decide⟩
  simp only [ops, List.mem_cons, Op.allocate.injEq, List.not_mem_nil, or_false] at hr
  obtain rfl | rfl | rfl := hr
  · exact ⟨⟨0, rfl⟩, by decide⟩
  · exact ⟨⟨0, rfl⟩, by decide⟩
  · exact ⟨⟨0, rfl⟩, by decide⟩

end Account

end Arena

end ScriptLint
