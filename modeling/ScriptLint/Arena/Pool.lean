/-
Arenas that are lent and given back.

A pool keeps the arenas that nobody uses.  A lease is the right to one arena;
the arena of a lease that ends is reset and goes back to the pool, and the next
lease takes the arena that came back last.  Each arena has a number, by which
leases can be told apart:

* **`Arena.Pool.acquire`**, **`Arena.Pool.giveBack`** — a lease begins, ends;
* **`Arena.Leases`** — leases under names, which can be moved to other names.
-/
import ScriptLint.Arena
import ScriptLint.Error
import ScriptLint.Table

namespace ScriptLint.Arena

/-- The right to use an arena. -/
structure Lease where
  number : Nat
  arena : Arena
  deriving DecidableEq, Inhabited, Repr

/-- Idle arenas, the one that came back last first, and counts of all arenas
and of those that are lent. -/
structure Pool where
  capacity : UInt64
  blockSize : UInt64
  idle : List Lease := []
  created : Nat := 0
  leased : Nat := 0
  peakLeased : Nat := 0
  deriving DecidableEq, Inhabited, Repr

namespace Pool

/-- A pool without arenas.  It needs a capacity and a block size. -/
def create (capacity blockSize : UInt64) : Outcome Pool :=
  if capacity = 0 then .error { kind := .config, message := "Arena pool capacity must be at least 1" }
  else if blockSize = 0 then
    .error { kind := .config, message := "Arena block size must be non-zero" }
  else .ok { capacity, blockSize }

/-- The pool with one more arena lent. -/
def lend (p : Pool) : Pool :=
  { p with leased := p.leased + 1, peakLeased := max p.peakLeased (p.leased + 1) }

/-- A lease of an idle arena, or of a new one if none is idle. -/
def acquire (p : Pool) : Lease × Pool :=
  match p.idle with
  | lease :: idle => (lease, { p with idle }.lend)
  | [] => (⟨p.created, { blockSize := p.blockSize }⟩, { p with created := p.created + 1 }.lend)

/-- The end of a lease. -/
def giveBack (p : Pool) (lease : Lease) : Pool :=
  { p with idle := ⟨lease.number, lease.arena.reset⟩ :: p.idle, leased := p.leased - 1 }

end Pool

/-- A pool, and its leases by name. -/
structure Leases where
  pool : Pool
  held : Table Lease := []
  deriving DecidableEq, Inhabited, Repr

namespace Leases

/-- The lease of a name. -/
def find? (l : Leases) (name : Bytes) : Option Lease := l.held.find? name

/-- Names without an entry. -/
def drop (l : Leases) (name : Bytes) : Leases :=
  { l with held := l.held.filter fun entry => entry.1 ≠ name }

/-- Ends the lease of a name. -/
def release (l : Leases) (name : Bytes) : Leases :=
  match l.find? name with
  | none => l
  | some lease => { l.drop name with pool := l.pool.giveBack lease }

/-- Puts a lease under a name; the one that stood there ends. -/
def assign (l : Leases) (name : Bytes) (lease : Lease) : Leases :=
  let l := l.release name
  { l with held := l.held.insert name lease }

/-- A new lease under a name. -/
def acquire (l : Leases) (name : Bytes) : Leases :=
  let (lease, pool) := l.pool.acquire
  { l with pool }.assign name lease

/-- Puts a lease under another name; the first name has none then. -/
def move (l : Leases) (source target : Bytes) : Leases :=
  if source = target then l.release source
  else match l.find? source with
    | none => l
    | some lease => (l.drop source).assign target lease

/-- Copies a text into the arena of a name. -/
def copy (l : Leases) (bases : Nat → UInt64) (name text : Bytes) : Option Place × Leases :=
  match l.find? name with
  | none => (none, l)
  | some lease =>
    let (place, arena) := lease.arena.copy bases text
    (place, { l with held := l.held.insert name { lease with arena } })

end Leases

end ScriptLint.Arena
