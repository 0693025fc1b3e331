/-
Batches of paths.

The paths to lint are taken in batches of a fixed size, in the order of the
caller or deepest directory first.  Sizes are 64-bit words.
-/
import ScriptLint.PathSet

namespace ScriptLint

/-- The order in which paths are taken. -/
inductive BatchOrder where
  | depthFirst | insertion
  deriving DecidableEq, Inhabited, Repr

/-- Some of the paths to lint. -/
structure Batch where
  index : Nat
  paths : List Path
  deriving DecidableEq, Inhabited, Repr

namespace Schedule

/-- The number of paths in a batch; a factor of zero counts as one. -/
def batchSize (concurrency multiplier : UInt64) : UInt64 :=
  (if concurrency = 0 then 1 else concurrency) * (if multiplier = 0 then 1 else multiplier)

/-- A path that comes first in depth-first order: the deeper one, and of
equally deep ones the one whose text comes first. -/
def before (p q : Path) : Bool :=
  q.depth < p.depth || (p.depth == q.depth && compare p.text q.text != .gt)

/-- The paths in the order in which they are taken. -/
def order (ordering : BatchOrder) (paths : PathSet) : List Path :=
  match ordering with
  | .depthFirst => paths.paths.mergeSort before
  | .insertion => paths.paths

/-- Cuts a list into pieces of a positive size. -/
def chunks {α : Type} (size : Nat) (items : List α) : List (List α) :=
  match items with
  | [] => []
  | a :: rest => (a :: rest.take (size - 1)) :: chunks size (rest.drop (size - 1))
termination_by items.length
decreasing_by simp only [List.length_drop, List.length_cons]; omega

end Schedule

/-- The batches of a set of paths. -/
def schedule (paths : PathSet) (concurrency multiplier : UInt64) (ordering : BatchOrder) :
    List Batch :=
  (Schedule.chunks (Schedule.batchSize concurrency multiplier).toNat
    (Schedule.order ordering paths)).zipIdx.map fun (paths, index) => ⟨index, paths⟩

end ScriptLint
