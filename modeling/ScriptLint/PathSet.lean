/-
Sets of paths in the order of insertion.

The paths to lint are a set: a path that is the same as an earlier one does not
count again.  The order of insertion and the text of the first spelling stay.
-/
import ScriptLint.Path

namespace ScriptLint

/-- Distinct paths in the order of insertion, with an index of their keys. -/
structure PathSet where
  paths : List Path := []
  index : Std.TreeSet Path.Key := ∅
  mem_index : ∀ k, k ∈ index ↔ ∃ p ∈ paths, p.key = k := by simp

namespace PathSet

/-- No paths. -/
def empty : PathSet := {}

instance : Inhabited PathSet := ⟨empty⟩

/-- A path of the set is the same as the given one. -/
def contains (s : PathSet) (p : Path) : Bool := s.index.contains p.key

/-- The set with one more path at its end, unless it contains the path. -/
def insert (s : PathSet) (p : Path) : PathSet :=
  if s.contains p then s
  else
    { paths := s.paths ++ [p]
      index := s.index.insert p.key
      mem_index := by
        intro k
        simp only [Std.TreeSet.mem_insert, Std.LawfulEqOrd.compare_eq_iff_eq, s.mem_index,
          List.mem_append, List.mem_singleton]
        constructor
        · rintro (rfl | ⟨q, hq, rfl⟩)
          · exact ⟨p, .inr rfl, rfl⟩
          · exact ⟨q, .inl hq, rfl⟩
        · rintro ⟨q, hq | rfl, rfl⟩
          · exact .inr ⟨q, hq, rfl⟩
          · exact .inl rfl }

/-- The set of the given paths, in their order. -/
def ofList (paths : List Path) : PathSet := paths.foldl insert empty

/-- The number of paths. -/
def size (s : PathSet) : Nat := s.paths.length

theorem contains_iff (s : PathSet) (p : Path) :
    s.contains p = true ↔ ∃ q ∈ s.paths, q.key = p.key := by
  rw [contains, Std.TreeSet.contains_iff_mem, s.mem_index]

end PathSet

end ScriptLint
