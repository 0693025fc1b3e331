/-
Tables sorted by a key.

A table is a list of entries in ascending order of their byte keys, each key
once.
-/
import ScriptLint.Bytes

namespace ScriptLint

/-- Entries in ascending order of their keys. -/
abbrev Table (α : Type) := List (Bytes × α)

namespace Table

variable {α : Type}

/-- The table with an entry, in place of one of the same key. -/
def insert (key : Bytes) (value : α) : Table α → Table α
  | [] => [(key, value)]
  | entry :: rest =>
    match compare key entry.1 with
    | .lt => (key, value) :: entry :: rest
    | .eq => (key, value) :: rest
    | .gt => entry :: insert key value rest

/-- The value of a key. -/
def find? (key : Bytes) (table : Table α) : Option α :=
  (List.find? (fun entry => entry.1 = key) table).map Prod.snd

/-- The table of the given entries; of equal keys the last one counts. -/
def ofList (entries : List (Bytes × α)) : Table α :=
  entries.foldl (fun table entry => table.insert entry.1 entry.2) []

/-- The keys in ascending order. -/
def keys (table : Table α) : List Bytes := table.map Prod.fst

theorem find?_cons (key : Bytes) (entry : Bytes × α) (table : Table α) :
    find? key (entry :: table) = if key = entry.1 then some entry.2 else find? key table := by
  by_cases hkey : key = entry.1
  · simp [find?, hkey]
  · simp [find?, hkey, Ne.symm hkey]

/-- Behind an insertion the key has the value, and each other key the value that it had. -/
theorem find?_insert (key other : Bytes) (value : α) (table : Table α) :
    find? other (insert key value table) =
      if other = key then some value else find? other table := by
  induction table with
  | nil => exact find?_cons other (key, value) []
  | cons entry rest ih =>
    rw [insert]
    cases horder : compare key entry.1 with
    | lt => exact find?_cons other (key, value) (entry :: rest)
    | eq =>
      have hkey : key = entry.1 := Std.LawfulEqOrd.eq_of_compare horder
      simp only [find?_cons, ← hkey]
      split <;> rfl
    | gt =>
      have hkey : entry.1 ≠ key := fun heq => by simp [heq] at horder
      simp only [find?_cons, ih]
      by_cases hentry : other = entry.1
      · rw [if_pos hentry, if_pos hentry, if_neg (hentry ▸ hkey)]
      · rw [if_neg hentry, if_neg hentry]

end Table

end ScriptLint
