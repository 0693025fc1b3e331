/-
The statement of a token.

Every token but the semicolons between statements belongs to one statement at the level of the
module: the one whose range it is in.

* **`Outline.owner?`** — the statement to which a token belongs;
* **`Outline.owner_eq_some`** — it is the only one whose range the token is in;
* **`Outline.exists_owner`** — in an outline that can be read there is one.
-/
import ScriptLint.Proofs.Debuggers
import ScriptLint.Proofs.Landing

namespace ScriptLint

namespace Outline

section

variable (o : Outline)

/-- The statement that is read at an index, and the index after it. -/
def mainAt? (i : Nat) : Option (Statement × Nat) :=
  match o.statement i with
  | .ok (s :: _, stop) => some (s, stop)
  | _ => none

/-- The statement that is read at `i`, if the token at `k` is one of it. -/
def holder? (k i : Nat) : Option (Nat × Statement) :=
  ((o.mainAt? i).filter fun r => i ≤ k && k < r.2).map fun r => (i, r.1)

/-- The module-level statement to which the token at an index belongs, and where it begins. -/
def owner? (k : Nat) : Option (Nat × Statement) := (o.startsFrom 0).findSome? (o.holder? k)

end

variable {o : Outline} {i j k stop : Nat} {s : Statement} {body : List Statement}

theorem mainAt_eq_some : o.mainAt? i = some (s, stop) ↔
    ∃ lifted, o.statement i = .ok (s :: lifted, stop) := by
  unfold mainAt?
  split
  case h_1 s' lifted stop' hs =>
    simp only [hs, Option.some.injEq, Prod.mk.injEq, Except.ok.injEq, List.cons.injEq]
    constructor
    · rintro ⟨rfl, rfl⟩
      exact ⟨lifted, ⟨rfl, rfl⟩, rfl⟩
    · rintro ⟨_, ⟨rfl, _⟩, rfl⟩
      exact ⟨rfl, rfl⟩
  case h_2 hnone =>
    simp only [reduceCtorEq, false_iff, not_exists]
    exact fun lifted hs => hnone _ _ _ hs

theorem holder_eq_some : o.holder? k i = some (j, s) ↔
    j = i ∧ ∃ stop, o.mainAt? i = some (s, stop) ∧ i ≤ k ∧ k < stop := by
  simp only [holder?, Option.map_eq_some_iff, Option.filter_eq_some_iff, Prod.exists,
    Prod.mk.injEq, Bool.and_eq_true, decide_eq_true_eq]
  constructor
  · rintro ⟨s', stop, ⟨hs, hle, hlt⟩, rfl, rfl⟩
    exact ⟨rfl, stop, hs, hle, hlt⟩
  · rintro ⟨rfl, stop, hs, hle, hlt⟩
    exact ⟨s, stop, ⟨hs, hle, hlt⟩, rfl, rfl⟩

theorem le_of_mem_startsFrom (h : j ∈ o.startsFrom i) : i ≤ j := by
  fun_induction startsFrom o i with
  | case1 i hsize hmark ih =>
    have := ih h
    omega
  | case2 => cases h
  | case3 i hsize hmark statements stop hstatement ih =>
    rcases List.mem_cons.mp h with rfl | h
    · exact Nat.le_refl _
    · have := ih h
      omega
  | case4 => cases h

/-- A token belongs to one statement only. -/
theorem findSome_holder (hj : j ∈ o.startsFrom i) (hs : o.mainAt? j = some (s, stop))
    (hle : j ≤ k) (hlt : k < stop) : (o.startsFrom i).findSome? (o.holder? k) = some (j, s) := by
  fun_induction startsFrom o i with
  | case1 i hsize hmark ih => exact ih hj
  | case2 => cases hj
  | case3 i hsize hmark statements stop' hstatement ih =>
    rcases List.mem_cons.mp hj with rfl | hj
    · rw [List.findSome?_cons, holder_eq_some.mpr ⟨rfl, stop, hs, hle, hlt⟩]
    · -- the statement before it ends before the token
      have hstart := le_of_mem_startsFrom hj
      have hnone : o.holder? k i = none := by
        rw [Option.eq_none_iff_forall_not_mem]
        rintro ⟨_, s'⟩ hmem
        obtain ⟨_, stop'', hs', _, hlt'⟩ := holder_eq_some.mp hmem
        obtain ⟨lifted, hstatement'⟩ := mainAt_eq_some.mp hs'
        cases hstatement.symm.trans hstatement'
        omega
      rw [List.findSome?_cons, hnone]
      exact ih hj
  | case4 => cases hj

theorem owner_eq_some : o.owner? k = some (i, s) ↔
    i ∈ o.startsFrom 0 ∧ ∃ stop, o.mainAt? i = some (s, stop) ∧ i ≤ k ∧ k < stop := by
  constructor
  · intro h
    obtain ⟨i', hi', hholder⟩ := List.exists_of_findSome?_eq_some h
    obtain ⟨rfl, hs⟩ := holder_eq_some.mp hholder
    exact ⟨hi', hs⟩
  · rintro ⟨hi, stop, hs, hle, hlt⟩
    exact findSome_holder hi hs hle hlt

/-- Every token but a semicolon belongs to a statement. -/
theorem exists_main (ho : o.Regular) (htop : o.AtTop i) (h : o.bodyFrom i = .ok body)
    (hik : i ≤ k) (hk : k < o.size) (hmark : o.is k ";" = false) :
    ∃ j ∈ o.startsFrom i, ∃ s stop, o.mainAt? j = some (s, stop) ∧ j ≤ k ∧ k < stop := by
  fun_induction startsFrom o i generalizing body with
  | case1 i hsize hmark' ih =>
    rw [bodyFrom, if_pos hsize, if_pos hmark'] at h
    refine ih (htop.mark ho.nested hmark' (by decide)) h ?_
    rcases Nat.eq_or_lt_of_le hik with rfl | hlt
    · rw [hmark'] at hmark
      cases hmark
    · exact hlt
  | case2 i hsize hmark' failure hfailure =>
    rw [bodyFrom, if_pos hsize, if_neg hmark', hfailure] at h
    cases h
  | case3 i hsize hmark' statements stop hstatement ih =>
    obtain ⟨rest, hrest, rfl⟩ := bodyFrom_eq_append hsize hmark' hstatement h
    obtain ⟨s, lifted, rfl, hcovers, _⟩ := covers_statement ho htop hsize hstatement
    rw [Nat.max_eq_left hcovers.reach] at ih hrest ⊢
    rcases Nat.lt_or_ge k stop with hlt | hge
    · exact ⟨i, List.mem_cons_self, s, stop, mainAt_eq_some.mpr ⟨lifted, hstatement⟩, hik, hlt⟩
    · obtain ⟨j, hj, hmain⟩ := ih hcovers.top hrest hge
      exact ⟨j, List.mem_cons_of_mem _ hj, hmain⟩
  | case4 i hsize => omega

theorem exists_owner (ho : o.Regular) (h : o.body = .ok body) (hk : k < o.size)
    (hmark : o.is k ";" = false) : ∃ i s, o.owner? k = some (i, s) := by
  obtain ⟨i, hi, s, hs⟩ := exists_main ho (.start o) h (Nat.zero_le k) hk hmark
  exact ⟨i, s, owner_eq_some.mpr ⟨hi, hs⟩⟩

end Outline

end ScriptLint
