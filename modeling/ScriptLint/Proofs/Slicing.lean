/-
Cutting a list into batches with words.

A batch ends where the next one begins, a size further, and all places are words.  Room for the
batches is made before, for which the number of paths is divided by the size.  If the product of
the two factors of the size fits a word, nothing is lost; otherwise the size is what is left of
it, and if nothing is left, there is no number of batches, and cutting does not get on:

* **`Schedule.room?`** — the number of batches that room is made for;
* **`Schedule.Slices`** — the places at which a list is cut, if cutting ends;
* **`Schedule.exists_slices`**, **`Schedule.not_slices`** — it ends unless the size is zero, and
  then with the batches of the schedule;
* **`LintSession.create_slices`** — what becomes of the options that a session accepts.
-/
import ScriptLint.Proofs.Scheduling

namespace ScriptLint

namespace Schedule

/-- The number of batches that room is made for.  It is rounded up, and there is none for a size
of zero. -/
def room? (count size : UInt64) : Option UInt64 :=
  if size = 0 then none else some ((count + size - 1) / size)

/-- From the start on, cutting gives these pieces: each begins a size behind the one before, and
the last one ends at the count. -/
inductive Slices (size count : UInt64) : UInt64 → List (UInt64 × UInt64) → Prop where
  | done {start : UInt64} (h : ¬start < count) : Slices size count start []
  | slice {start : UInt64} {slices : List (UInt64 × UInt64)} (h : start < count)
      (hmore : Slices size count (start + size) slices) :
      Slices size count start ((start, min (start + size) count) :: slices)

/-- What is between two places of a list. -/
def between {α : Type} (items : List α) (slice : UInt64 × UInt64) : List α :=
  (items.drop slice.1.toNat).take (slice.2.toNat - slice.1.toNat)

variable {size count start : UInt64} {slices slices' : List (UInt64 × UInt64)}

theorem Slices.unique (h : Slices size count start slices) (h' : Slices size count start slices') :
    slices = slices' := by
  induction h generalizing slices' with
  | done hend =>
    cases h' with
    | done => rfl
    | slice hstart => exact absurd hstart hend
  | slice hstart _ ih =>
    cases h' with
    | done hend => exact absurd hstart hend
    | slice _ hmore => rw [ih hmore]

/-- **A size of zero leads nowhere.** -/
theorem not_slices (hstart : start < count) : ¬Slices 0 count start slices := by
  intro h
  obtain ⟨size, hsize⟩ : ∃ size : UInt64, size = 0 := ⟨0, rfl⟩
  rw [← hsize] at h
  induction h with
  | done hend => exact hend hstart
  | slice _ _ ih =>
    rw [hsize, UInt64.add_zero] at ih
    exact ih hstart

/-- **Any other size leads to the end**, and the pieces are the chunks of the list.  The places do
not wrap: behind the first one, a place that is not at the end is not below the size. -/
theorem exists_slices {α : Type} {items : List α} (hsize : size ≠ 0)
    (hcount : count.toNat = items.length) (hroom : items.length < 2 ^ 63)
    (hstart : start = 0 ∨ size ≤ start) :
    ∃ slices, Slices size count start slices ∧
      slices.map (between items) = chunks size.toNat (items.drop start.toNat) := by
  have hpos : 0 < size.toNat := UInt64.pos_iff_ne_zero.mpr hsize
  induction hleft : items.drop start.toNat using chunks.induct size.toNat generalizing start with
  | case1 =>
    have hend : ¬start < count := by
      rw [UInt64.lt_iff_toNat_lt, hcount]
      exact Nat.not_lt.mpr (List.drop_eq_nil_iff.mp hleft)
    exact ⟨[], .done hend, by rw [chunks]; rfl⟩
  | case2 first rest ih =>
    have hlength : start.toNat + (rest.length + 1) = items.length := by
      have hlength := congrArg List.length hleft
      rw [List.length_drop, List.length_cons] at hlength
      omega
    have hnext : (start + size).toNat = start.toNat + size.toNat := by
      rw [UInt64.toNat_add]
      refine Nat.mod_eq_of_lt ?_
      have hbound := size.toNat_lt
      rcases hstart with rfl | hle
      · simpa using hbound
      · rw [UInt64.le_iff_toNat_le] at hle
        omega
    have hrest : items.drop (start + size).toNat = rest.drop (size.toNat - 1) := by
      rw [hnext, ← List.drop_drop, hleft, ← Nat.succ_pred_eq_of_pos hpos]
      rfl
    have hbehind : start + size = 0 ∨ size ≤ start + size :=
      .inr (UInt64.le_iff_toNat_le.mpr (by omega))
    obtain ⟨slices, hslices, hmap⟩ := ih hbehind hrest
    have hlt : start < count := UInt64.lt_iff_toNat_lt.mpr (by omega)
    refine ⟨_, .slice hlt hslices, ?_⟩
    have hstop : (min (start + size) count).toNat = min (start + size).toNat count.toNat :=
      UInt64.toNat_min _ _
    have htake : min (start + size).toNat count.toNat - start.toNat =
        min (size.toNat - 1) rest.length + 1 := by omega
    rw [List.map_cons, hmap, chunks, between, hleft, hstop, htake, List.take_succ_cons,
      ← List.take_take, List.take_length]

/-- For a list that is not empty, cutting ends unless the size is zero. -/
theorem ends_iff {α : Type} {items : List α} (hne : items ≠ [])
    (hcount : count.toNat = items.length) (hroom : items.length < 2 ^ 63) :
    (∃ slices, Slices size count 0 slices) ↔ size ≠ 0 := by
  constructor
  · rintro ⟨slices, h⟩ rfl
    refine not_slices (UInt64.lt_iff_toNat_lt.mpr ?_) h
    rw [hcount]
    exact List.length_pos_iff.mpr hne
  · intro hsize
    obtain ⟨slices, h, -⟩ := exists_slices hsize hcount hroom (.inl rfl)
    exact ⟨slices, h⟩

/-- There are as many chunks as there are sizes in the list, rounded up. -/
theorem length_chunks {α : Type} {size : Nat} (hsize : 0 < size) (items : List α) :
    (chunks size items).length = (items.length + size - 1) / size := by
  induction items using chunks.induct size with
  | case1 =>
    rw [chunks, List.length_nil, List.length_nil, Nat.zero_add, Nat.div_eq_of_lt (by omega)]
  | case2 first rest ih =>
    rw [chunks, List.length_cons, ih, List.length_drop, List.length_cons, ← Nat.add_div_right _ hsize]
    rcases Nat.le_total (size - 1) rest.length with hle | hle
    · congr 1
      omega
    · -- the first chunk is the only one
      rw [Nat.sub_eq_zero_of_le hle, Nat.div_eq_of_lt_le (k := 1) (by omega) (by omega),
        Nat.div_eq_of_lt_le (k := 1) (by omega) (by omega)]

theorem room?_isSome : (room? count size).isSome = true ↔ size ≠ 0 := by
  by_cases hsize : size = 0 <;> simp [room?, hsize]

/-- **Room is made for all chunks**, unless rounding up leaves the words. -/
theorem room?_eq {α : Type} {items : List α} (hsize : size ≠ 0)
    (hcount : count.toNat = items.length) (hround : items.length + size.toNat ≤ 2 ^ 64) :
    room? count size = some (chunks size.toNat items).length.toUInt64 := by
  have hpos : 0 < size.toNat := UInt64.pos_iff_ne_zero.mpr hsize
  have hsum : (count + size - 1).toNat = items.length + size.toNat - 1 := by
    rw [UInt64.toNat_sub, UInt64.toNat_add, hcount, UInt64.toNat_one]
    omega
  have hbatches : (items.length + size.toNat - 1) / size.toNat < 2 ^ 64 :=
    Nat.lt_of_le_of_lt (Nat.div_le_self _ _) (by omega)
  rw [room?, if_neg hsize, length_chunks hpos, Option.some.injEq, ← UInt64.toNat_inj,
    UInt64.toNat_div, hsum]
  exact (Nat.mod_eq_of_lt hbatches).symm

/-- The size of the batches of a run. -/
def sizeFor (o : RunOptions) : UInt64 := batchSize o.concurrency.toUInt64 o.batchMultiplier

/-- What becomes of a set of paths if this many of them are to be in a batch. -/
structure Cut (wanted : Nat) (o : RunOptions) (paths : PathSet) : Prop where
  /-- The size of a batch is what a word has of the number. -/
  size : (sizeFor o).toNat = wanted % 2 ^ 64
  /-- It is the number itself exactly if that fits a word. -/
  exact : (sizeFor o).toNat = wanted ↔ wanted < 2 ^ 64
  /-- Room can be made unless nothing is left of the number. -/
  room : (room? paths.paths.length.toUInt64 (sizeFor o)).isSome = true ↔ ¬2 ^ 64 ∣ wanted
  /-- It is made for all batches, unless rounding up leaves the words. -/
  enough : ¬2 ^ 64 ∣ wanted → paths.paths.length + wanted % 2 ^ 64 ≤ 2 ^ 64 →
    room? paths.paths.length.toUInt64 (sizeFor o) =
      some (schedule paths o.concurrency.toUInt64 o.batchMultiplier o.ordering).length.toUInt64
  /-- Cutting ends unless nothing is left of the number. -/
  ends : (∃ slices, Slices (sizeFor o) paths.paths.length.toUInt64 0 slices) ↔ ¬2 ^ 64 ∣ wanted
  /-- It gives the batches. -/
  slices : ∀ slices, Slices (sizeFor o) paths.paths.length.toUInt64 0 slices →
    (schedule paths o.concurrency.toUInt64 o.batchMultiplier o.ordering).map Batch.paths =
      slices.map (between (order o.ordering paths))
  /-- All batches are as large as their size, except for the last one. -/
  fill : ¬2 ^ 64 ∣ wanted → Batch.Fill (wanted % 2 ^ 64)
    (schedule paths o.concurrency.toUInt64 o.batchMultiplier o.ordering)

theorem length_order (ordering : BatchOrder) (paths : PathSet) :
    (order ordering paths).length = paths.paths.length := by
  cases ordering with
  | depthFirst => exact (List.mergeSort_perm _ _).length_eq
  | insertion => rfl

/-- The size decides it all.  A set has no more paths than a list in memory can. -/
theorem cut_of_size {wanted : Nat} {o : RunOptions} {paths : PathSet}
    (hsize : (sizeFor o).toNat = wanted % 2 ^ 64) (hne : paths.paths ≠ [])
    (hroom : paths.paths.length < 2 ^ 63) : Cut wanted o paths := by
  have hzero : sizeFor o ≠ 0 ↔ ¬2 ^ 64 ∣ wanted := by
    rw [Ne, ← UInt64.toNat_inj, hsize, UInt64.toNat_zero, Nat.dvd_iff_mod_eq_zero]
  have hlength := length_order o.ordering paths
  have hcount : paths.paths.length.toUInt64.toNat = (order o.ordering paths).length := by
    rw [hlength]
    exact Nat.mod_eq_of_lt (by omega)
  have hnonempty : order o.ordering paths ≠ [] := by
    rw [← List.length_pos_iff, hlength]
    exact List.length_pos_iff.mpr hne
  have hbound : (order o.ordering paths).length < 2 ^ 63 := hlength.symm ▸ hroom
  have hends := (ends_iff hnonempty hcount hbound).trans hzero
  refine ⟨hsize, ?_, room?_isSome.trans hzero, fun hleft hround => ?_, hends,
    fun slices hslices => ?_, fun hleft => ?_⟩
  · rw [hsize, Nat.mod_eq_iff_lt (by decide)]
  · rw [← hsize, ← hlength] at hround
    rw [room?_eq (hzero.mpr hleft) hcount hround, sizeFor, ← paths_schedule, List.length_map]
  · have hleft := hends.mp ⟨slices, hslices⟩
    obtain ⟨_, hslices', hmap⟩ := exists_slices (hzero.mpr hleft) hcount hbound (.inl rfl)
    rw [hslices.unique hslices', hmap]
    exact paths_schedule _ _ _ _
  · have hpos := UInt64.pos_iff_ne_zero.mpr (hzero.mpr hleft)
    rw [← hsize]
    exact fill_of_cuts (cuts_batchSize hpos paths o.ordering)

end Schedule

/-- Checked options are the given ones, and their multiplier is not zero. -/
theorem RunOptions.check_eq_ok {o o' : RunOptions} (h : o.check = .ok o') :
    o' = o ∧ o.batchMultiplier ≠ 0 ∧ o.blockSize ≠ 0 := by
  unfold check at h
  split at h
  · cases h
  · split at h
    · cases h
    · rename_i hmultiplier hblock
      cases h
      exact ⟨rfl, hmultiplier, hblock⟩

theorem LintSession.create_eq_ok {o : RunOptions} {loaders : Loaders} {resolver : Resolver}
    {rules : RuleSet} {s : LintSession} (h : create o loaders resolver rules = .ok s) :
    s = ⟨o, loaders, resolver, rules⟩ ∧ o.batchMultiplier ≠ 0 := by
  cases hcheck : o.check with
  | error e =>
    rw [create, hcheck] at h
    cases h
  | ok o' =>
    obtain ⟨rfl, hmultiplier, -⟩ := RunOptions.check_eq_ok hcheck
    rw [create, hcheck] at h
    cases h
    exact ⟨rfl, hmultiplier⟩

/-- **The options that a session accepts need not keep the size of a batch within a word.** -/
theorem LintSession.create_slices {o : RunOptions} {loaders : Loaders} {resolver : Resolver}
    {rules : RuleSet} {s : LintSession} (h : create o loaders resolver rules = .ok s)
    {paths : PathSet} (hne : paths.paths ≠ []) (hroom : paths.paths.length < 2 ^ 63) :
    Schedule.Cut (max 1 o.concurrency.toNat * o.batchMultiplier.toNat) s.options paths := by
  obtain ⟨rfl, hmultiplier⟩ := create_eq_ok h
  refine Schedule.cut_of_size ?_ hne hroom
  have hpos : max 1 o.batchMultiplier.toNat = o.batchMultiplier.toNat :=
    Nat.max_eq_right (UInt64.pos_iff_ne_zero.mpr hmultiplier)
  rw [Schedule.sizeFor, Schedule.toNat_batchSize, hpos, UInt32.toNat_toUInt64]

/-- Three workers, and a third of 2^64 + 2 as the multiplier: two is left of the number, so three
paths make two batches and not one. -/
theorem LintSession.create_slices_pairs :
    let o : RunOptions := { concurrency := 3, batchMultiplier := 6148914691236517206 }
    let paths := PathSet.ofList ["a.js", "b.js", "c.js"]
    create o .standard {} {} = .ok ⟨o, .standard, {}, {}⟩ ∧
      paths.paths ≠ [] ∧ paths.paths.length < 2 ^ 63 ∧
      schedule paths o.concurrency.toUInt64 o.batchMultiplier o.ordering =
        [⟨0, ["a.js", "b.js"]⟩, ⟨1, ["c.js"]⟩] ∧
      Schedule.Cut (max 1 o.concurrency.toNat * o.batchMultiplier.toNat) o paths := by
  intro o paths
  have hcreate : create o .standard {} {} = .ok ⟨o, .standard, {}, {}⟩ := rfl
  have hne : paths.paths ≠ [] := by decide
  have hroom : paths.paths.length < 2 ^ 63 := by decide
  exact ⟨hcreate, hne, hroom, by cbv, create_slices hcreate hne hroom⟩

/-- Accepted options for which the size of a batch is not the product of its factors: two workers
and the multiplier 2^63, of which nothing is left.  Then one path cannot be cut into batches. -/
theorem LintSession.create_slices_endless :
    let o : RunOptions := { concurrency := 2, batchMultiplier := 9223372036854775808 }
    let size := Schedule.sizeFor o
    create o .standard {} {} = .ok ⟨o, .standard, {}, {}⟩ ∧
      size.toNat ≠ o.concurrency.toNat * o.batchMultiplier.toNat ∧
      Schedule.room? 1 size = none ∧ ¬∃ slices, Schedule.Slices size 1 0 slices :=
  ⟨rfl, by decide, by decide, fun ⟨_, h⟩ => Schedule.not_slices (by decide) h⟩

end ScriptLint
