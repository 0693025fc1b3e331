/-
Cutting a set of paths into batches.

The batches of a set are its paths in order, cut after every so many of them.  Deepest directory
first is a strict order of paths with different texts, so there is one way to write the paths of
a set in this order; neither the order in which they were put into the set matters, nor whether
they were in batches before.

* **`Schedule.Cuts`** — pieces of a list that are all full, except for the last one;
* **`Schedule.cuts_chunks`** — what cutting a list gives;
* **`Schedule.Precedes`** — deepest directory first, then by text;
* **`Schedule.eq_order_iff`** — the only list of the paths of a set in this order;
* **`PathSet.nodup_ofList`**, **`PathSet.ofList_eq`** — no path is in a set twice, and a list
  without the same path twice makes the set with these paths in this order;
* **`schedule_canonical`** — the batches of a set.
-/
import Mathlib
import ScriptLint.Proofs.Collecting
import ScriptLint.Proofs.Protocol

namespace ScriptLint

namespace Schedule

/-! ### Cutting -/

/-- Pieces of a list, one behind the other.  All of them have the same length, except that the
last one may be shorter, but not empty. -/
structure Cuts {α : Type} (size : Nat) (items : List α) (pieces : List (List α)) : Prop where
  flatten : pieces.flatten = items
  full : ∀ piece ∈ pieces.dropLast, piece.length = size
  last : ∀ piece ∈ pieces.getLast?, 1 ≤ piece.length ∧ piece.length ≤ size

theorem cuts_chunks {α : Type} {size : Nat} (hsize : 0 < size) (items : List α) :
    Cuts size items (chunks size items) := by
  induction items using chunks.induct size with
  | case1 =>
    rw [chunks]
    exact ⟨rfl, by simp, by simp⟩
  | case2 first rest ih =>
    have hlength : (first :: rest.take (size - 1)).length = min (size - 1) rest.length + 1 := by
      rw [List.length_cons, List.length_take]
    have hflatten : ((first :: rest.take (size - 1)) ::
        chunks size (rest.drop (size - 1))).flatten = first :: rest := by
      rw [List.flatten_cons, ih.flatten, List.cons_append, List.take_append_drop]
    rw [chunks]
    refine ⟨hflatten, ?_, ?_⟩
    · cases hmore : chunks size (rest.drop (size - 1)) with
      | nil => simp
      | cons second more =>
        rw [List.dropLast_cons_cons]
        refine List.forall_mem_cons.mpr ⟨?_, fun piece hpiece => ih.full piece (hmore ▸ hpiece)⟩
        -- something is left behind the first piece, so that piece is full
        have hleft : rest.drop (size - 1) ≠ [] := by
          intro hnil
          rw [hnil, chunks] at hmore
          cases hmore
        have hlt : size - 1 < rest.length := by simpa using hleft
        omega
    · intro piece hpiece
      rw [List.getLast?_cons] at hpiece
      cases hmore : (chunks size (rest.drop (size - 1))).getLast? with
      | none =>
        obtain rfl : first :: rest.take (size - 1) = piece := by simpa [hmore] using hpiece
        omega
      | some last =>
        obtain rfl : last = piece := by simpa [hmore] using hpiece
        exact ih.last last hmore

/-! ### Deepest directory first -/

/-- The first path comes first: it is deeper, or as deep and its text comes first. -/
def Precedes (p q : Path) : Prop := q.depth < p.depth ∨ p.depth = q.depth ∧ p.text < q.text

/-- Texts are compared byte by byte. -/
theorem compare_eq_lt_iff {a b : Bytes} : compare a b = .lt ↔ a < b := by
  induction a generalizing b with
  | nil => cases b <;> simp
  | cons x a ih =>
    cases b with
    | nil => simp
    | cons y b =>
      rw [List.compare_cons_cons, Ordering.then_eq_lt, ih, List.cons_lt_cons_iff,
        Std.LawfulEqOrd.compare_eq_iff_eq, Std.compare_eq_lt]

theorem Precedes.trans {p q r : Path} (hpq : Precedes p q) (hqr : Precedes q r) :
    Precedes p r := by
  rcases hpq with hpq | ⟨hpq, hlt⟩ <;> rcases hqr with hqr | ⟨hqr, hlt'⟩
  · exact .inl (by omega)
  · exact .inl (by omega)
  · exact .inl (by omega)
  · exact .inr ⟨by omega, List.lt_trans hlt hlt'⟩

theorem Precedes.asymm {p q : Path} (hpq : Precedes p q) : ¬ Precedes q p := by
  intro hqp
  rcases hpq.trans hqp with hlt | ⟨_, hlt⟩
  · exact Nat.lt_irrefl _ hlt
  · exact List.lt_irrefl _ hlt

/-- Of two different paths the one precedes the other. -/
theorem precedes_trichotomy (p q : Path) : Precedes p q ∨ p = q ∨ Precedes q p := by
  rcases Nat.lt_trichotomy p.depth q.depth with hlt | heq | hlt
  · exact .inr (.inr (.inl hlt))
  · rcases Std.lt_trichotomy p.text q.text with hlt | hsame | hlt
    · exact .inl (.inr ⟨heq, hlt⟩)
    · exact .inr (.inl (by cases p; cases q; exact congrArg Path.mk hsame))
    · exact .inr (.inr (.inr ⟨heq.symm, hlt⟩))
  · exact .inl (.inl hlt)

theorem before_iff {p q : Path} : before p q = true ↔ Precedes p q ∨ p = q := by
  have htext : compare p.text q.text ≠ .gt ↔ p.text < q.text ∨ p.text = q.text := by
    have hsame : compare p.text q.text = .eq ↔ p.text = q.text :=
      Std.LawfulEqOrd.compare_eq_iff_eq
    rw [← compare_eq_lt_iff, ← hsame]
    cases compare p.text q.text <;> simp
  have hsame : p = q ↔ p.text = q.text := by
    cases p
    cases q
    exact Path.mk.injEq .. ▸ Iff.rfl
  simp only [before, Precedes, Bool.or_eq_true, decide_eq_true_eq, Bool.and_eq_true, beq_iff_eq,
    bne_iff_ne, htext]
  constructor
  · rintro (hlt | ⟨heq, hlt | htext⟩)
    · exact .inl (.inl hlt)
    · exact .inl (.inr ⟨heq, hlt⟩)
    · exact .inr (hsame.mpr htext)
  · rintro ((hlt | ⟨heq, hlt⟩) | rfl)
    · exact .inl hlt
    · exact .inr ⟨heq, .inl hlt⟩
    · exact .inr ⟨rfl, .inr rfl⟩

theorem before_trans (p q r : Path) (hpq : before p q = true) (hqr : before q r = true) :
    before p r = true := by
  rw [before_iff] at *
  rcases hpq with hpq | rfl
  · rcases hqr with hqr | rfl
    · exact .inl (hpq.trans hqr)
    · exact .inl hpq
  · exact hqr

theorem before_total (p q : Path) : (before p q || before q p) = true := by
  rw [Bool.or_eq_true, before_iff, before_iff]
  rcases precedes_trichotomy p q with h | rfl | h
  · exact .inl (.inl h)
  · exact .inl (.inr rfl)
  · exact .inr (.inl h)

/-- **Deepest directory first** there is one way to write different paths. -/
theorem eq_order_iff {s : PathSet} (hs : s.paths.Nodup) (ordered : List Path) :
    ordered = order .depthFirst s ↔ ordered.Perm s.paths ∧ ordered.Pairwise Precedes := by
  have hperm : (order .depthFirst s).Perm s.paths := List.mergeSort_perm _ _
  have hsorted : (order .depthFirst s).Pairwise Precedes := by
    have hbefore : (order .depthFirst s).Pairwise fun p q => before p q = true :=
      List.pairwise_mergeSort before_trans before_total s.paths
    refine (hbefore.and (hperm.nodup_iff.mpr hs)).imp fun ⟨hbefore, hne⟩ => ?_
    exact (before_iff.mp hbefore).resolve_right hne
  constructor
  · rintro rfl
    exact ⟨hperm, hsorted⟩
  · rintro ⟨hperm', hsorted'⟩
    exact (hperm'.trans hperm.symm).eq_of_pairwise
      (fun _ _ _ _ h h' => absurd h' h.asymm) hsorted' hsorted

end Schedule

/-! ### Sets of paths -/

namespace PathSet

theorem nodup_keys_insert {s : PathSet} (hs : (s.paths.map Path.key).Nodup) (p : Path) :
    ((s.insert p).paths.map Path.key).Nodup := by
  unfold insert
  split
  · exact hs
  · rename_i hnew
    rw [List.map_append, List.map_singleton]
    refine hs.append (List.nodup_singleton _) fun k hk hp => hnew ((contains_iff s p).mpr ?_)
    obtain ⟨q, hq, rfl⟩ := List.mem_map.mp hk
    exact ⟨q, hq, List.mem_singleton.mp hp⟩

/-- No path is in a set twice. -/
theorem nodup_ofList (paths : List Path) : ((ofList paths).paths.map Path.key).Nodup := by
  have hfold (s : PathSet) (hs : (s.paths.map Path.key).Nodup) :
      ((paths.foldl insert s).paths.map Path.key).Nodup := by
    induction paths generalizing s with
    | nil => exact hs
    | cons p rest ih => exact ih _ (nodup_keys_insert hs p)
  exact hfold empty List.nodup_nil

/-- A list without the same path twice makes the set with these paths in this order. -/
theorem ofList_eq {paths : List Path} (h : (paths.map Path.key).Nodup) :
    (ofList paths).paths = paths :=
  paths_foldl_insert h empty fun _ _ => rfl

end PathSet

/-! ### Batches -/

/-- Batches that are numbered from zero, and all full except for the last one. -/
structure Batch.Fill (size : Nat) (batches : List Batch) : Prop where
  indices : batches.map Batch.index = List.range batches.length
  full : ∀ b ∈ batches.dropLast, b.paths.length = size
  last : ∀ b ∈ batches.getLast?, 1 ≤ b.paths.length ∧ b.paths.length ≤ size

section

variable {s s' : PathSet} {concurrency multiplier : UInt64} {ordering : BatchOrder}

theorem paths_schedule (s : PathSet) (concurrency multiplier : UInt64) (ordering : BatchOrder) :
    (schedule s concurrency multiplier ordering).map Batch.paths =
      Schedule.chunks (Schedule.batchSize concurrency multiplier).toNat
        (Schedule.order ordering s) := by
  rw [schedule, List.map_map]
  exact List.zipIdx_map_fst 0 _

/-- Only the order of the paths matters for the batches. -/
theorem schedule_congr (h : Schedule.order ordering s = Schedule.order ordering s') :
    schedule s concurrency multiplier ordering = schedule s' concurrency multiplier ordering := by
  rw [schedule, h, schedule]

/-- Unless the size of a batch is zero, the batches are cut by it. -/
theorem cuts_batchSize (hsize : 0 < (Schedule.batchSize concurrency multiplier).toNat)
    (s : PathSet) (ordering : BatchOrder) :
    Schedule.Cuts (Schedule.batchSize concurrency multiplier).toNat (Schedule.order ordering s)
      ((schedule s concurrency multiplier ordering).map Batch.paths) := by
  rw [paths_schedule]
  exact Schedule.cuts_chunks hsize _

theorem fill_of_cuts {size : Nat} (hcuts : Schedule.Cuts size (Schedule.order ordering s)
      ((schedule s concurrency multiplier ordering).map Batch.paths)) :
    Batch.Fill size (schedule s concurrency multiplier ordering) := by
  refine ⟨index_schedule s concurrency multiplier ordering, fun b hb => ?_, fun b hb => ?_⟩
  · refine hcuts.full b.paths ?_
    rw [← List.map_dropLast]
    exact List.mem_map_of_mem hb
  · refine hcuts.last b.paths ?_
    rw [List.getLast?_map, Option.mem_def.mp hb]
    rfl

variable (hfits : max 1 concurrency.toNat * max 1 multiplier.toNat < 2 ^ 64)

include hfits

theorem cuts_schedule (ordering : BatchOrder) :
    Schedule.Cuts (max 1 concurrency.toNat * max 1 multiplier.toNat) (Schedule.order ordering s)
      ((schedule s concurrency multiplier ordering).map Batch.paths) := by
  have hsize : (Schedule.batchSize concurrency multiplier).toNat =
      max 1 concurrency.toNat * max 1 multiplier.toNat := by
    rw [Schedule.toNat_batchSize, Nat.mod_eq_of_lt hfits]
  have hpos : 0 < max 1 concurrency.toNat * max 1 multiplier.toNat :=
    Nat.mul_pos (by omega) (by omega)
  rw [← hsize] at hpos ⊢
  exact cuts_batchSize hpos s ordering

theorem flatMap_schedule : (schedule s concurrency multiplier ordering).flatMap Batch.paths =
    Schedule.order ordering s := by
  rw [List.flatMap_def]
  exact (cuts_schedule hfits ordering).flatten

theorem fill_schedule : Batch.Fill (max 1 concurrency.toNat * max 1 multiplier.toNat)
    (schedule s concurrency multiplier ordering) :=
  fill_of_cuts (cuts_schedule hfits ordering)

end

/-- What the batches of a set are for two factors of their size. -/
structure PathSet.Scheduled (s : PathSet) (concurrency multiplier : UInt64) : Prop where
  /-- The batches are numbered and full. -/
  fill : ∀ ordering, Batch.Fill (max 1 concurrency.toNat * max 1 multiplier.toNat)
    (schedule s concurrency multiplier ordering)
  /-- In the order of insertion they hold the paths as they are in the set. -/
  insertion : (schedule s concurrency multiplier .insertion).flatMap Batch.paths = s.paths
  /-- Deepest directory first they hold the one list of these paths that is in strict order. -/
  depthFirst : ∀ ordered,
    ordered = (schedule s concurrency multiplier .depthFirst).flatMap Batch.paths ↔
      ordered.Perm s.paths ∧ ordered.Pairwise Schedule.Precedes
  /-- They are the same for every set that holds the same paths with the same texts. -/
  congr : ∀ paths, (∀ p, p ∈ (PathSet.ofList paths).paths ↔ p ∈ s.paths) →
    schedule (.ofList paths) concurrency multiplier .depthFirst =
      schedule s concurrency multiplier .depthFirst
  /-- They are the batches of the set of all their paths. -/
  again : ∀ ordering,
    schedule (.ofList ((schedule s concurrency multiplier ordering).flatMap Batch.paths))
      concurrency multiplier ordering = schedule s concurrency multiplier ordering

/-- **The batches of a set are a canonical partition**, as long as their size fits a word. -/
theorem schedule_canonical (paths : List Path) {concurrency multiplier : UInt64}
    (hfits : max 1 concurrency.toNat * max 1 multiplier.toNat < 2 ^ 64) :
    (PathSet.ofList paths).Scheduled concurrency multiplier := by
  have hkeys (paths : List Path) := PathSet.nodup_ofList paths
  have hnodup (paths : List Path) : (PathSet.ofList paths).paths.Nodup := (hkeys paths).of_map
  have hdepth (paths ordered : List Path) := Schedule.eq_order_iff (hnodup paths) ordered
  refine ⟨fun ordering => fill_schedule hfits, flatMap_schedule hfits, fun ordered => ?_,
    fun others hsame => schedule_congr ?_, fun ordering => schedule_congr ?_⟩
  · rw [flatMap_schedule hfits]
    exact hdepth paths ordered
  · obtain ⟨hperm, hsorted⟩ := (hdepth others _).mp rfl
    have hothers := (List.perm_ext_iff_of_nodup (hnodup others) (hnodup paths)).mpr hsame
    exact (hdepth paths _).mpr ⟨hperm.trans hothers, hsorted⟩
  · rw [flatMap_schedule hfits]
    cases ordering with
    | insertion => exact PathSet.ofList_eq (hkeys paths)
    | depthFirst =>
      -- the set of the ordered paths has them in this order, and it is the only one
      obtain ⟨hperm, hsorted⟩ := (hdepth paths _).mp rfl
      have hset := PathSet.ofList_eq ((hperm.map Path.key).nodup_iff.mpr (hkeys paths))
      exact ((Schedule.eq_order_iff (hset.symm ▸ hperm.nodup_iff.mpr (hnodup paths)) _).mpr
        ⟨hset.symm ▸ .refl _, hsorted⟩).symm

/-- Five paths, two of them the same, in batches of two: a factor of zero counts as one. -/
theorem schedule_canonical_pairs :
    let paths : List Path := ["a.js", "src/b.js", "src/lib/c.js", "src//b.js", "src/a.js"]
    max 1 (0 : UInt64).toNat * max 1 (2 : UInt64).toNat < 2 ^ 64 ∧
      schedule (.ofList paths) 0 2 .depthFirst =
        [⟨0, ["src/lib/c.js", "src/a.js"]⟩, ⟨1, ["src/b.js", "a.js"]⟩] ∧
      (PathSet.ofList paths).Scheduled 0 2 :=
  ⟨by decide, by cbv, schedule_canonical _ (by decide)⟩

end ScriptLint
