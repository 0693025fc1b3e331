/-
Merging fixes into a text.

Whatever fixes are proposed, in any order, overlapping, empty, inverted or behind the end of
the text, applying them is an edit of the text: each of them is applied or refused, those that
are applied stand in a row, and a refused one could not have stood beside them.  The invariant
of the walk is about its cursor: it is where the last applied fix ends, and that fix was tried
first, so what begins before the cursor begins inside of it.

* **`Fix.Refused`** — why a fix is refused, given the ones that are applied;
* **`Fix.applyFrom_refused`** — the walk refuses no fix without a reason;
* **`Fix.Splits`** — the fixes of a result, those that are applied and those that are left;
* **`Fix.Merged`** — a result that merges fixes into a text;
* **`Fix.apply_merges`** — applying fixes has such a result.
-/
import ScriptLint.Proofs.FirstFixes

namespace ScriptLint

namespace Fix

variable {source output : Bytes} {fixes : List Fix} {cursor : Nat}

/-! ### Fixes in a row -/

/-- How many bytes the spans of some fixes hold. -/
def removed (fixes : List Fix) : Nat :=
  (fixes.map fun f => f.span.stop.toNat - f.span.start.toNat).sum

/-- How many bytes some fixes put in the place of their spans. -/
def inserted (fixes : List Fix) : Nat := (fixes.map fun f => f.content.length).sum

namespace Replaces

/-- Each of the fixes stands in the text, behind the cursor. -/
theorem inside (h : Replaces source cursor fixes output) : ∀ f ∈ fixes,
    cursor ≤ f.span.start.toNat ∧ f.span.start.toNat ≤ f.span.stop.toNat ∧
      f.span.stop.toNat ≤ source.length := by
  induction h with
  | done => simp
  | fix hbefore hspan hinside _ ih =>
    refine List.forall_mem_cons.mpr ⟨⟨hbefore, hspan, hinside⟩, fun g hg => ?_⟩
    obtain ⟨hbehind, hg⟩ := ih g hg
    exact ⟨Nat.le_trans hbefore (Nat.le_trans hspan hbehind), hg⟩

/-- The fixes stand one behind the other. -/
theorem pairwise (h : Replaces source cursor fixes output) :
    fixes.Pairwise fun f g => f.span.stop.toNat ≤ g.span.start.toNat := by
  induction h with
  | done => exact .nil
  | fix _ _ _ h ih => exact .cons (fun g hg => (h.inside g hg).1) ih

/-- What the fixes take out and put in makes the difference in length. -/
theorem length (h : Replaces source cursor fixes output) (hcursor : cursor ≤ source.length) :
    cursor + output.length + removed fixes = source.length + inserted fixes := by
  induction h with
  | done cursor =>
    simp only [removed, inserted, List.map_nil, List.sum_nil, List.length_drop]
    omega
  | @fix cursor f rest output hbefore hspan hinside _ ih =>
    have hrest := ih hinside
    have hslice : (source.slice cursor (f.span.start.toNat - cursor)).length =
        f.span.start.toNat - cursor := by
      rw [Bytes.slice, List.length_take, List.length_drop]
      omega
    simp only [removed, inserted, List.map_cons, List.sum_cons, List.length_append, hslice] at *
    omega

end Replaces

/-! ### Fixes that are refused -/

/-- Why a fix is refused for a text with a given length: its span is inverted, or ends behind
the text, or begins inside the span of one of the applied fixes. -/
def Refused (length : Nat) (applied : List Fix) (f : Fix) : Prop :=
  f.span.stop.toNat < f.span.start.toNat ∨ length < f.span.stop.toNat ∨
    ∃ a ∈ applied, a.span.start.toNat ≤ f.span.start.toNat ∧
      f.span.start.toNat < a.span.stop.toNat

theorem Refused.mono {length : Nat} {applied applied' : List Fix} {f : Fix}
    (h : Refused length applied f) (hsub : applied ⊆ applied') : Refused length applied' f :=
  h.imp_right fun h => h.imp_right fun ⟨a, ha, hbegins⟩ => ⟨a, hsub ha, hbegins⟩

/-- **The fixes that a walk applies and refuses.** A fix that stands in the text, but behind none
of the ones that are applied, is refused only for the cursor with which the walk began. -/
theorem applyFrom_refused (source : Bytes) (cursor : Nat) {tried : List (Fix × Nat)}
    (hordered : tried.Pairwise fun a b => a.1.span.start.toNat ≤ b.1.span.start.toNat) :
    ∃ row left : List (Fix × Nat), (row ++ left).Perm tried ∧
      (applyFrom source cursor tried).applied = row.map Prod.snd ∧
      (applyFrom source cursor tried).skipped = left.map Prod.snd ∧
      Replaces source cursor (row.map Prod.fst) (applyFrom source cursor tried).output ∧
      ∀ x ∈ left, x.1.span.start.toNat < cursor ∨
        Refused source.length (row.map Prod.fst) x.1 := by
  induction tried generalizing cursor with
  | nil => exact ⟨[], [], .nil, rfl, rfl, .done cursor, by simp⟩
  | cons first rest ih =>
    obtain ⟨f, i⟩ := first
    obtain ⟨hfirst, hordered⟩ := List.pairwise_cons.mp hordered
    rw [applyFrom]
    split
    case isTrue hfits =>
      obtain ⟨row, left, hperm, happlied, hskipped, hrow, hleft⟩ := ih f.span.stop.toNat hordered
      simp only [fits, Bool.and_eq_true, decide_eq_true_eq, UInt32.le_iff_toNat_le] at hfits
      obtain ⟨⟨hspan, hinside⟩, hbefore⟩ := hfits
      refine ⟨(f, i) :: row, left, hperm.cons _, congrArg (i :: ·) happlied, hskipped,
        .fix hbefore hspan hinside hrow, fun x hx => .inr ?_⟩
      rcases hleft x hx with hearly | hrefused
      · -- it is tried after `f`, and begins before `f` ends
        have hx : x ∈ rest := hperm.subset (List.mem_append_right _ hx)
        exact .inr (.inr ⟨f, List.mem_cons_self, hfirst x hx, hearly⟩)
      · exact hrefused.mono (List.subset_cons_self ..)
    case isFalse hfits =>
      obtain ⟨row, left, hperm, happlied, hskipped, hrow, hleft⟩ := ih cursor hordered
      simp only [fits, Bool.and_eq_true, decide_eq_true_eq, UInt32.le_iff_toNat_le] at hfits
      refine ⟨row, (f, i) :: left, List.perm_middle.trans (hperm.cons _), happlied,
        congrArg (i :: ·) hskipped, hrow, List.forall_mem_cons.mpr ⟨?_, hleft⟩⟩
      unfold Refused
      dsimp only
      omega

/-! ### Merging -/

/-- The fixes that a list of positions picks. -/
def picked (fixes : List Fix) (positions : List Nat) : List Fix :=
  positions.filterMap (fixes[·]?)

theorem picked_map_snd {row : List (Fix × Nat)} (h : ∀ x ∈ row, fixes[x.2]? = some x.1) :
    picked fixes (row.map Prod.snd) = row.map Prod.fst := by
  induction row with
  | nil => rfl
  | cons x rest ih =>
    obtain ⟨hx, hrest⟩ := List.forall_mem_cons.mp h
    rw [List.map_cons, picked, List.filterMap_cons, hx, ← picked, ih hrest, List.map_cons]

/-- Positions without duplicates, when they are sorted. -/
theorem pairwise_lt_mergeSort {positions : List Nat} (h : positions.Nodup) :
    positions.mergeSort.Pairwise (· < ·) := by
  have htrans (i j k : Nat) (hij : decide (i ≤ j) = true) (hjk : decide (j ≤ k) = true) :
      decide (i ≤ k) = true :=
    decide_eq_true (Nat.le_trans (of_decide_eq_true hij) (of_decide_eq_true hjk))
  have htotal (i j : Nat) : (decide (i ≤ j) || decide (j ≤ i)) = true := by
    simp [Nat.le_total]
  have hle := List.pairwise_mergeSort htrans htotal positions
  have hne : positions.mergeSort.Nodup := (List.mergeSort_perm ..).nodup_iff.mpr h
  exact (hle.and hne).imp fun ⟨hle, hne⟩ => Nat.lt_of_le_of_ne (of_decide_eq_true hle) hne

theorem pairwise_start_tryOrder (fixes : List Fix) : (tryOrder fixes).Pairwise
    fun a b => a.1.span.start.toNat ≤ b.1.span.start.toNat := by
  refine (List.pairwise_mergeSort notAfter_trans notAfter_total fixes.zipIdx).imp fun hle => ?_
  have := notAfter_iff.mp hle
  omega

/-- A result splits fixes into a row of fixes that are applied, and the ones that are left, each
with its position. -/
structure Splits (source : Bytes) (fixes : List Fix) (r : FixResult)
    (row left : List (Fix × Nat)) : Prop where
  own : ∀ x ∈ row ++ left, fixes[x.2]? = some x.1
  positions : (row.map Prod.snd ++ left.map Prod.snd).Perm (List.range fixes.length)
  applied : r.applied = (row.map Prod.snd).mergeSort
  skipped : r.skipped = (left.map Prod.snd).mergeSort
  replaces : Replaces source 0 (row.map Prod.fst) r.output
  refused : ∀ x ∈ left, Refused source.length (row.map Prod.fst) x.1

theorem exists_splits (source : Bytes) (fixes : List Fix) :
    ∃ row left, Splits source fixes (apply source fixes) row left := by
  obtain ⟨row, left, hperm, happlied, hskipped, hrow, hleft⟩ :=
    applyFrom_refused source 0 (pairwise_start_tryOrder fixes)
  have hpositions : (row.map Prod.snd ++ left.map Prod.snd).Perm (List.range fixes.length) := by
    rw [← List.map_append]
    refine (hperm.map Prod.snd).trans ?_
    rw [tryOrder_eq, List.range_eq_range', ← List.zipIdx_map_snd 0 fixes]
    exact (List.mergeSort_perm ..).map Prod.snd
  exact ⟨row, left, {
    own := fun x hx => mem_tryOrder.mp (hperm.subset hx)
    positions := hpositions
    applied := by rw [apply, happlied]
    skipped := by rw [apply, hskipped]
    replaces := hrow
    refused := fun x hx => (hleft x hx).resolve_left (Nat.not_lt_zero _) }⟩

/-- A result that merges fixes into a text. -/
structure Merged (source : Bytes) (fixes : List Fix) (r : FixResult) : Prop where
  /-- The positions of the fixes that are applied are sorted. -/
  applied_sorted : r.applied.Pairwise (· < ·)
  /-- The positions of the fixes that are skipped are sorted. -/
  skipped_sorted : r.skipped.Pairwise (· < ·)
  /-- No fix is both applied and skipped. -/
  disjoint : r.applied.Disjoint r.skipped
  /-- Each fix is applied or skipped. -/
  all : ∀ i, i ∈ r.applied ∨ i ∈ r.skipped ↔ i < fixes.length
  /-- The span of an applied fix is not inverted, and stands in the text. -/
  inside : ∀ i ∈ r.applied, ∀ f, fixes[i]? = some f →
    f.span.start.toNat ≤ f.span.stop.toNat ∧ f.span.stop.toNat ≤ source.length
  /-- Of two applied fixes one ends before the other one begins. -/
  apart : ∀ i ∈ r.applied, ∀ j ∈ r.applied, i ≠ j → ∀ f g, fixes[i]? = some f →
    fixes[j]? = some g →
      f.span.stop.toNat ≤ g.span.start.toNat ∨ g.span.stop.toNat ≤ f.span.start.toNat
  /-- A skipped fix could not have been applied as well. -/
  refused : ∀ i ∈ r.skipped, ∀ f, fixes[i]? = some f →
    Refused source.length (picked fixes r.applied) f
  /-- The output is the text with the span of each applied fix replaced, in the order of their
  places. -/
  output : ∃ row : List Nat, row.Perm r.applied ∧ Replaces source 0 (picked fixes row) r.output
  /-- How long the output is. -/
  length : r.output.length + removed (picked fixes r.applied) =
    source.length + inserted (picked fixes r.applied)

namespace Splits

variable {r : FixResult} {row left : List (Fix × Nat)} {f : Fix} {i : Nat}

theorem nodup (h : Splits source fixes r row left) :
    (row.map Prod.snd ++ left.map Prod.snd).Nodup :=
  h.positions.nodup_iff.mpr List.nodup_range

theorem mem_applied_iff (h : Splits source fixes r row left) :
    i ∈ r.applied ↔ i ∈ row.map Prod.snd := by
  rw [h.applied, List.mem_mergeSort]

theorem mem_skipped_iff (h : Splits source fixes r row left) :
    i ∈ r.skipped ↔ i ∈ left.map Prod.snd := by
  rw [h.skipped, List.mem_mergeSort]

/-- An applied position is that of a fix in the row. -/
theorem mem_row (h : Splits source fixes r row left) (hi : i ∈ r.applied)
    (hf : fixes[i]? = some f) : (f, i) ∈ row := by
  obtain ⟨x, hx, rfl⟩ := List.mem_map.mp (h.mem_applied_iff.mp hi)
  obtain rfl := Option.some.inj (hf.symm.trans (h.own x (List.mem_append_left _ hx)))
  exact hx

/-- A skipped position is that of a fix which is left. -/
theorem mem_left (h : Splits source fixes r row left) (hi : i ∈ r.skipped)
    (hf : fixes[i]? = some f) : (f, i) ∈ left := by
  obtain ⟨x, hx, rfl⟩ := List.mem_map.mp (h.mem_skipped_iff.mp hi)
  obtain rfl := Option.some.inj (hf.symm.trans (h.own x (List.mem_append_right _ hx)))
  exact hx

theorem picked_row (h : Splits source fixes r row left) :
    picked fixes (row.map Prod.snd) = row.map Prod.fst :=
  picked_map_snd fun x hx => h.own x (List.mem_append_left _ hx)

theorem perm_applied (h : Splits source fixes r row left) :
    (row.map Prod.snd).Perm r.applied :=
  h.applied ▸ (List.mergeSort_perm ..).symm

theorem perm_picked (h : Splits source fixes r row left) :
    (picked fixes r.applied).Perm (row.map Prod.fst) :=
  h.picked_row ▸ h.perm_applied.symm.filterMap _

theorem merged (h : Splits source fixes r row left) : Merged source fixes r where
  applied_sorted := by
    rw [h.applied]
    exact pairwise_lt_mergeSort (List.nodup_append'.mp h.nodup).1
  skipped_sorted := by
    rw [h.skipped]
    exact pairwise_lt_mergeSort (List.nodup_append'.mp h.nodup).2.1
  disjoint := by
    intro i hi hi'
    exact (List.nodup_append'.mp h.nodup).2.2 (h.mem_applied_iff.mp hi) (h.mem_skipped_iff.mp hi')
  all i := by
    rw [h.mem_applied_iff, h.mem_skipped_iff, ← List.mem_append, h.positions.mem_iff,
      List.mem_range]
  inside := by
    intro i hi f hf
    exact (h.replaces.inside f (List.mem_map_of_mem (h.mem_row hi hf))).2
  apart := by
    intro i hi j hj hne f g hf hg
    have hordered := List.pairwise_map.mp h.replaces.pairwise
    rcases eq_or_of_pairwise hordered (h.mem_row hi hf) (h.mem_row hj hg) with hsame | hapart
    · exact absurd (congrArg Prod.snd hsame) hne
    · exact hapart
  refused := by
    intro i hi f hf
    exact (h.refused _ (h.mem_left hi hf)).mono h.perm_picked.symm.subset
  output := ⟨row.map Prod.snd, h.perm_applied, h.picked_row.symm ▸ h.replaces⟩
  length := by
    have hlength := h.replaces.length (Nat.zero_le _)
    have hremoved : removed (picked fixes r.applied) = removed (row.map Prod.fst) :=
      (h.perm_picked.map _).sum_nat
    have hinserted : inserted (picked fixes r.applied) = inserted (row.map Prod.fst) :=
      (h.perm_picked.map _).sum_nat
    omega

end Splits

/-- **Applying fixes merges them**, whatever the fixes are: as many as fit are applied, and
nothing else of the text changes. -/
theorem apply_merges (source : Bytes) (fixes : List Fix) :
    Merged source fixes (apply source fixes) := by
  obtain ⟨row, left, h⟩ := exists_splits source fixes
  exact h.merged

/-- Fixes in any order: an insertion and a deletion that touch are both applied, and an insertion
inside of the deleted place, an inverted span and one behind the end are skipped. -/
example : apply "abcdef" [⟨⟨3, 5⟩, ""⟩, ⟨⟨3, 3⟩, "x"⟩, ⟨⟨4, 4⟩, "y"⟩, ⟨⟨2, 1⟩, "z"⟩, ⟨⟨5, 7⟩, ""⟩] =
    ⟨"abcxf", [0, 1], [2, 3, 4]⟩ := by
  cbv

end Fix

end ScriptLint
