/-
The order in which fixes are proposed.

Fixes with different spans can be tried in one order only, whatever the order in which they
were proposed: the walk over them takes the same steps, and a fix differs in its position alone.
So the text does not change when fixes are proposed in another order, and each fix is applied
or skipped as before.  This needs no more than different spans; they may overlap, be inverted or
end behind the text.

* **`Fix.rearranged`** — the same fixes in another order;
* **`Fix.tryOrder_rearranged`** — they are tried one after the other as before;
* **`Fix.applyFrom_renamed`** — the walk only hands positions on;
* **`Fix.apply_rearranged`** — the text is the same, and so are the fixes that were applied.
-/
import Mathlib
import ScriptLint.Proofs.Merging

namespace ScriptLint

namespace Fix

variable {fixes : List Fix}

/-- The fixes in another order: each position has the fix from the position that it is sent to. -/
def rearranged (fixes : List Fix) (order : Equiv.Perm (Fin fixes.length)) : List Fix :=
  List.ofFn fun i => fixes[order i]

/-- The position that a position is sent to. -/
def origin {count : Nat} (order : Equiv.Perm (Fin count)) (i : Nat) : Nat :=
  if h : i < count then order ⟨i, h⟩ else i

/-! ### One order to try them in -/

theorem zipIdx_eq_ofFn (fixes : List Fix) :
    fixes.zipIdx = List.ofFn fun i : Fin fixes.length => (fixes[i], i.val) := by
  refine List.ext_getElem (by simp) fun i hi hi' => ?_
  simp

/-- Fixes in another order, but with their first positions. -/
theorem zipIdx_rearranged (order : Equiv.Perm (Fin fixes.length)) :
    (rearranged fixes order).zipIdx.map (fun x => (x.1, origin order x.2)) =
      List.ofFn ((fun i : Fin fixes.length => (fixes[i], i.val)) ∘ order) := by
  refine List.ext_getElem (by simp [rearranged]) fun i hi hi' => ?_
  have hlt : i < fixes.length := by simpa using hi'
  simp [rearranged, origin, hlt]

/-- Two fixes of which each is tried no later than the other one are the same, if no span is
proposed twice. -/
theorem eq_of_notAfter (hdistinct : (fixes.map Fix.span).Nodup) {a b : Fix × Nat}
    (ha : a ∈ tryOrder fixes) (hb : b ∈ tryOrder fixes) (hab : notAfter a b = true)
    (hba : notAfter b a = true) : a = b := by
  have hspan : a.1.span = b.1.span := by
    rw [notAfter_iff] at hab hba
    have hstart : a.1.span.start = b.1.span.start := UInt32.toNat_inj.mp (by omega)
    have hstop : a.1.span.stop = b.1.span.stop := UInt32.toNat_inj.mp (by omega)
    exact (Span.mk.injEq ..).mpr ⟨hstart, hstop⟩
  have ha := mem_tryOrder.mp ha
  have hb := mem_tryOrder.mp hb
  have hplace : (fixes.map Fix.span)[a.2]? = (fixes.map Fix.span)[b.2]? := by
    rw [List.getElem?_map, List.getElem?_map, ha, hb, Option.map_some, Option.map_some, hspan]
  have hlt : a.2 < (fixes.map Fix.span).length := by
    rw [List.length_map]
    exact (List.getElem?_eq_some_iff.mp ha).1
  have hposition : a.2 = b.2 := (List.getElem?_inj hlt hdistinct).mp hplace
  rw [hposition, hb] at ha
  exact Prod.ext (Option.some.inj ha).symm hposition

theorem pairwise_notAfter_tryOrder (fixes : List Fix) :
    (tryOrder fixes).Pairwise fun a b => notAfter a b = true :=
  List.pairwise_mergeSort notAfter_trans notAfter_total fixes.zipIdx

/-- **Fixes with different spans** are tried one after the other as before, when they are
proposed in another order. -/
theorem tryOrder_rearranged (hdistinct : (fixes.map Fix.span).Nodup)
    (order : Equiv.Perm (Fin fixes.length)) :
    (tryOrder (rearranged fixes order)).map (fun x => (x.1, origin order x.2)) =
      tryOrder fixes := by
  have hperm : ((tryOrder (rearranged fixes order)).map fun x => (x.1, origin order x.2)).Perm
      (tryOrder fixes) := by
    refine ((List.mergeSort_perm _ _).map _).trans ?_
    rw [zipIdx_rearranged]
    refine (order.ofFn_comp_perm _).trans ?_
    rw [← zipIdx_eq_ofFn]
    exact (List.mergeSort_perm _ _).symm
  refine hperm.eq_of_pairwise (fun a b ha hb hab hba => ?_)
    (List.pairwise_map.mpr (pairwise_notAfter_tryOrder _)) (pairwise_notAfter_tryOrder fixes)
  exact eq_of_notAfter hdistinct (hperm.subset ha) hb hab hba

/-! ### The walk over them -/

/-- The walk looks at fixes and not at their positions, which it only hands on. -/
theorem applyFrom_renamed (source : Bytes) (cursor : Nat) (rename : Nat → Nat)
    (tried : List (Fix × Nat)) :
    applyFrom source cursor (tried.map fun x => (x.1, rename x.2)) =
      { output := (applyFrom source cursor tried).output
        applied := (applyFrom source cursor tried).applied.map rename
        skipped := (applyFrom source cursor tried).skipped.map rename } := by
  induction tried generalizing cursor with
  | nil => rfl
  | cons first rest ih =>
    obtain ⟨f, i⟩ := first
    rw [List.map_cons, applyFrom, applyFrom]
    split
    · simp only [ih, List.map_cons]
    · simp only [ih, List.map_cons]

/-- Two results are the same, if each position of the first one is sent to another one. -/
structure Carries {count : Nat} (order : Equiv.Perm (Fin count)) (r r' : FixResult) : Prop where
  output : r.output = r'.output
  applied : (r.applied.map (origin order)).Perm r'.applied
  skipped : (r.skipped.map (origin order)).Perm r'.skipped

/-- **The order in which fixes are proposed does not matter**, unless two of them have the same
span: the text is the same, and the fixes that are applied and skipped are the same ones. -/
theorem apply_rearranged (source : Bytes) {fixes : List Fix}
    (hdistinct : (fixes.map Fix.span).Nodup) (order : Equiv.Perm (Fin fixes.length)) :
    Carries order (apply source (rearranged fixes order)) (apply source fixes) := by
  have hwalk := applyFrom_renamed source 0 (origin order) (tryOrder (rearranged fixes order))
  rw [tryOrder_rearranged hdistinct] at hwalk
  refine ⟨?_, ?_, ?_⟩
  · simp only [apply, hwalk]
  · simp only [apply, hwalk]
    exact ((List.mergeSort_perm _ _).map _).trans (List.mergeSort_perm _ _).symm
  · simp only [apply, hwalk]
    exact ((List.mergeSort_perm _ _).map _).trans (List.mergeSort_perm _ _).symm

/-- Spans that touch, lie in one another, are inverted and end behind the text: from the last one
to the first, the same two fixes are applied. -/
theorem apply_rearranged_backwards :
    let fixes : List Fix :=
      [⟨⟨1, 4⟩, "x"⟩, ⟨⟨3, 2⟩, ""⟩, ⟨⟨4, 4⟩, "y"⟩, ⟨⟨2, 4⟩, "z"⟩, ⟨⟨4, 9⟩, ""⟩]
    let order : Equiv.Perm (Fin fixes.length) := Fin.revPerm
    (fixes.map Fix.span).Nodup ∧ rearranged fixes order = fixes.reverse ∧
      apply "abcdef" fixes = ⟨"axyef", [0, 2], [1, 3, 4]⟩ ∧
      Carries order (apply "abcdef" (rearranged fixes order)) (apply "abcdef" fixes) :=
  ⟨by decide, by decide, by cbv, apply_rearranged "abcdef" (by decide) Fin.revPerm⟩

end Fix

end ScriptLint
