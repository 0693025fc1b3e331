/-
Texts without the bytes of some spans.

Fixes that put nothing in the place of their spans leave the bytes that no span covers.  It
does not matter in which order they are proposed, and how often.

* **`Bytes.without`** — the bytes that no span covers;
* **`Fix.output_apply`** — what fixes that delete leave of a text.
-/
import ScriptLint.Proofs.FirstFixes

namespace ScriptLint

/-! ### Bytes that no span covers -/

/-- The byte at an offset lies in one of the spans. -/
def Span.covered (spans : List Span) (offset : Nat) : Bool :=
  spans.any fun s => s.start.toNat ≤ offset && offset < s.stop.toNat

/-- The bytes of the text from an offset on that lie in none of the spans. -/
def Bytes.without (spans : List Span) (pos : Nat) : Bytes → Bytes
  | [] => []
  | b :: rest =>
    if Span.covered spans pos then Bytes.without spans (pos + 1) rest
    else b :: Bytes.without spans (pos + 1) rest

variable {spans spans' : List Span} {pos pos' n : Nat} {text text' : Bytes}

theorem Span.covered_iff {offset : Nat} : Span.covered spans offset = true ↔
    ∃ s ∈ spans, s.start.toNat ≤ offset ∧ offset < s.stop.toNat := by
  simp [Span.covered]

theorem Span.covered_congr {offset : Nat} (h : ∀ s, s ∈ spans ↔ s ∈ spans') :
    Span.covered spans offset = Span.covered spans' offset := by
  rw [Bool.eq_iff_iff, Span.covered_iff, Span.covered_iff]
  exact exists_congr fun s => and_congr_left fun _ => h s

namespace Bytes

theorem without_append (spans : List Span) (pos : Nat) (text text' : Bytes) :
    without spans pos (text ++ text') =
      without spans pos text ++ without spans (pos + text.length) text' := by
  induction text generalizing pos with
  | nil => rfl
  | cons b text ih =>
    have hpos : pos + 1 + text.length = pos + (b :: text).length := by
      rw [List.length_cons, Nat.add_assoc, Nat.add_comm 1]
    simp only [List.cons_append, without, ih, hpos]
    split <;> rfl

/-- Only which bytes are covered matters. -/
theorem without_congr (h : ∀ i < text.length,
    Span.covered spans (pos + i) = Span.covered spans' (pos' + i)) :
    without spans pos text = without spans' pos' text := by
  induction text generalizing pos pos' with
  | nil => rfl
  | cons b text ih =>
    have hrest : without spans (pos + 1) text = without spans' (pos' + 1) text := by
      refine ih fun i hi => ?_
      rw [Nat.add_assoc, Nat.add_assoc, Nat.add_comm 1]
      exact h (i + 1) (Nat.succ_lt_succ hi)
    have hfirst : Span.covered spans pos = Span.covered spans' pos' := h 0 (Nat.succ_pos _)
    rw [without, without, hfirst, hrest]

/-- A text that no span touches stays. -/
theorem without_eq_self (h : ∀ i < text.length, Span.covered spans (pos + i) = false) :
    without spans pos text = text := by
  have hnone (pos : Nat) (text : Bytes) : without [] pos text = text := by
    induction text generalizing pos with
    | nil => rfl
    | cons b text ih => simp [without, Span.covered, ih]
  calc without spans pos text
    _ = without [] pos text := without_congr h
    _ = text := hnone pos text

/-- Of a text that the spans cover nothing stays. -/
theorem without_eq_nil (h : ∀ i < text.length, Span.covered spans (pos + i) = true) :
    without spans pos text = [] := by
  induction text generalizing pos with
  | nil => rfl
  | cons b text ih =>
    have hfirst : Span.covered spans pos = true := h 0 (Nat.succ_pos _)
    rw [without, if_pos hfirst]
    refine ih fun i hi => ?_
    rw [Nat.add_assoc, Nat.add_comm 1]
    exact h (i + 1) (Nat.succ_lt_succ hi)

/-- What no span touches stays in front of a text. -/
theorem without_append_of_free (h : ∀ i < text.length, Span.covered spans (pos + i) = false)
    (text' : Bytes) : without spans pos (text ++ text') =
      text ++ without spans (pos + text.length) text' := by
  rw [without_append, without_eq_self h]

/-- What the spans cover is gone from the front of a text. -/
theorem without_append_of_covered (h : ∀ i < text.length, Span.covered spans (pos + i) = true)
    (text' : Bytes) : without spans pos (text ++ text') =
      without spans (pos + text.length) text' := by
  rw [without_append, without_eq_nil h, List.nil_append]

end Bytes

/-! ### Fixes that delete -/

namespace Fix

variable {source : Bytes} {fixes : List Fix}

/-- A text from an offset on, cut at the ends of a span. -/
theorem drop_eq_slices {start stop cursor : Nat} (source : Bytes) (hstart : cursor ≤ start)
    (hstop : start ≤ stop) : source.drop cursor =
      source.slice cursor (start - cursor) ++ (source.slice start (stop - start) ++
        source.drop stop) := by
  have hcut {a b : Nat} (hab : a ≤ b) :
      source.drop a = source.slice a (b - a) ++ source.drop b := by
    have hdrop := (List.take_append_drop (b - a) (source.drop a)).symm
    rwa [List.drop_drop, Nat.add_sub_of_le hab] at hdrop
  rw [← hcut hstop, ← hcut hstart]

/-- Behind its place a fix does not matter. -/
theorem without_behind {span : Span} {spans : List Span} {pos : Nat} (h : span.stop.toNat ≤ pos)
    (text : Bytes) : Bytes.without (span :: spans) pos text = Bytes.without spans pos text := by
  refine Bytes.without_congr fun i _ => ?_
  have : ¬ pos + i < span.stop.toNat := by omega
  simp [Span.covered, this]

/-- Before the place of the first fix that is tried there is no other place. -/
theorem covered_before {first : Fix × Nat} {rest : List (Fix × Nat)} {pos : Nat}
    (hbefore : ∀ x ∈ rest, Before first x)
    (hvalid : first.1.span.start.toNat < first.1.span.stop.toNat)
    (hpos : pos < first.1.span.start.toNat) :
    Span.covered ((first :: rest).map fun x => x.1.span) pos = false := by
  rw [Bool.eq_false_iff]
  intro hcovered
  obtain ⟨span, hspan, hle, hlt⟩ := Span.covered_iff.mp hcovered
  obtain ⟨x, hx, rfl⟩ := List.mem_map.mp hspan
  rcases List.mem_cons.mp hx with rfl | hx
  · omega
  · rcases hbefore x hx with hbehind | ⟨hsame, _⟩
    · omega
    · rw [← hsame] at hle
      omega

/-- The text up to the place of the first fix that is tried is in no place, and the place
itself is gone. -/
theorem without_first {first : Fix × Nat} {rest : List (Fix × Nat)} {cursor : Nat}
    (hbefore : ∀ x ∈ rest, Before first x) (hstart : cursor ≤ first.1.span.start.toNat)
    (hnonempty : first.1.span.start.toNat < first.1.span.stop.toNat)
    (hinside : first.1.span.stop.toNat ≤ source.length) :
    Bytes.without ((first :: rest).map fun x => x.1.span) cursor (source.drop cursor) =
      source.slice cursor (first.1.span.start.toNat - cursor) ++
        Bytes.without (rest.map fun x => x.1.span) first.1.span.stop.toNat
          (source.drop first.1.span.stop.toNat) := by
  have hslice {a b : Nat} (hb : b ≤ source.length) : (source.slice a (b - a)).length = b - a := by
    rw [Bytes.slice, List.length_take, List.length_drop]
    omega
  have hfront := @hslice cursor first.1.span.start.toNat (by omega)
  have hmiddle := @hslice first.1.span.start.toNat first.1.span.stop.toNat hinside
  have hfree : ∀ i < first.1.span.start.toNat - cursor,
      Span.covered ((first :: rest).map fun x => x.1.span) (cursor + i) = false := fun i hi =>
    covered_before hbefore hnonempty (by omega)
  have hgone : ∀ i < first.1.span.stop.toNat - first.1.span.start.toNat,
      Span.covered ((first :: rest).map fun x => x.1.span) (first.1.span.start.toNat + i) =
        true := fun i hi =>
    Span.covered_iff.mpr ⟨first.1.span, List.mem_cons_self, Nat.le_add_right _ _, by omega⟩
  rw [drop_eq_slices source hstart (Nat.le_of_lt hnonempty),
    Bytes.without_append_of_free (by rwa [hfront]), hfront, Nat.add_sub_of_le hstart,
    Bytes.without_append_of_covered (by rwa [hmiddle]), hmiddle,
    Nat.add_sub_of_le (Nat.le_of_lt hnonempty), List.map_cons, without_behind (Nat.le_refl _)]

theorem output_applyFrom {cursor : Nat} {tried : List (Fix × Nat)}
    (hordered : tried.Pairwise Before)
    (hfits : ∀ x ∈ tried, x.1.span.start.toNat < x.1.span.stop.toNat ∧
      x.1.span.stop.toNat ≤ source.length)
    (hcursor : ∀ x ∈ tried, cursor ≤ x.1.span.start.toNat ∨ x.1.span.stop.toNat ≤ cursor)
    (hdeletes : ∀ x ∈ tried, x.1.content = []) :
    (applyFrom source cursor tried).output =
      Bytes.without (tried.map fun x => x.1.span) cursor (source.drop cursor) := by
  induction tried generalizing cursor with
  | nil => exact (Bytes.without_eq_self fun _ _ => rfl).symm
  | cons first rest ih =>
    obtain ⟨⟨hnonempty, hinside⟩, hfits⟩ := List.forall_mem_cons.mp hfits
    obtain ⟨hbefore, hordered⟩ := List.pairwise_cons.mp hordered
    obtain ⟨hfirst, hcursor⟩ := List.forall_mem_cons.mp hcursor
    obtain ⟨hdeletes, hrest⟩ := List.forall_mem_cons.mp hdeletes
    rw [applyFrom]
    split
    case isFalse hskipped =>
      have hbehind : first.1.span.stop.toNat ≤ cursor := by
        simp only [fits, Bool.and_eq_true, decide_eq_true_eq, UInt32.le_iff_toNat_le] at hskipped
        omega
      rw [List.map_cons, without_behind hbehind]
      exact ih hordered hfits hcursor hrest
    case isTrue happlied =>
      have hstart : cursor ≤ first.1.span.start.toNat := by
        simp only [fits, Bool.and_eq_true, decide_eq_true_eq] at happlied
        exact happlied.2
      have hpast : ∀ x ∈ rest, first.1.span.stop.toNat ≤ x.1.span.start.toNat ∨
          x.1.span.stop.toNat ≤ first.1.span.stop.toNat := fun x hx =>
        (hbefore x hx).imp id fun h =>
          Nat.le_of_eq (congrArg (fun s : Span => s.stop.toNat) h.1.symm)
      simp only [without_first hbefore hstart hnonempty hinside, hdeletes, List.append_nil,
        ih hordered hfits hpast hrest]

/-- **What fixes that delete leave** are the bytes that none of their spans covers. -/
theorem output_apply (h : Span.Separate source.length (fixes.map Fix.span))
    (hdeletes : ∀ f ∈ fixes, f.content = []) :
    (apply source fixes).output = Bytes.without (fixes.map Fix.span) 0 source := by
  have hplace {x : Fix × Nat} (hx : x ∈ tryOrder fixes) : x.1 ∈ fixes :=
    List.mem_of_getElem? (mem_tryOrder.mp hx)
  have hspan {x : Fix × Nat} (hx : x ∈ tryOrder fixes) : x.1.span ∈ fixes.map Fix.span :=
    List.mem_map_of_mem (hplace hx)
  have houtput : (apply source fixes).output =
      Bytes.without ((tryOrder fixes).map fun x => x.1.span) 0 source :=
    output_applyFrom (pairwise_tryOrder h)
      (fun x hx => ⟨h.nonempty _ (hspan hx), h.inside _ (hspan hx)⟩)
      (fun _ _ => .inl (Nat.zero_le _)) fun x hx => hdeletes _ (hplace hx)
  rw [houtput]
  have hperm : (tryOrder fixes).Perm fixes.zipIdx := List.mergeSort_perm _ _
  have hspans := (hperm.map Prod.fst).map Fix.span
  rw [List.zipIdx_map_fst, List.map_map] at hspans
  exact Bytes.without_congr fun i _ => Span.covered_congr fun s => hspans.mem_iff

end Fix

end ScriptLint
