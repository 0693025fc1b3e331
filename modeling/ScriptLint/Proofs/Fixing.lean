/-
What fixes leave standing.

A fix takes out the bytes of its span and nothing else.  Pieces of a text that no span
reaches into are still there after the fixes, in their order, and so are pieces of the
scripts in a file, which lie in it one behind the other:

* **`Standing`** — pieces stand in a text one after another;
* **`Fix.standing_apply`** — pieces apart from all fixes stand in the text after them;
* **`FileForm.laid_split`** — the segments of a file lie in it, in order.
-/
import Mathlib.Tactic.Common
import ScriptLint.Fix
import ScriptLint.Proofs.Scanning
import ScriptLint.Segment

namespace ScriptLint

/-! ### Pieces of a text -/

/-- The pieces stand in the text, each behind the one before. -/
def Standing : List Bytes → Bytes → Prop
  | [], _ => True
  | piece :: rest, text => ∃ before after, text = before ++ piece ++ after ∧ Standing rest after

theorem Standing.prepend {pieces : List Bytes} {text : Bytes} (h : Standing pieces text)
    (before : Bytes) : Standing pieces (before ++ text) := by
  cases pieces with
  | nil => trivial
  | cons piece rest =>
    obtain ⟨before', after, rfl, hrest⟩ := h
    exact ⟨before ++ before', after, by simp only [List.append_assoc], hrest⟩

theorem Standing.append {pieces pieces' : List Bytes} {text text' : Bytes}
    (h : Standing pieces text) (h' : Standing pieces' text') :
    Standing (pieces ++ pieces') (text ++ text') := by
  induction pieces generalizing text with
  | nil => exact h'.prepend text
  | cons piece rest ih =>
    obtain ⟨before, after, rfl, hrest⟩ := h
    exact ⟨before, after ++ text', by simp only [List.append_assoc], ih hrest⟩

/-- Two parts of a text that follow each other. -/
theorem Bytes.slice_append (text : Bytes) {lo mid hi : Nat} (h : lo ≤ mid) (h' : mid ≤ hi) :
    text.slice lo (mid - lo) ++ text.slice mid (hi - mid) = text.slice lo (hi - lo) := by
  obtain ⟨n, rfl⟩ := Nat.exists_eq_add_of_le h
  obtain ⟨m, rfl⟩ := Nat.exists_eq_add_of_le h'
  have hlength : lo + n + m - lo = n + m := by omega
  rw [hlength, Nat.add_sub_cancel_left, Nat.add_sub_cancel_left, Bytes.slice, Bytes.slice,
    Bytes.slice, List.take_add, List.drop_drop]

/-- A part of a part of a text. -/
theorem Bytes.slice_slice (text : Bytes) {start length i n : Nat} (h : i + n ≤ length) :
    (text.slice start length).slice i n = text.slice (start + i) n := by
  rw [Bytes.slice, Bytes.slice, Bytes.slice, List.drop_take, List.take_take, List.drop_drop,
    Nat.min_eq_left (by omega)]

/-- Spans one behind the other, from an offset on and up to another one. -/
def Row (lo hi : Nat) : List Span → Prop
  | [] => lo ≤ hi
  | s :: rest => lo ≤ s.start.toNat ∧ s.start.toNat ≤ s.stop.toNat ∧ Row s.stop.toNat hi rest

theorem Row.le {lo hi : Nat} {pieces : List Span} (h : Row lo hi pieces) : lo ≤ hi := by
  induction pieces generalizing lo with
  | nil => exact h
  | cons s rest ih =>
    obtain ⟨hlo, hle, hrest⟩ := h
    exact Nat.le_trans hlo (Nat.le_trans hle (ih hrest))

theorem row_of_pairwise {lo hi : Nat} {pieces : List Span} (hle : lo ≤ hi)
    (hin : ∀ s ∈ pieces, lo ≤ s.start.toNat ∧ s.start.toNat ≤ s.stop.toNat ∧ s.stop.toNat ≤ hi)
    (hordered : pieces.Pairwise fun a b => a.stop.toNat ≤ b.start.toNat) : Row lo hi pieces := by
  induction pieces generalizing lo with
  | nil => exact hle
  | cons s rest ih =>
    obtain ⟨hbefore, hrest⟩ := List.pairwise_cons.mp hordered
    obtain ⟨hlo, hs, hhi⟩ := hin s List.mem_cons_self
    refine ⟨hlo, hs, ih hhi (fun s' hs' => ⟨hbefore s' hs', ?_⟩) hrest⟩
    exact (hin s' (List.mem_cons_of_mem _ hs')).2

/-- Spans that stay apart from a range lie before it and behind it. -/
theorem Row.split {lo hi a b : Nat} {pieces : List Span} (h : Row lo hi pieces) (hlo : lo ≤ a)
    (hhi : b ≤ hi) (hapart : ∀ s ∈ pieces, s.stop.toNat ≤ a ∨ b ≤ s.start.toNat) :
    ∃ early late, pieces = early ++ late ∧ Row lo a early ∧ Row b hi late := by
  induction pieces generalizing lo with
  | nil => exact ⟨[], [], rfl, hlo, hhi⟩
  | cons s rest ih =>
    obtain ⟨hstart, hle, hrest⟩ := h
    rcases hapart s List.mem_cons_self with hbefore | hafter
    · obtain ⟨early, late, rfl, hearly, hlate⟩ :=
        ih hrest hbefore fun s' hs' => hapart s' (List.mem_cons_of_mem _ hs')
      exact ⟨s :: early, late, rfl, ⟨hstart, hle, hearly⟩, hlate⟩
    · exact ⟨[], s :: rest, rfl, hlo, hafter, hle, hrest⟩

/-- What the spans cover stands in the part of the text where they are. -/
theorem Row.standing {lo hi : Nat} {pieces : List Span} (h : Row lo hi pieces) (source : Bytes) :
    Standing (pieces.map (·.cut source)) (source.slice lo (hi - lo)) := by
  induction pieces generalizing lo with
  | nil => trivial
  | cons s rest ih =>
    obtain ⟨hlo, hle, hrest⟩ := h
    refine ⟨source.slice lo (s.start.toNat - lo), _, ?_, ih hrest⟩
    show _ = _ ++ source.slice s.start.toNat (s.stop.toNat - s.start.toNat) ++ _
    rw [Bytes.slice_append _ hlo hle, Bytes.slice_append _ (Nat.le_trans hlo hle) hrest.le]

/-! ### Fixes -/

namespace Fix

theorem standing_applyFrom {source : Bytes} {cursor : Nat} {fixes : List (Fix × Nat)}
    {pieces : List Span} (h : Row cursor source.length pieces)
    (hapart : ∀ f ∈ fixes, ∀ s ∈ pieces,
      s.stop.toNat ≤ f.1.span.start.toNat ∨ f.1.span.stop.toNat ≤ s.start.toNat) :
    Standing (pieces.map (·.cut source)) (applyFrom source cursor fixes).output := by
  induction fixes generalizing cursor pieces with
  | nil =>
    have hstanding := h.standing source
    rwa [Bytes.slice, List.take_of_length_le (by simp)] at hstanding
  | cons f rest ih =>
    obtain ⟨f, i⟩ := f
    have hrest := fun f' hf' => hapart f' (List.mem_cons_of_mem _ hf')
    unfold applyFrom
    split
    case isFalse => exact ih h hrest
    case isTrue hfits =>
      simp only [fits, Bool.and_eq_true, decide_eq_true_eq] at hfits
      obtain ⟨⟨_, hinside⟩, hcursor⟩ := hfits
      obtain ⟨early, late, rfl, hearly, hlate⟩ :=
        h.split hcursor hinside (hapart _ List.mem_cons_self)
      have hlater := ih hlate fun f' hf' s hs => hrest f' hf' s (List.mem_append_right _ hs)
      rw [List.map_append]
      simp only [List.append_assoc]
      exact (hearly.standing source).append (hlater.prepend _)

/-- **Pieces apart from all fixes** stand in the text after them. -/
theorem standing_apply {source : Bytes} {fixes : List Fix} {pieces : List Span}
    (h : Row 0 source.length pieces)
    (hapart : ∀ f ∈ fixes, ∀ s ∈ pieces,
      s.stop.toNat ≤ f.span.start.toNat ∨ f.span.stop.toNat ≤ s.start.toNat) :
    Standing (pieces.map (·.cut source)) (apply source fixes).output := by
  refine standing_applyFrom h fun f hf => hapart f.1 ?_
  have hzip : f ∈ fixes.zipIdx := (List.mergeSort_perm _ _).mem_iff.mp hf
  exact List.mem_of_getElem? (List.mem_zipIdx_iff_getElem?.mp hzip)

end Fix

/-! ### Segments of a file -/

/-- The segment is the part of the text that begins at its offset. -/
structure Segment.LiesIn (text : Bytes) (s : Segment) : Prop where
  inside : s.offset.toNat + s.text.length ≤ text.length
  slice : s.text = text.slice s.offset.toNat s.text.length

/-- The one segment ends before the other one begins. -/
def Segment.Precedes (a b : Segment) : Prop := a.offset.toNat + a.text.length ≤ b.offset.toNat

/-- Segments lie in a text from an offset on, in order. -/
structure LaidFrom (text : Bytes) (pos : Nat) (segments : List Segment) : Prop where
  liesIn : ∀ s ∈ segments, s.LiesIn text ∧ pos ≤ s.offset.toNat
  ordered : segments.Pairwise Segment.Precedes

theorem Bytes.lt_of_find? {pattern text : Bytes} {n : Nat} (hpattern : pattern ≠ [])
    (h : Bytes.find? pattern text = some n) : n < text.length := by
  induction text generalizing n with
  | nil => simp [Bytes.find?, hpattern] at h
  | cons b rest ih =>
    rw [Bytes.find?] at h
    split at h
    · obtain rfl := Option.some.inj h
      exact Nat.zero_lt_succ _
    · obtain ⟨m, hm, rfl⟩ := Option.map_eq_some_iff.mp h
      exact Nat.succ_lt_succ (ih hm)

theorem Bytes.lt_of_findFolded? {pattern text : Bytes} {n : Nat} (hpattern : pattern ≠ [])
    (h : Bytes.findFolded? pattern text = some n) : n < text.length := by
  simpa using Bytes.lt_of_find? hpattern h

/-- Segments from a later offset on are ones from an earlier offset on. -/
theorem LaidFrom.mono {text : Bytes} {pos pos' : Nat} {segments : List Segment}
    (h : LaidFrom text pos' segments) (hle : pos ≤ pos') : LaidFrom text pos segments :=
  ⟨fun s hs => ⟨(h.liesIn s hs).1, Nat.le_trans hle (h.liesIn s hs).2⟩, h.ordered⟩

/-- Of two items of a list in which each is related to the later ones, one is related to the
other. -/
theorem eq_or_of_pairwise {α : Type} {R : α → α → Prop} {xs : List α} {a b : α}
    (h : xs.Pairwise R) (ha : a ∈ xs) (hb : b ∈ xs) : a = b ∨ R a b ∨ R b a := by
  have hforth : xs.Pairwise fun a b => a = b ∨ R a b ∨ R b a := h.imp fun hab => .inr (.inl hab)
  have hback : xs.Pairwise (flip fun a b => a = b ∨ R a b ∨ R b a) :=
    h.imp fun hab => .inr (.inr hab)
  exact hforth.forall_of_forall_of_flip (fun a _ => .inl rfl) hback ha hb

/-- Of two segments one precedes the other one. -/
theorem LaidFrom.eq_or_precedes {text : Bytes} {pos : Nat} {segments : List Segment}
    {a b : Segment} (h : LaidFrom text pos segments) (ha : a ∈ segments) (hb : b ∈ segments) :
    a = b ∨ a.Precedes b ∨ b.Precedes a := eq_or_of_pairwise h.ordered ha hb

/-- A segment before the ones from behind it on. -/
theorem LaidFrom.cons {text : Bytes} {start length next : Nat} {segments : List Segment}
    {dialect : Dialect} (hlength : text.length < 2 ^ 32) (hinside : start + length ≤ text.length)
    (hnext : start + length ≤ next) (h : LaidFrom text next segments) :
    LaidFrom text start (⟨text.slice start length, start.toUInt32, dialect⟩ :: segments) := by
  have hstart : start.toUInt32.toNat = start := by
    simp only [Nat.toUInt32, UInt32.toNat_ofNat']
    omega
  have hsize : (text.slice start length).length = length := by
    simp only [Bytes.slice, List.length_take, List.length_drop]
    omega
  refine ⟨fun s hs => ?_, List.pairwise_cons.mpr ⟨fun s hs => ?_, h.ordered⟩⟩
  · rcases List.mem_cons.mp hs with rfl | hs
    · exact ⟨⟨by rw [hstart, hsize]; exact hinside, by rw [hstart, hsize]⟩,
        Nat.le_of_eq hstart.symm⟩
    · exact ⟨(h.liesIn s hs).1, by have := (h.liesIn s hs).2; omega⟩
  · have := (h.liesIn s hs).2
    simp only [Segment.Precedes, hstart, hsize]
    omega

theorem Segment.laid_ofMarkupFrom {text : Bytes} {pos : Nat} {segments : List Segment}
    (hlength : text.length < 2 ^ 32) (h : Segment.ofMarkupFrom pos (text.drop pos) = .ok segments) :
    LaidFrom text pos segments := by
  have hnil (pos : Nat) : LaidFrom text pos [] := ⟨by simp, .nil⟩
  induction hn : text.length - pos using Nat.strongRecOn generalizing pos segments with
  | _ n ih =>
    -- what is left behind some bytes is what is left from an offset behind them
    have hlater {k : Nat} {segments : List Segment} (hk : 0 < k) (hpos : pos < text.length)
        (h : Segment.ofMarkupFrom (pos + k) ((text.drop pos).drop k) = .ok segments) :
        LaidFrom text (pos + k) segments := by
      rw [List.drop_drop] at h
      exact ih _ (by omega) h rfl
    rw [Segment.ofMarkupFrom] at h
    split at h
    · obtain rfl := Except.ok.inj h
      exact hnil pos
    rename_i tag htag
    have hpos : pos < text.length := by
      have := Bytes.lt_of_findFolded? (by decide) htag
      rw [List.length_drop] at this
      omega
    simp only at h
    split at h
    · split at h
      · obtain rfl := Except.ok.inj h
        exact hnil pos
      · exact (hlater (by omega) hpos h).mono (by omega)
    split at h
    · exact (hlater (by omega) hpos h).mono (by omega)
    split at h
    · cases h
    rename_i opening hopening
    split at h
    · exact (hlater (by omega) hpos h).mono (by omega)
    split at h
    · cases h
    rename_i length hclosing
    have hinside := Bytes.lt_of_findFolded? (by decide) hclosing
    simp only [List.length_drop] at hinside
    obtain ⟨rest, hrest, h⟩ := bind_ok h
    obtain rfl := Except.ok.inj h
    have hslice : Bytes.slice (text.drop pos) (tag + 7 + opening.length) length =
        Bytes.slice text (pos + (tag + 7 + opening.length)) length := by
      unfold Bytes.slice
      rw [List.drop_drop]
    rw [hslice]
    exact ((hlater (by omega) hpos hrest).cons hlength (by omega) (by omega)).mono (by omega)

/-- **The segments of a file** lie in it, in order. -/
theorem FileForm.laid_split {form : FileForm} {extension text : Bytes} {segments : List Segment}
    (hlength : text.length < 2 ^ 32) (h : form.split extension text = .ok segments) :
    LaidFrom text 0 segments := by
  cases form with
  | markup => exact Segment.laid_ofMarkupFrom hlength h
  | script =>
    simp only [FileForm.split, Segment.ofScript] at h
    split at h
    · obtain rfl := Except.ok.inj h
      refine ⟨fun s hs => ?_, List.pairwise_singleton _ _⟩
      obtain rfl := List.mem_singleton.mp hs
      exact ⟨⟨by simp, by simp [Bytes.slice]⟩, Nat.zero_le _⟩
    · cases h

end ScriptLint
