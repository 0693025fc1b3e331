/-
Statements tile the tokens.

The loop over the statements of a segment stands outside of all brackets whenever it asks
for a statement, and every statement takes it further.  So the statements cover all tokens,
one behind the other, except for the semicolons between them; a `debugger` statement that is
listed after another statement lies inside of that one.

* **`Outline.Arrives`** — the indices at which the loop arrives;
* **`Outline.Tiling`** — a row of statements that covers the tokens;
* **`Outline.exists_tiling`** — the statements of an outline are such a row;
* **`Segment.parse_tiles`** — the same for a segment, with the guarded loop.
-/
import ScriptLint.Proofs.Debuggers
import ScriptLint.Proofs.Guards

namespace ScriptLint

/-- The statement stands at a byte range, which is not empty. -/
structure Statement.StandsAt (s : Statement) (range : Nat × Nat) : Prop where
  span : s.span = .ofOffsets range.1 range.2
  nonempty : range.1 < range.2

/-- A byte range whose offsets fit into a span. -/
theorem Statement.StandsAt.toNat_span {s : Statement} {range : Nat × Nat} (h : s.StandsAt range)
    (hstop : range.2 < 2 ^ 32) :
    s.span.start.toNat = range.1 ∧ s.span.stop.toNat = range.2 := by
  rw [h.span]
  exact Token.toNat_ofOffsets hstop (Nat.le_of_lt h.nonempty)

namespace Outline

section

variable (o : Outline)

/-- The indices at which the loop over the statements arrives: the beginning, the index behind
a semicolon, and the one that the reader of a statement returns. -/
inductive Arrives : Nat → Prop
  | start : Arrives 0
  | skip {i : Nat} : Arrives i → o.is i ";" = true → Arrives (i + 1)
  | next {i stop : Nat} {statements : List Statement} : Arrives i → i < o.size →
      o.is i ";" = false → o.statement i = .ok (statements, stop) → Arrives stop

/-- A statement is read at the index. -/
structure Reads (i : Nat) : Prop where
  arrives : o.Arrives i
  lt : i < o.size
  noMark : o.is i ";" = false

/-- The `debugger` statement at an index inside another statement. -/
def debuggerAt (i : Nat) : Statement :=
  { kind := .debugger, span := o.spanOf i (o.debuggerEnd i) }

end

/-- The byte range of the tokens from `i` up to `stop`. -/
def range (place : Nat → Nat × Nat) (i stop : Nat) : Nat × Nat :=
  ((place i).1, (place (stop - 1)).2)

variable {o : Outline} {i j k start stop : Nat}

/-! ### Steps of the loop -/

/-- The loop arrives outside of brackets only. -/
theorem Arrives.atTop (ho : o.Regular) (h : o.Arrives i) : o.AtTop i := by
  induction h with
  | start => exact .start o
  | skip _ hmark ih => exact ih.mark ho.nested hmark (by decide)
  | next _ hi _ hs ih =>
    obtain ⟨_, _, _, hcovers, _⟩ := covers_statement ho ih hi hs
    exact hcovers.top

theorem Reads.atTop (ho : o.Regular) (h : o.Reads i) : o.AtTop i := h.arrives.atTop ho

/-- **A call** of the reader takes the loop to an index ahead, outside of brackets. -/
theorem Reads.step {statements : List Statement} (ho : o.Regular) (h : o.Reads i)
    (hs : o.statement i = .ok (statements, stop)) : i < stop ∧ o.AtTop stop := by
  obtain ⟨_, _, _, hcovers, _⟩ := covers_statement ho (h.atTop ho) h.lt hs
  exact ⟨hcovers.reach, hcovers.top⟩

/-! ### Byte ranges -/

namespace Placed

variable {text : Bytes} {place : Nat → Nat × Nat}

theorem start_mono (h : o.Placed text place) (hij : i ≤ j) (hj : j < o.size) :
    (place i).1 ≤ (place j).1 := by
  rcases Nat.eq_or_lt_of_le hij with rfl | hlt
  · exact Nat.le_refl _
  · have := h.ordered i j hlt hj
    have := (h.stands i (by omega)).nonempty
    omega

theorem stop_mono (h : o.Placed text place) (hij : i ≤ j) (hj : j < o.size) :
    (place i).2 ≤ (place j).2 := by
  rcases Nat.eq_or_lt_of_le hij with rfl | hlt
  · exact Nat.le_refl _
  · have := h.ordered i j hlt hj
    have := (h.stands j hj).nonempty
    omega

/-- The span of a row of tokens is its byte range. -/
theorem spanOf_eq (h : o.Placed text place) (hi : i < stop) (hstop : stop ≤ o.size) :
    o.spanOf i stop = .ofOffsets (range place i stop).1 (range place i stop).2 := by
  rw [spanOf, if_neg (Nat.not_le.mpr hi), (h.stands i (by omega)).span,
    (h.stands (stop - 1) (by omega)).span]
  rfl

theorem range_nonempty (h : o.Placed text place) (hi : i < stop) (hstop : stop ≤ o.size) :
    (range place i stop).1 < (range place i stop).2 := by
  have hlast : (place i).1 ≤ (place (stop - 1)).1 := h.start_mono (by omega) (by omega)
  have := (h.stands (stop - 1) (by omega)).nonempty
  simp only [range]
  omega

theorem range_inside (h : o.Placed text place) (hi : i < stop) (hstop : stop ≤ o.size) :
    (range place i stop).2 ≤ text.length :=
  (h.stands (stop - 1) (by omega)).inside

/-- A row of tokens before another one. -/
theorem range_before (h : o.Placed text place) (hi : i < stop) (hk : stop ≤ k)
    (hsize : k < o.size) (stop' : Nat) : (range place i stop).2 ≤ (range place k stop').1 :=
  h.ordered (stop - 1) k (by omega) hsize

/-- A row of tokens inside another one. -/
theorem range_within {stop' : Nat} (h : o.Placed text place) (hi : i ≤ k) (hk : k < stop')
    (hstop : stop' ≤ stop) (hsize : stop ≤ o.size) :
    (range place i stop).1 ≤ (range place k stop').1 ∧
      (range place k stop').2 ≤ (range place i stop).2 :=
  ⟨h.start_mono hi (by omega), h.stop_mono (by omega) (by omega)⟩

end Placed

/-! ### Statements inside a statement -/

/-- The statements lie inside a byte range, each behind the ones before it. -/
def Inside (outer : Nat × Nat) (statements : List Statement) : Prop :=
  ∃ placed : List (Statement × (Nat × Nat)), placed.map Prod.fst = statements ∧
    (∀ p ∈ placed, p.1.StandsAt p.2 ∧ outer.1 ≤ p.2.1 ∧ p.2.2 ≤ outer.2) ∧
    placed.Pairwise fun a b => a.2.2 ≤ b.2.1

theorem debuggers_eq_map (start stop : Nat) :
    o.debuggers start stop = ((indices start stop).filter o.isDebugger).map o.debuggerAt := by
  rw [debuggers]
  induction indices start stop with
  | nil => rfl
  | cons i rest ih =>
    rw [List.filterMap_cons, List.filter_cons, ih]
    by_cases hdebugger : o.isDebugger i = true
    · simp only [hdebugger, if_true, List.map_cons]
      rfl
    · simp only [hdebugger, Bool.false_eq_true, if_false]

/-- No `debugger` begins before the one before it ends. -/
theorem debuggerEnd_le_of_lt (hij : i < j) (hj : o.isDebugger j = true) : o.debuggerEnd i ≤ j := by
  unfold debuggerEnd
  split
  case isTrue hmark =>
    -- the semicolon is not the word
    have hne : j ≠ i + 1 := by
      rintro rfl
      have hword := (Bool.and_eq_true_iff.mp hj).1
      rw [is_eq_false hmark (by decide)] at hword
      cases hword
    omega
  case isFalse => omega

/-- A statement takes the semicolon of a `debugger` in it. -/
theorem Ends.debuggerEnd_le (h : o.Ends i stop) (hk : k < stop)
    (hdebugger : o.isDebugger k = true) :
    o.debuggerEnd k ≤ stop := by
  unfold debuggerEnd
  split
  case isTrue hmark =>
    by_contra hlt
    obtain rfl : stop = k + 1 := by omega
    have hword := h.whole hmark
    rw [Nat.add_sub_cancel, (Bool.and_eq_true_iff.mp hdebugger).1] at hword
    cases hword
  case isFalse => exact hk

theorem inside_debuggers {text : Bytes} {place : Nat → Nat × Nat} (h : o.Placed text place)
    (hends : o.Ends (i + 1) stop) : Inside (range place i stop) (o.debuggers i stop) := by
  have hsize := hends.top.le
  have hmem {k : Nat} (hk : k ∈ (indices i stop).filter o.isDebugger) :
      i ≤ k ∧ k < stop ∧ o.isDebugger k = true ∧ o.debuggerEnd k ≤ stop := by
    obtain ⟨hk, hdebugger⟩ := List.mem_filter.mp hk
    obtain ⟨hle, hlt⟩ := Guarded.mem_indices.mp hk
    exact ⟨hle, hlt, hdebugger, hends.debuggerEnd_le hlt hdebugger⟩
  refine ⟨((indices i stop).filter o.isDebugger).map fun k =>
    (o.debuggerAt k, range place k (o.debuggerEnd k)), ?_, fun p hp => ?_, ?_⟩
  · rw [debuggers_eq_map, List.map_map]
    rfl
  · obtain ⟨k, hk, rfl⟩ := List.mem_map.mp hp
    obtain ⟨hle, hlt, hdebugger, hend⟩ := hmem hk
    have hnonempty := o.lt_debuggerEnd k
    exact ⟨⟨h.spanOf_eq hnonempty (by omega), h.range_nonempty hnonempty (by omega)⟩,
      h.range_within hle hnonempty hend hsize⟩
  · rw [List.pairwise_map]
    have hsorted : (indices i stop).Pairwise (· < ·) := List.pairwise_lt_range' ..
    refine (hsorted.sublist List.filter_sublist).imp_of_mem fun {a b} ha hb hab => ?_
    obtain ⟨hle, hlt, hdebugger, hend⟩ := hmem hb
    exact h.range_before (o.lt_debuggerEnd a) (debuggerEnd_le_of_lt hab hdebugger) (by omega) _

end Outline

/-! ### Tiles -/

/-- A statement with the `debugger` statements listed after it, and the range of its tokens. -/
structure Tile where
  start : Nat
  stop : Nat
  main : Statement
  lifted : List Statement

namespace Tile

/-- The statements of a tile. -/
def statements (t : Tile) : List Statement := t.main :: t.lifted

/-- The token is one of the tile. -/
def Has (t : Tile) (k : Nat) : Prop := t.start ≤ k ∧ k < t.stop

/-- The tile is what the reader finds at its start: it goes from one index outside of brackets
to another one ahead, and its statements stand where its tokens do. -/
structure Fits (o : Outline) (place : Nat → Nat × Nat) (t : Tile) : Prop where
  reads : o.Reads t.start
  statement : o.statement t.start = .ok (t.statements, t.stop)
  ahead : t.start < t.stop
  atTop : o.AtTop t.stop
  standsAt : t.main.StandsAt (Outline.range place t.start t.stop)
  inside : Outline.Inside (Outline.range place t.start t.stop) t.lifted

end Tile

namespace Outline

variable {o : Outline} {i j k start stop : Nat} {text : Bytes} {place : Nat → Nat × Nat}

/-- From an index on the tiles are disjoint and in order, and cover every token except for the
semicolons at which the loop arrives. -/
structure Tiling (o : Outline) (place : Nat → Nat × Nat) (i : Nat) (tiles : List Tile) : Prop where
  fits : ∀ t ∈ tiles, t.Fits o place
  behind : ∀ t ∈ tiles, i ≤ t.start
  ordered : tiles.Pairwise fun a b => a.stop ≤ b.start
  covers : ∀ k, i ≤ k → k < o.size →
    (∃ t ∈ tiles, t.Has k) ∨
      (o.Arrives k ∧ o.is k ";" = true ∧ ∀ t ∈ tiles, ¬ t.Has k)

/-- What the reader finds at a call is a tile. -/
theorem Reads.fits {statements : List Statement} (ho : o.Regular) (hplace : o.Placed text place)
    (h : o.Reads i) (hs : o.statement i = .ok (statements, stop)) :
    ∃ t : Tile, t.start = i ∧ t.stop = stop ∧ t.statements = statements ∧ t.Fits o place := by
  obtain ⟨s, lifted, rfl, hcovers, hlifted⟩ := covers_statement ho (h.atTop ho) h.lt hs
  have hlt : i < stop := hcovers.reach
  refine ⟨⟨i, stop, s, lifted⟩, rfl, rfl, rfl, h, hs, hlt, hcovers.top, ?_, ?_⟩
  · refine ⟨?_, hplace.range_nonempty hlt hcovers.top.le⟩
    rw [hcovers.span, hplace.spanOf_eq hlt hcovers.top.le]
  · rcases hlifted with rfl | rfl
    · exact ⟨[], rfl, by simp, .nil⟩
    · exact inside_debuggers hplace hcovers.toEnds

/-- A semicolon at which the loop arrives belongs to no tile. -/
theorem Tiling.skip {tiles : List Tile} (h : o.Tiling place (i + 1) tiles) (harrives : o.Arrives i)
    (hmark : o.is i ";" = true) : o.Tiling place i tiles := by
  refine ⟨h.fits, fun t ht => Nat.le_of_succ_le (h.behind t ht), h.ordered, fun k hk hsize => ?_⟩
  rcases Nat.eq_or_lt_of_le hk with rfl | hlt
  · refine .inr ⟨harrives, hmark, fun t ht hhas => ?_⟩
    have := h.behind t ht
    have := hhas.1
    omega
  · exact h.covers k hlt hsize

/-- A tile before the others. -/
theorem Tiling.cons {tiles : List Tile} {t : Tile} (h : o.Tiling place t.stop tiles)
    (ht : t.Fits o place) : o.Tiling place t.start (t :: tiles) := by
  have hahead := ht.ahead
  refine ⟨List.forall_mem_cons.mpr ⟨ht, h.fits⟩,
    List.forall_mem_cons.mpr ⟨Nat.le_refl _, fun t' ht' => ?_⟩,
    List.pairwise_cons.mpr ⟨h.behind, h.ordered⟩, fun k hk hsize => ?_⟩
  · have := h.behind t' ht'
    omega
  · -- a token is in the first tile or behind it
    by_cases hlt : k < t.stop
    · exact .inl ⟨t, List.mem_cons_self, hk, hlt⟩
    · rcases h.covers k (Nat.not_lt.mp hlt) hsize with ⟨t', ht', hhas⟩ | ⟨harrives, hmark, hnone⟩
      · exact .inl ⟨t', List.mem_cons_of_mem _ ht', hhas⟩
      · refine .inr ⟨harrives, hmark, List.forall_mem_cons.mpr ⟨fun hhas => hlt hhas.2, hnone⟩⟩

/-- **The statements from an index on**, the loop having arrived there, are the ones of a
tiling. -/
theorem exists_tiling {body : List Statement} (ho : o.Regular) (hplace : o.Placed text place)
    (h : o.Arrives i) (hbody : o.bodyFrom i = .ok body) :
    ∃ tiles, o.Tiling place i tiles ∧ body = tiles.flatMap Tile.statements := by
  fun_induction startsFrom o i generalizing body with
  | case1 i hsize hmark ih =>
    rw [bodyFrom, if_pos hsize, if_pos hmark] at hbody
    obtain ⟨tiles, htiles, rfl⟩ := ih (h.skip hmark) hbody
    exact ⟨tiles, htiles.skip h hmark, rfl⟩
  | case2 i hsize hmark failure hfailure =>
    rw [bodyFrom, if_pos hsize, if_neg hmark, hfailure] at hbody
    cases hbody
  | case3 i hsize hmark statements stop hstatement ih =>
    have hmark' : o.is i ";" = false := by simpa using hmark
    obtain ⟨t, rfl, rfl, rfl, ht⟩ := Reads.fits ho hplace ⟨h, hsize, hmark'⟩ hstatement
    obtain ⟨rest, hrest, rfl⟩ := bodyFrom_eq_append hsize hmark hstatement hbody
    rw [Nat.max_eq_left ht.ahead] at ih hrest
    obtain ⟨tiles, htiles, rfl⟩ := ih (h.next hsize hmark' hstatement) hrest
    exact ⟨t :: tiles, htiles.cons ht, rfl⟩
  | case4 i hsize =>
    rw [bodyFrom, if_neg hsize] at hbody
    obtain rfl := Except.ok.inj hbody
    exact ⟨[], ⟨by simp, by simp, .nil, fun k hk hlt => absurd hlt (by omega)⟩, rfl⟩

/-! ### Spans -/

/-- The spans of the statements increase, and those of the `debugger` statements lie inside
the ones of the statements before them, one behind the other. -/
structure Spaced (tiles : List Tile) : Prop where
  nonempty : ∀ t ∈ tiles, t.main.span.start < t.main.span.stop
  increasing : tiles.Pairwise fun a b => a.main.span.stop ≤ b.main.span.start
  inside : ∀ t ∈ tiles, ∀ d ∈ t.lifted,
    t.main.span.start ≤ d.span.start ∧ d.span.stop ≤ t.main.span.stop
  apart : ∀ t ∈ tiles, t.lifted.Pairwise fun a b => a.span.stop ≤ b.span.start

theorem Tiling.range_before {tiles : List Tile} (h : o.Tiling place i tiles)
    (hplace : o.Placed text place) :
    tiles.Pairwise fun a b => (range place a.start a.stop).2 ≤ (range place b.start b.stop).1 := by
  refine h.ordered.imp_of_mem fun {a b} ha hb hab => ?_
  exact hplace.range_before (h.fits a ha).ahead hab (h.fits b hb).reads.lt _

/-- In a text that is not too long the spans tell the byte ranges. -/
theorem Tiling.spaced {tiles : List Tile} (h : o.Tiling place i tiles)
    (hplace : o.Placed text place) (hlength : text.length < 2 ^ 32) : Spaced tiles := by
  have hfit {t : Tile} (ht : t ∈ tiles) : (range place t.start t.stop).2 < 2 ^ 32 :=
    Nat.lt_of_le_of_lt (hplace.range_inside (h.fits t ht).ahead (h.fits t ht).atTop.le) hlength
  have hspan {t : Tile} (ht : t ∈ tiles) := (h.fits t ht).standsAt.toNat_span (hfit ht)
  refine ⟨fun t ht => ?_, ?_, fun t ht => ?_, fun t ht => ?_⟩
  -- each fact about spans is one about the byte ranges that they tell
  · rw [UInt32.lt_iff_toNat_lt, (hspan ht).1, (hspan ht).2]
    exact (h.fits t ht).standsAt.nonempty
  · refine (h.range_before hplace).imp_of_mem fun {a b} ha hb hab => ?_
    rw [UInt32.le_iff_toNat_le, (hspan ha).2, (hspan hb).1]
    exact hab
  · obtain ⟨placed, hplaced, hwithin, _⟩ := (h.fits t ht).inside
    rw [← hplaced]
    intro d hd
    obtain ⟨p, hp, rfl⟩ := List.mem_map.mp hd
    obtain ⟨hstands, hstart, hstop⟩ := hwithin p hp
    have hdspan := hstands.toNat_span (Nat.lt_of_le_of_lt hstop (hfit ht))
    rw [UInt32.le_iff_toNat_le, UInt32.le_iff_toNat_le, (hspan ht).1, (hspan ht).2, hdspan.1,
      hdspan.2]
    exact ⟨hstart, hstop⟩
  · obtain ⟨placed, hplaced, hwithin, hapart⟩ := (h.fits t ht).inside
    rw [← hplaced, List.pairwise_map]
    refine hapart.imp_of_mem fun {p q} hp hq hpq => ?_
    have hpspan := (hwithin p hp).1.toNat_span (Nat.lt_of_le_of_lt (hwithin p hp).2.2 (hfit ht))
    have hqspan := (hwithin q hq).1.toNat_span (Nat.lt_of_le_of_lt (hwithin q hq).2.2 (hfit ht))
    rw [UInt32.le_iff_toNat_le, hpspan.2, hqspan.1]
    exact hpq

end Outline

/-! ### Segments -/

namespace Segment

variable {s : Segment} {o : Outline}

/-- **Reading the statements of a segment** whose tokens are cut and whose brackets are
paired.  The loop ends, and no token and no partner is missing, as the guarded one has the
same result.  A statement is read outside of brackets only, and takes the loop further, to an
index outside of brackets.  If no statement is malformed, the statements tile the tokens:
what the reader finds at each call covers a range of tokens, the ranges are disjoint and in
order, and only the semicolons between them are left out.  So the spans of these statements
increase, and the `debugger` statements found in one of them lie inside of it, apart from each
other. -/
theorem parse_tiles (h : s.outline = .ok o) :
    Outline.Guarded.body o = some o.body ∧
    (∀ i, o.Reads i → o.depth i = 0 ∧ ∀ statements stop,
      o.statement i = .ok (statements, stop) → i < stop ∧ stop ≤ o.size ∧ o.depth stop = 0) ∧
    ∀ script, s.parse = .ok script → ∃ place tiles, o.Placed s.text place ∧
      script.body = tiles.flatMap Tile.statements ∧ o.Tiling place 0 tiles ∧
      (tiles.Pairwise fun a b =>
        (Outline.range place a.start a.stop).2 ≤ (Outline.range place b.start b.stop).1) ∧
      (s.text.length < 2 ^ 32 → Outline.Spaced tiles) := by
  have ho := regular_outline h
  refine ⟨Outline.guarded_body ho, fun i hi => ?_, fun script hscript => ?_⟩
  · refine ⟨(hi.atTop ho).depth, fun statements stop hs => ?_⟩
    obtain ⟨hlt, htop⟩ := hi.step ho hs
    exact ⟨hlt, htop.le, htop.depth⟩
  · obtain ⟨place, hplace⟩ := placed_outline h
    obtain ⟨o', ho', hbody⟩ := exists_outline hscript
    obtain rfl := Except.ok.inj (h.symm.trans ho')
    obtain ⟨tiles, htiles, hstatements⟩ := Outline.exists_tiling ho hplace .start hbody
    exact ⟨place, tiles, hplace, hstatements, htiles, htiles.range_before hplace,
      htiles.spaced hplace⟩

/-- A call, a semicolon that belongs to no statement, and a block with a `debugger` in it. -/
theorem parse_tiles_block : ∃ (s : Segment) (o : Outline) (script : Script)
    (place : Nat → Nat × Nat) (tiles : List Tile),
    s.text = "f();;\n\x7b debugger \x7d\n" ∧ s.outline = .ok o ∧ s.parse = .ok script ∧
    script.body.map Statement.kind = [.expression, .expression, .debugger] ∧
    Outline.Guarded.body o = some o.body ∧ script.body = tiles.flatMap Tile.statements ∧
    o.Tiling place 0 tiles ∧ Outline.Spaced tiles := by
  obtain ⟨s, hs⟩ : ∃ s : Segment, s = ⟨"f();;\n\x7b debugger \x7d\n", 0, ⟨false, false⟩⟩ :=
    ⟨_, rfl⟩
  have hkinds : s.parse.map (fun script => script.body.map Statement.kind) =
      .ok [.expression, .expression, .debugger] := by
    rw [hs]
    decide +kernel
  cases hscript : s.parse with
  | error failure => simp [hscript, Except.map] at hkinds
  | ok script =>
    rw [hscript] at hkinds
    obtain ⟨o, ho, _⟩ := exists_outline hscript
    obtain ⟨hguarded, _, htiles⟩ := parse_tiles ho
    obtain ⟨place, tiles, _, hbody, htiling, _, hspaced⟩ := htiles script hscript
    have hlength : s.text.length < 2 ^ 32 := by
      rw [hs]
      decide
    exact ⟨s, o, script, place, tiles, by rw [hs], ho, hscript, Except.ok.inj hkinds, hguarded,
      hbody, htiling, hspaced hlength⟩

end Segment

end ScriptLint
