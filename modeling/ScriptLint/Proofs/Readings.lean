/-
Readings of a text.

The tokens of a text are found by passing a filler, reading a lexeme, and going on behind it.
Told as a relation, this does not mention where lines begin, and the text in front of a
reading can be changed:

* **`Reading`** — the tokens that are found from an offset on;
* **`reading_of_scanFrom`** — what a scan finds is a reading;
* **`Reading.scanFrom`** — what is a reading, a scan finds;
* **`hashbang`** — how much of a text stands before the script.
-/
import ScriptLint.Proofs.Exchange

namespace ScriptLint

variable {elements : Bool} {last : Option Token} {frames : List Frame} {onNewLine : Bool}
  {pos : Nat} {b : UInt8} {text rest : Bytes} {tokens : List Token}

/-! ### Gaps -/

/-- The text around the first occurrence of a text. -/
theorem Bytes.find?_split {pattern : Bytes} (hpattern : pattern ≠ []) {n : Nat}
    (h : Bytes.find? pattern text = some n) :
    ∃ before after, text = before ++ (pattern ++ after) ∧ before.length = n ∧
      ¬ pattern <:+: before := by
  induction text generalizing n with
  | nil => simp [Bytes.find?, hpattern] at h
  | cons b text ih =>
    rw [Bytes.find?] at h
    split at h
    · rename_i hstart
      obtain rfl := Option.some.inj h
      obtain ⟨after, hafter⟩ := List.isPrefixOf_iff_prefix.mp hstart
      exact ⟨[], after, hafter.symm, rfl, by simpa [List.infix_nil] using hpattern⟩
    · rename_i hstart
      obtain ⟨m, hm, rfl⟩ := Option.map_eq_some_iff.mp h
      obtain ⟨before, after, rfl, rfl, hbefore⟩ := ih hm
      refine ⟨b :: before, after, rfl, rfl, fun hin => ?_⟩
      rcases List.infix_cons_iff.mp hin with hbegins | hin
      · refine hstart (List.isPrefixOf_iff_prefix.mpr (hbegins.trans ?_))
        exact List.cons_prefix_cons.mpr ⟨rfl, List.prefix_append _ _⟩
      · exact hbefore hin

/-- A gap is a line feed, a blank, or one of the two comments. -/
theorem Piece.gap_cases {extra : Nat} {breaks : Bool}
    (h : Piece.first elements last frames pos b rest = .ok (.gap extra breaks)) :
    (extra = 0 ∧ (b = '\n' ∨ isBlank b = true)) ∨
      (b = '/' ∧ ∃ more, rest = ('/' :: more : Bytes) ∧
        extra = (more.takeWhile (!Bytes.isLineFeed ·)).length + 1) ∨
      (b = '/' ∧ ∃ body more, rest = ('*' :: (body ++ ('*' :: '/' :: more : Bytes)) : Bytes) ∧
        extra = body.length + 3 ∧ ¬ ("*/" : Bytes) <:+: body) := by
  have htemplate (frames : List Frame) :
      templatePiece frames pos rest ≠ .ok (.gap extra breaks) := by
    unfold templatePiece
    split <;> simp [faultAt]
  have hlength {n : Nat} {line : Bool}
      (h : (.ok (.gap n line) : Except Failure Piece) = .ok (.gap extra breaks)) : extra = n :=
    (Piece.gap.inj (Except.ok.inj h)).1.symm
  unfold Piece.first at h
  rcases ite_eq_iff.mp h with ⟨hfeed, h⟩ | ⟨_, h⟩
  · exact .inl ⟨hlength h, .inl hfeed⟩
  rcases ite_eq_iff.mp h with ⟨hblank, h⟩ | ⟨_, h⟩
  · exact .inl ⟨hlength h, .inr hblank⟩
  rcases ite_eq_iff.mp h with ⟨⟨hslash, hhead⟩, h⟩ | ⟨_, h⟩
  · obtain ⟨more, rfl⟩ := List.head?_eq_some_iff.mp hhead
    rw [List.takeWhile_cons_of_pos (by decide)] at h
    exact .inr (.inl ⟨hslash, more, rfl, hlength h⟩)
  rcases ite_eq_iff.mp h with ⟨⟨hslash, hhead⟩, h⟩ | ⟨_, h⟩
  · obtain ⟨more, rfl⟩ := List.head?_eq_some_iff.mp hhead
    split at h
    · simp [faultAt] at h
    · rename_i n hend
      obtain ⟨body, after, hmore, rfl, hbody⟩ := Bytes.find?_split (by decide) hend
      exact .inr (.inr ⟨hslash, body, after, congrArg (List.cons _) hmore, hlength h, hbody⟩)
  -- everything else is a lexeme
  rcases ite_eq_iff.mp h with ⟨_, h⟩ | ⟨_, h⟩
  · split at h <;> simp [faultAt] at h
  rcases ite_eq_iff.mp h with ⟨_, h⟩ | ⟨_, h⟩; · exact absurd h (htemplate _)
  split at h; · exact absurd h (htemplate _)
  rcases ite_eq_iff.mp h with ⟨_, h⟩ | ⟨_, h⟩; · simp at h
  rcases ite_eq_iff.mp h with ⟨_, h⟩ | ⟨_, h⟩; · simp at h
  rcases ite_eq_iff.mp h with ⟨_, h⟩ | ⟨_, h⟩
  · split at h <;> simp [faultAt] at h
  rcases ite_eq_iff.mp h with ⟨_, h⟩ | ⟨_, h⟩ <;> simp at h

theorem Filler.append {a b : Bytes} (ha : Filler a) (hb : Filler b) : Filler (a ++ b) := by
  induction ha with
  | nil => exact hb
  | blank hblank _ ih => exact .blank hblank ih
  | lineFeed _ ih => exact .lineFeed ih
  | line hbody _ ih =>
    simp only [List.cons_append, List.append_assoc]
    exact .line hbody ih
  | block hbody _ ih =>
    simp only [List.cons_append, List.append_assoc]
    exact .block hbody ih

theorem LastFiller.prepend {filler : Bytes} (hfiller : Filler filler) (h : LastFiller text) :
    LastFiller (filler ++ text) := by
  cases h with
  | filler h => exact .filler (hfiller.append h)
  | line h hbody =>
    rw [← List.append_assoc]
    exact .line (hfiller.append h) hbody

/-! ### Readings -/

/-- The tokens that are found in a text from an offset on, after a token and within open
braces. -/
inductive Reading (elements : Bool) :
    Option Token → List Frame → Nat → Bytes → List Token → Prop
  | done {last : Option Token} {frames : List Frame} {pos : Nat} {text : Bytes} :
      LastFiller text → (∀ f ∈ frames, f = .block) → Reading elements last frames pos text []
  | lexeme {last : Option Token} {frames after : List Frame} {pos : Nat} {filler tail rest : Bytes}
      {b : UInt8} {t : Token} {tokens : List Token} :
      Filler filler →
      Piece.first elements last frames (pos + filler.length) b (tail ++ rest) =
        .ok (.lexeme t.kind tail.length after) →
      t.text = b :: tail →
      t.span = .ofOffsets (pos + filler.length) (pos + filler.length + 1 + tail.length) →
      Reading elements (some t) after (pos + filler.length + 1 + tail.length) rest tokens →
      Reading elements last frames pos (filler ++ (b :: (tail ++ rest))) (t :: tokens)

/-- A filler can stand in front of a reading. -/
theorem Reading.prepend {filler : Bytes} {after : Nat}
    (h : Reading elements last frames after text tokens) (hfiller : Filler filler)
    (hafter : after = pos + filler.length) :
    Reading elements last frames pos (filler ++ text) tokens := by
  subst hafter
  cases h with
  | done h hframes => exact .done (h.prepend hfiller) hframes
  | lexeme h hfirst htext hspan hrest =>
    rw [Nat.add_assoc pos, ← List.length_append] at hfirst hspan hrest
    rw [← List.append_assoc]
    exact .lexeme (hfiller.append h) hfirst htext hspan hrest

/-- A text up to its first line feed, and the rest. -/
theorem exists_line (text : Bytes) : ∃ body after, text = body ++ after ∧
    (∀ b ∈ body, b ≠ '\n') ∧ (text.takeWhile (!Bytes.isLineFeed ·)).length = body.length ∧
      ∀ c ∈ after.head?, c = '\n' := by
  refine ⟨text.takeWhile (!Bytes.isLineFeed ·), text.dropWhile (!Bytes.isLineFeed ·),
    List.takeWhile_append_dropWhile.symm, fun b hb => ?_, rfl, fun c hc => ?_⟩
  · simpa [Bytes.isLineFeed] using List.mem_takeWhile_imp hb
  · have := List.head?_dropWhile_not (!Bytes.isLineFeed ·) text
    rw [hc] at this
    simpa [Bytes.isLineFeed] using this

/-- At the end of a text no substitution is open. -/
theorem block_of_scanFrom (h : Token.scanFrom elements last frames onNewLine pos [] = .ok tokens) :
    (∀ f ∈ frames, f = .block) ∧ tokens = [] := by
  rw [Token.scanFrom] at h
  split at h
  case h_2 => cases h
  case h_1 hnone =>
    refine ⟨fun f hf => ?_, (Except.ok.inj h).symm⟩
    have := List.findSome?_eq_none_iff.mp hnone f hf
    cases f with
    | block => rfl
    | substitution part => cases this

/-- **What a scan finds** is a reading. -/
theorem reading_of_scanFrom
    (h : Token.scanFrom elements last frames onNewLine pos text = .ok tokens) :
    Reading elements last frames pos text tokens := by
  induction hn : text.length using Nat.strongRecOn
    generalizing last frames onNewLine pos text tokens with
  | _ n ih =>
    subst hn
    cases text with
    | nil =>
      obtain ⟨hframes, rfl⟩ := block_of_scanFrom h
      exact .done (.filler .nil) hframes
    | cons b rest =>
      obtain ⟨piece, hfirst, -⟩ := bind_ok ((Token.scanFrom.eq_2 ..).symm.trans h)
      cases piece with
      | gap extra breaks =>
        rw [scanFrom_gap hfirst] at h
        rcases Piece.gap_cases hfirst with ⟨rfl, hb⟩ | ⟨rfl, more, rfl, rfl⟩ |
          ⟨rfl, body, more, rfl, rfl, hbody⟩
        · have hgap : Filler [b] := by
            rcases hb with rfl | hb
            · exact .lineFeed .nil
            · exact .blank hb .nil
          exact (ih _ (by simp) h rfl).prepend hgap rfl
        · -- a comment up to the line feed behind it, or up to the end of the text
          obtain ⟨body, after, rfl, hbody, hlength, hafter⟩ := exists_line more
          rw [List.drop_succ_cons, hlength, List.drop_left] at h
          cases after with
          | nil =>
            obtain ⟨hframes, rfl⟩ := block_of_scanFrom h
            rw [List.append_nil]
            exact .done (.line .nil hbody) hframes
          | cons c after =>
            obtain rfl : c = '\n' := hafter c rfl
            rw [scanFrom_gap first_lineFeed] at h
            have hgap : Filler ('/' :: '/' :: (body ++ ('\n' :: [] : Bytes))) := .line hbody .nil
            have hrest : Reading elements last frames pos _ tokens :=
              (ih _ (by simp; omega) h rfl).prepend hgap (by simp; omega)
            simpa using hrest
        · have hgap : Filler ('/' :: '*' :: (body ++ ('*' :: '/' :: [] : Bytes))) := .block hbody .nil
          have hdrop : ('*' :: (body ++ ('*' :: '/' :: more : Bytes)) : Bytes).drop
              (body.length + 3) = more := by
            rw [List.drop_succ_cons, List.drop_append, List.drop_eq_nil_of_le (by omega),
              Nat.add_sub_cancel_left]
            rfl
          rw [hdrop] at h
          have hrest : Reading elements last frames pos _ tokens :=
            (ih _ (by simp; omega) h rfl).prepend hgap (by simp; omega)
          simpa using hrest
      | lexeme kind extra after =>
        -- what the lexeme takes of the text, and what it leaves
        obtain ⟨tail, rest, rfl, rfl⟩ :
            ∃ tail rest', rest = tail ++ rest' ∧ extra = tail.length :=
          ⟨rest.take extra, rest.drop extra, (List.take_append_drop extra rest).symm,
            (List.length_take_of_le (Piece.extra_le hfirst)).symm⟩
        rw [scanFrom_lexeme hfirst, List.take_left, List.drop_left] at h
        obtain ⟨later, hlater, h⟩ := bind_ok h
        obtain rfl := Except.ok.inj h
        have hshorter : rest.length < (b :: (tail ++ rest)).length := by
          rw [List.length_cons, List.length_append]
          omega
        have hlater := ih _ hshorter hlater rfl
        exact .lexeme .nil hfirst rfl rfl hlater

/-! ### The first line -/

/-- The line that a scan skips. -/
def hashbang (text : Bytes) : Nat :=
  if Bytes.startsWith text "#!" then (text.takeWhile (!Bytes.isLineFeed ·)).length else 0

theorem Token.scan_eq (elements : Bool) (text : Bytes) : Token.scan elements text =
    Token.scanFrom elements none [] false (hashbang text) (text.drop (hashbang text)) := rfl

theorem hashbang_le (text : Bytes) : hashbang text ≤ text.length := by
  unfold hashbang
  split
  · exact (List.takeWhile_sublist _).length_le
  · exact Nat.zero_le _

end ScriptLint
