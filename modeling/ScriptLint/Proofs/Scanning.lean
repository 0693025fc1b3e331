/-
Where tokens stand.

The tokens of a text are pieces of it, one after another:

* **`Piece.Lexes`** — the forms of lexemes, which are all that is read as one
  (**`Piece.lexes_of_first`**, **`Piece.Lexes.first`**);
* **`Piece.extra_le`** — a lexeme does not reach behind the end of the text;
* **`Token.StandsAt`** — the token is the piece of the text between two offsets;
* **`Token.scan_placed`** — the tokens of a text stand in it, one behind the other;
* **`Token.Stands`** — the token is the piece of the text that its span says, as it is in a
  text whose offsets fit into a span.
-/
import Mathlib.Algebra.Group.Nat.Defs
import Mathlib.Tactic.Common
import ScriptLint.Token.Scan

namespace ScriptLint

/-- What a computation of two steps went through. -/
theorem bind_ok {ε α β : Type} {e : Except ε α} {f : α → Except ε β} {b : β}
    (h : e >>= f = .ok b) : ∃ a, e = .ok a ∧ f a = .ok b := by
  cases e with
  | error e => cases h
  | ok a => exact ⟨a, rfl, h⟩

/-! ### How far pieces reach -/

theorem past_ok {n k : Nat} {e : Except Nat Nat} (h : past n e = .ok k) :
    ∃ j, e = .ok j ∧ k = j + n := by
  cases e with
  | error j => simp [past] at h
  | ok j => exact ⟨j, rfl, by simpa [past] using h.symm⟩

theorem stringExtent_le {quote : UInt8} {text : Bytes} {n : Nat}
    (h : stringExtent quote text = .ok n) : n ≤ text.length := by
  fun_induction stringExtent quote text generalizing n <;> grind [past_ok]

theorem map_grown {k n : Nat} {opens : Bool} {e : Option (Nat × Bool)}
    (h : e.map (fun e => (e.1 + k, e.2)) = some (n, opens)) :
    ∃ j, e = some (j, opens) ∧ n = j + k := by
  cases e with
  | none => simp at h
  | some e =>
    obtain ⟨rfl, rfl⟩ : e.1 + k = n ∧ e.2 = opens := by simpa using h
    exact ⟨e.1, rfl, rfl⟩

theorem templateExtent_le {text : Bytes} {n : Nat} {opens : Bool}
    (h : templateExtent text = some (n, opens)) : n ≤ text.length := by
  fun_induction templateExtent text generalizing n with
  | case4 c rest ih =>
    obtain ⟨j, hj, rfl⟩ := map_grown h
    have := ih hj
    simp only [List.length_cons]
    omega
  | case7 b c rest _ _ _ ih =>
    obtain ⟨j, hj, rfl⟩ := map_grown h
    have := ih hj
    simp only [List.length_cons] at this ⊢
    omega
  | _ => simp_all <;> omega

theorem patternExtent_le {bracketed : Bool} {text : Bytes} {n : Nat}
    (h : patternExtent bracketed text = .ok n) : n ≤ text.length := by
  have htake (rest : Bytes) : (rest.takeWhile isWordPart).length ≤ rest.length :=
    (List.takeWhile_sublist _).length_le
  fun_induction patternExtent bracketed text generalizing n <;> grind [past_ok]

theorem numberExtent_le (hex : Bool) (before : UInt8) (text : Bytes) :
    numberExtent hex before text ≤ text.length := by
  induction text generalizing before with
  | nil => exact Nat.le_refl _
  | cons b rest ih =>
    have hrest := ih b
    rw [numberExtent, List.length_cons]
    split
    · omega
    · split <;> omega

/-! ### Forms of lexemes -/

/-- A decidable property of bytes can be checked for all of them. -/
theorem forall_byte {P : UInt8 → Prop} (h : ∀ n < 256, P (UInt8.ofNat n)) (b : UInt8) : P b := by
  have hb := h b.toNat b.toNat_lt
  rwa [UInt8.ofNat_toNat] at hb

/-- A byte that begins a word has no other role. -/
theorem isWordStart_cases : ∀ b : UInt8, isWordStart b = true →
    b ≠ '\n' ∧ isBlank b = false ∧ b ≠ '/' ∧ ¬ (b = '"' ∨ b = '\'') ∧ b ≠ 0x60 ∧ b ≠ '\x7d' :=
  forall_byte (by decide +kernel)

/-- A byte that may begin a number has no role of those that come first. -/
theorem number_cases : ∀ b : UInt8, (Bytes.isDigit b || b == '.') = true →
    b ≠ '\n' ∧ isBlank b = false ∧ b ≠ '/' ∧ ¬ (b = '"' ∨ b = '\'') ∧ b ≠ 0x60 ∧ b ≠ '\x7d' ∧
      isWordStart b = false :=
  forall_byte (by decide +kernel)

namespace Piece

/-- The forms of lexemes: what the first byte has to be, what must stand behind it and what must
not, how much of that belongs to the lexeme, and the braces that are open behind it. -/
inductive Lexes (elements : Bool) (last : Option Token) (frames : List Frame) (pos : Nat)
    (b : UInt8) (rest : Bytes) : Token.Kind → Nat → List Frame → Prop
  | string {n : Nat} : b = '"' ∨ b = '\'' → stringExtent b rest = .ok n →
      Lexes elements last frames pos b rest .string n frames
  | template {n : Nat} {opens : Bool} : b = 0x60 → templateExtent rest = some (n, opens) →
      Lexes elements last frames pos b rest .template n
        (if opens then .substitution pos :: frames else frames)
  | resumed {n part : Nat} {opens : Bool} {below : List Frame} :
      b = '\x7d' → frames = .substitution part :: below → templateExtent rest = some (n, opens) →
      Lexes elements last frames pos b rest .template n
        (if opens then .substitution pos :: below else below)
  | word : isWordStart b = true →
      Lexes elements last frames pos b rest .word (rest.takeWhile isWordPart).length frames
  | number : (Bytes.isDigit b || (b == '.' && rest.head?.any Bytes.isDigit)) = true →
      Lexes elements last frames pos b rest .number
        (numberExtent (b == '0' && (rest.head? == some 'x' || rest.head? == some 'X')) b rest)
        frames
  | pattern {n : Nat} : b = '/' → rest.head? ≠ some '/' → rest.head? ≠ some '*' →
      last.all (Token.allowsPattern elements) = true → patternExtent false rest = .ok n →
      Lexes elements last frames pos b rest .pattern n frames
  | dots : b = '.' → Bytes.startsWith rest ".." = true →
      Lexes elements last frames pos b rest .mark 2 frames
  | mark : b ≠ '\n' → isBlank b = false → ¬ (b = '"' ∨ b = '\'') → b ≠ 0x60 →
      isWordStart b = false → Bytes.isDigit b = false →
      (b = '/' → rest.head? ≠ some '/' ∧ rest.head? ≠ some '*' ∧
        last.all (Token.allowsPattern elements) = false) →
      (b = '.' → rest.head?.any Bytes.isDigit = false ∧ Bytes.startsWith rest ".." = false) →
      (b = '\x7d' → ∀ part below, frames ≠ .substitution part :: below) →
      Lexes elements last frames pos b rest .mark 0 (framesAfter b frames)

variable {elements : Bool} {last : Option Token} {frames frames' : List Frame} {pos extra : Nat}
  {b : UInt8} {rest : Bytes} {kind : Token.Kind}

theorem lexeme_inj {kind' : Token.Kind} {n n' : Nat}
    (h : (.ok (.lexeme kind n frames) : Except Failure Piece) = .ok (.lexeme kind' n' frames')) :
    kind = kind' ∧ n = n' ∧ frames = frames' := by
  simpa using h

theorem extent_of_templatePiece
    (h : templatePiece frames pos rest = .ok (.lexeme kind extra frames')) :
    ∃ opens, kind = .template ∧ templateExtent rest = some (extra, opens) ∧
      frames' = if opens then .substitution pos :: frames else frames := by
  unfold templatePiece at h
  split at h
  case h_1 => cases h
  case h_2 n hextent =>
    obtain ⟨rfl, rfl, rfl⟩ := lexeme_inj h
    exact ⟨false, rfl, hextent, rfl⟩
  case h_3 n hextent =>
    obtain ⟨rfl, rfl, rfl⟩ := lexeme_inj h
    exact ⟨true, rfl, hextent, rfl⟩

theorem templatePiece_eq {opens : Bool} (h : templateExtent rest = some (extra, opens)) :
    templatePiece frames pos rest =
      .ok (.lexeme .template extra (if opens then .substitution pos :: frames else frames)) := by
  rw [templatePiece, h]
  cases opens <;> rfl

/-- **Every lexeme has one of the forms.** -/
theorem lexes_of_first
    (h : first elements last frames pos b rest = .ok (.lexeme kind extra frames')) :
    Lexes elements last frames pos b rest kind extra frames' := by
  unfold first at h
  -- a line feed, a blank and the two comments are gaps
  rcases ite_eq_iff.mp h with ⟨_, h⟩ | ⟨hfeed, h⟩; · simp at h
  rcases ite_eq_iff.mp h with ⟨_, h⟩ | ⟨hblank, h⟩; · simp at h
  rcases ite_eq_iff.mp h with ⟨_, h⟩ | ⟨hline, h⟩; · simp at h
  rcases ite_eq_iff.mp h with ⟨_, h⟩ | ⟨hblock, h⟩
  · split at h <;> simp [faultAt] at h
  -- strings and templates come first
  rcases ite_eq_iff.mp h with ⟨hquote, h⟩ | ⟨hquote, h⟩
  · split at h
    · rename_i n hextent
      obtain ⟨rfl, rfl, rfl⟩ := lexeme_inj h
      exact .string hquote hextent
    · cases h
  rcases ite_eq_iff.mp h with ⟨htick, h⟩ | ⟨htick, h⟩
  · obtain ⟨opens, rfl, hextent, rfl⟩ := extent_of_templatePiece h
    exact .template htick hextent
  by_cases hresumed : b = '\x7d' ∧ ∃ part below, frames = .substitution part :: below
  · obtain ⟨rfl, part, below, rfl⟩ := hresumed
    obtain ⟨opens, rfl, hextent, rfl⟩ := extent_of_templatePiece h
    exact .resumed rfl rfl hextent
  split at h
  · exact absurd ⟨beq_iff_eq.mp ‹(b == _) = true›, _, _, rfl⟩ hresumed
  -- then words, numbers, regular expressions and marks
  rcases ite_eq_iff.mp h with ⟨hword, h⟩ | ⟨hword, h⟩
  · obtain ⟨rfl, rfl, rfl⟩ := lexeme_inj h
    exact .word hword
  rcases ite_eq_iff.mp h with ⟨hnumber, h⟩ | ⟨hnumber, h⟩
  · obtain ⟨rfl, rfl, rfl⟩ := lexeme_inj h
    exact .number hnumber
  rcases ite_eq_iff.mp h with ⟨hslash, h⟩ | ⟨hslash, h⟩
  · split at h
    · rename_i n hextent
      obtain ⟨rfl, rfl, rfl⟩ := lexeme_inj h
      exact .pattern hslash.1 (fun hhead => hline ⟨hslash.1, hhead⟩)
        (fun hhead => hblock ⟨hslash.1, hhead⟩) hslash.2 hextent
    · cases h
  rcases ite_eq_iff.mp h with ⟨hdots, h⟩ | ⟨hdots, h⟩
  · obtain ⟨rfl, rfl, rfl⟩ := lexeme_inj h
    exact .dots hdots.1 hdots.2
  · obtain ⟨rfl, rfl, rfl⟩ := lexeme_inj h
    simp only [Bool.or_eq_true, Bool.and_eq_true, beq_iff_eq, not_or, not_and,
      Bool.not_eq_true] at hnumber
    exact .mark hfeed (Bool.eq_false_iff.mpr hblank) hquote htick (Bool.eq_false_iff.mpr hword)
      hnumber.1
      (fun hb => ⟨fun hhead => hline ⟨hb, hhead⟩, fun hhead => hblock ⟨hb, hhead⟩,
        Bool.eq_false_iff.mpr fun hlast => hslash ⟨hb, hlast⟩⟩)
      (fun hb => ⟨hnumber.2 hb, Bool.eq_false_iff.mpr fun hstart => hdots ⟨hb, hstart⟩⟩)
      fun hb part below hframes => hresumed ⟨hb, part, below, hframes⟩

/-- What comes behind strings and templates. -/
theorem first_eq (hfeed : b ≠ '\n') (hblank : isBlank b = false)
    (hcomment : b = '/' → rest.head? ≠ some '/' ∧ rest.head? ≠ some '*')
    (hquote : ¬ (b = '"' ∨ b = '\'')) (htick : b ≠ 0x60)
    (hbrace : b = '\x7d' → ∀ part below, frames ≠ .substitution part :: below) :
    first elements last frames pos b rest =
      if isWordStart b then .ok (.lexeme .word (rest.takeWhile isWordPart).length frames)
      else if Bytes.isDigit b || (b == '.' && rest.head?.any Bytes.isDigit) then
        .ok (.lexeme .number
          (numberExtent (b == '0' && (rest.head? == some 'x' || rest.head? == some 'X')) b rest)
          frames)
      else if b = '/' ∧ last.all (Token.allowsPattern elements) then
        match patternExtent false rest with
        | .ok n => .ok (.lexeme .pattern n frames)
        | .error n => faultAt .openPattern pos (1 + n)
      else if b = '.' ∧ Bytes.startsWith rest ".." then .ok (.lexeme .mark 2 frames)
      else .ok (.lexeme .mark 0 (framesAfter b frames)) := by
  unfold first
  rw [if_neg hfeed, if_neg (Bool.eq_false_iff.mp hblank), if_neg fun h => (hcomment h.1).1 h.2,
    if_neg fun h => (hcomment h.1).2 h.2, if_neg hquote, if_neg htick]
  split
  · exact absurd rfl (hbrace (beq_iff_eq.mp ‹(b == _) = true›) _ _)
  · rfl

/-- **Each of the forms is read** as a lexeme. -/
theorem Lexes.first (h : Lexes elements last frames pos b rest kind extra frames') :
    first elements last frames pos b rest = .ok (.lexeme kind extra frames') := by
  cases h with
  | string hquote hextent =>
    have hroles : b ≠ '\n' ∧ isBlank b = false ∧ b ≠ '/' := by
      rcases hquote with rfl | rfl <;> decide
    unfold Piece.first
    rw [if_neg hroles.1, if_neg (Bool.eq_false_iff.mp hroles.2.1), if_neg fun h => hroles.2.2 h.1,
      if_neg fun h => hroles.2.2 h.1, if_pos hquote, hextent]
  | template htick hextent =>
    subst htick
    unfold Piece.first
    rw [if_neg (by decide), if_neg (by decide), if_neg fun h => absurd h.1 (by decide),
      if_neg fun h => absurd h.1 (by decide), if_neg (by decide), if_pos rfl,
      templatePiece_eq hextent]
  | resumed hbrace hframes hextent =>
    subst hbrace hframes
    unfold Piece.first
    rw [if_neg (by decide), if_neg (by decide), if_neg fun h => absurd h.1 (by decide),
      if_neg fun h => absurd h.1 (by decide), if_neg (by decide), if_neg (by decide)]
    exact templatePiece_eq hextent
  | word hword =>
    obtain ⟨hfeed, hblank, hslash, hquote, htick, hbrace⟩ := isWordStart_cases b hword
    rw [first_eq hfeed hblank (absurd · hslash) hquote htick (absurd · hbrace), if_pos hword]
  | number hnumber =>
    have hbegins : (Bytes.isDigit b || b == '.') = true := by
      simp only [Bool.or_eq_true, Bool.and_eq_true] at hnumber ⊢
      exact hnumber.imp_right And.left
    obtain ⟨hfeed, hblank, hslash, hquote, htick, hbrace, hword⟩ := number_cases b hbegins
    rw [first_eq hfeed hblank (absurd · hslash) hquote htick (absurd · hbrace),
      if_neg (Bool.eq_false_iff.mp hword), if_pos hnumber]
  | pattern hslash hline hblock hlast hextent =>
    subst hslash
    have hnumber : (Bytes.isDigit '/' || (('/' : UInt8) == '.' && rest.head?.any Bytes.isDigit)) =
        false := rfl
    rw [first_eq (by decide) (by decide) (fun _ => ⟨hline, hblock⟩) (by decide) (by decide)
      (absurd · (by decide)), if_neg (by decide), hnumber, if_neg (by decide),
      if_pos ⟨rfl, hlast⟩, hextent]
  | dots hdot hstart =>
    subst hdot
    have hdigit : rest.head?.any Bytes.isDigit = false := by
      obtain ⟨more, rfl⟩ := List.isPrefixOf_iff_prefix.mp hstart
      rfl
    rw [first_eq (by decide) (by decide) (absurd · (by decide)) (by decide) (by decide)
      (absurd · (by decide)), if_neg (by decide), hdigit, if_neg (by decide),
      if_neg fun h => absurd h.1 (by decide), if_pos ⟨rfl, hstart⟩]
  | mark hfeed hblank hquote htick hword hdigit hslash hdot hbrace =>
    have hnumber : ¬ (Bytes.isDigit b || (b == '.' && rest.head?.any Bytes.isDigit)) = true := by
      simp only [hdigit, Bool.false_or, Bool.and_eq_true, beq_iff_eq]
      exact fun h => Bool.eq_false_iff.mp (hdot h.1).1 h.2
    rw [first_eq hfeed hblank (fun hb => ⟨(hslash hb).1, (hslash hb).2.1⟩) hquote htick hbrace,
      if_neg (Bool.eq_false_iff.mp hword), if_neg hnumber,
      if_neg fun h => Bool.eq_false_iff.mp (hslash h.1).2.2 h.2,
      if_neg fun h => Bool.eq_false_iff.mp (hdot h.1).2 h.2]

/-- A lexeme does not reach behind the end of the text. -/
theorem extra_le (h : first elements last frames pos b rest = .ok (.lexeme kind extra frames')) :
    extra ≤ rest.length := by
  cases lexes_of_first h with
  | string _ hextent => exact stringExtent_le hextent
  | template _ hextent => exact templateExtent_le hextent
  | resumed _ _ hextent => exact templateExtent_le hextent
  | word => exact (List.takeWhile_sublist _).length_le
  | number => exact numberExtent_le _ _ _
  | pattern _ _ _ _ hextent => exact patternExtent_le hextent
  | dots _ hstart => exact (List.isPrefixOf_iff_prefix.mp hstart).length_le
  | mark => exact Nat.zero_le _

/-- A word begins as words do. -/
theorem isWordStart_of_word
    (h : first elements last frames pos b rest = .ok (.lexeme .word extra frames')) :
    isWordStart b = true := by
  cases lexes_of_first h with
  | word hword => exact hword

end Piece

/-! ### Tokens in their text -/

namespace Token

/-- The token is the piece of the text between two offsets, and a word looks like one. -/
structure StandsAt (text : Bytes) (place : Nat × Nat) (t : Token) : Prop where
  span : t.span = .ofOffsets place.1 place.2
  nonempty : place.1 < place.2
  inside : place.2 ≤ text.length
  cut : t.text = text.slice place.1 (place.2 - place.1)
  word : t.kind = .word → t.text.head?.any isWordStart = true

/-- How much a text has from an offset on. -/
theorem length_of_drop {text rest : Bytes} {pos : Nat} {b : UInt8}
    (h : text.drop pos = b :: rest) : pos + 1 + rest.length = text.length := by
  have := congrArg List.length h
  simp only [List.length_drop, List.length_cons] at this
  omega

/-- A lexeme that is read at an offset stands there. -/
theorem standsAt_lexeme {text rest : Bytes} {pos extra : Nat} {b : UInt8} {kind : Kind}
    (onNewLine : Bool) (hrest : text.drop pos = b :: rest) (hextra : extra ≤ rest.length)
    (hword : kind = .word → isWordStart b = true) :
    StandsAt text (pos, pos + 1 + extra)
      ⟨kind, b :: rest.take extra, .ofOffsets pos (pos + 1 + extra), onNewLine⟩ := by
  have hpos := length_of_drop hrest
  refine ⟨rfl, by simp only; omega, by simp only; omega, ?_, by simpa using hword⟩
  simp only [Bytes.slice, hrest]
  rw [show pos + 1 + extra - pos = extra + 1 by omega, List.take_succ_cons]

/-- **What a reading from an offset finds** stands in the text from that offset on, one
token behind the other. -/
theorem scanFrom_placed {elements : Bool} {last : Option Token} {frames : List Frame}
    {onNewLine : Bool} {pos : Nat} {text : Bytes} {tokens : List Token}
    (h : scanFrom elements last frames onNewLine pos (text.drop pos) = .ok tokens) :
    ∃ places, List.Forall₂ (StandsAt text) places tokens ∧
      places.Pairwise (fun a b => a.2 ≤ b.1) ∧ ∀ p ∈ places, pos ≤ p.1 := by
  induction hn : text.length - pos using Nat.strongRecOn
    generalizing last frames onNewLine pos tokens with
  | _ n ih =>
    cases hrest : text.drop pos with
    | nil =>
      rw [hrest, scanFrom] at h
      split at h
      · obtain rfl : [] = tokens := by simpa using h
        exact ⟨[], .nil, .nil, by simp⟩
      · simp at h
    | cons b rest =>
      have hpos := length_of_drop hrest
      -- what is left after a piece is what is left from the offset behind it
      have hafter (extra : Nat) : rest.drop extra = text.drop (pos + 1 + extra) := by
        have := congrArg (List.drop (1 + extra)) hrest
        rw [List.drop_drop, Nat.add_comm 1 extra, List.drop_succ_cons] at this
        rw [← this]
        congr 1
        omega
      rw [hrest, scanFrom] at h
      obtain ⟨piece, hfirst, h⟩ := bind_ok h
      cases piece with
      | gap extra breaks =>
        simp only [hafter] at h
        obtain ⟨places, hstands, horder, hfrom⟩ := ih _ (by omega) h rfl
        exact ⟨places, hstands, horder, fun p hp => by have := hfrom p hp; omega⟩
      | lexeme kind extra frames' =>
        have hextra := Piece.extra_le hfirst
        have hword : kind = .word → isWordStart b = true := by
          rintro rfl
          exact Piece.isWordStart_of_word hfirst
        simp only [hafter] at h
        obtain ⟨later, hlater, hcons⟩ := bind_ok h
        obtain rfl := Except.ok.inj hcons
        obtain ⟨places, hstands, horder, hfrom⟩ := ih _ (by omega) hlater rfl
        refine ⟨(pos, pos + 1 + extra) :: places,
          .cons (standsAt_lexeme onNewLine hrest hextra hword) hstands,
          List.pairwise_cons.mpr ⟨hfrom, horder⟩, fun p hp => ?_⟩
        rcases List.mem_cons.mp hp with rfl | hp
        · exact Nat.le_refl _
        · have := hfrom p hp
          omega

/-- **The tokens of a text** stand in it, one behind the other. -/
theorem scan_placed {elements : Bool} {text : Bytes} {tokens : List Token}
    (h : scan elements text = .ok tokens) :
    ∃ places, List.Forall₂ (StandsAt text) places tokens ∧
      places.Pairwise fun a b => a.2 ≤ b.1 := by
  obtain ⟨places, hstands, horder, _⟩ := scanFrom_placed h
  exact ⟨places, hstands, horder⟩

/-! ### Offsets that fit into a span -/

/-- The token is the piece of the text that its span says, and a word looks like one. -/
structure Stands (text : Bytes) (t : Token) : Prop where
  nonempty : t.span.start.toNat < t.span.stop.toNat
  inside : t.span.stop.toNat ≤ text.length
  cut : t.text = t.span.cut text
  word : t.kind = .word → t.text.head?.any isWordStart = true

/-- The one token stops before the other one starts. -/
def Precedes (a b : Token) : Prop := a.span.stop.toNat ≤ b.span.start.toNat

/-- Offsets below the bound of 32-bit words are kept as they are. -/
theorem toNat_ofOffsets {start stop : Nat} (h : stop < 2 ^ 32) (hle : start ≤ stop) :
    (Span.ofOffsets start stop).start.toNat = start ∧
      (Span.ofOffsets start stop).stop.toNat = stop := by
  simp only [Span.ofOffsets, Nat.toUInt32, UInt32.toNat_ofNat']
  omega

variable {text : Bytes} {place : Nat × Nat} {t : Token}

/-- The span of a token in a text that is not too long. -/
theorem StandsAt.toNat_span (h : t.StandsAt text place) (hlength : text.length < 2 ^ 32) :
    t.span.start.toNat = place.1 ∧ t.span.stop.toNat = place.2 := by
  rw [h.span]
  exact toNat_ofOffsets (Nat.lt_of_le_of_lt h.inside hlength) (Nat.le_of_lt h.nonempty)

theorem StandsAt.stands (h : t.StandsAt text place) (hlength : text.length < 2 ^ 32) :
    t.Stands text := by
  obtain ⟨hstart, hstop⟩ := h.toNat_span hlength
  refine ⟨by rw [hstart, hstop]; exact h.nonempty, by rw [hstop]; exact h.inside, ?_, h.word⟩
  rw [Span.cut, hstart, hstop]
  exact h.cut

end Token

end ScriptLint
