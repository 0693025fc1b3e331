/-
Cutting clauses into tokens.

Fillers are passed and every lexeme becomes a token with its text, at its place.  What
follows a word never continues it, as words are kept apart:

* **`Filler.scanFrom_eq`** — a filler is passed;
* **`Lexeme.Shows`** — a token is the lexeme;
* **`Spells.scan_readable`** — the tokens of a text that spells lexemes are these.
-/
import Mathlib.Data.List.Forall2
import Mathlib.Data.List.TakeWhile
import ScriptLint.Proofs.Clauses
import ScriptLint.Proofs.Scanning

namespace ScriptLint

variable {elements onNewLine : Bool} {last : Option Token} {frames : List Frame} {pos : Nat}
  {b : UInt8} {rest text filler : Bytes}

/-! ### Bytes -/

/-- A byte that begins a name begins a word, and no first line. -/
theorem startsWord_cases : ∀ b : UInt8, startsWord b = true → isWordStart b = true ∧ b ≠ '#' :=
  forall_byte (by decide +kernel)

theorem isWordPart_of_startsWord : ∀ b : UInt8,
    (startsWord b || Bytes.isDigit b) = true → isWordPart b = true :=
  forall_byte (by decide +kernel)

/-- A blank byte has no other role. -/
theorem isBlank_cases : ∀ b : UInt8, isBlank b = true →
    isWordPart b = false ∧ b ≠ '\n' ∧ b ≠ '#' :=
  forall_byte (by decide +kernel)

/-- The words of clauses are identifiers. -/
theorem isIdentifier_of_mem_keywords : ∀ word ∈ Lexeme.keywords, isIdentifier word = true := by
  decide

theorem isIdentifier_of_isOuterName {name : Bytes} (h : isOuterName name = true) :
    isIdentifier name = true := by
  simp only [isOuterName, isFreeName, Bool.or_eq_true, Bool.and_eq_true, beq_iff_eq] at h
  rcases h with h | rfl
  · exact h.1
  · decide

/-- Identifiers are words. -/
theorem isWordText_of_isIdentifier {name : Bytes} (h : isIdentifier name = true) :
    isWordText name = true := by
  have hstart {b : UInt8} (hb : isNameStart b = true) : startsWord b = true := by
    simp [startsWord, hb]
  cases name with
  | nil => cases h
  | cons b rest =>
    simp only [isIdentifier, isWordText, Bool.and_eq_true, List.all_eq_true] at h ⊢
    refine ⟨hstart h.1, fun c hc => ?_⟩
    rcases Bool.or_eq_true_iff.mp (h.2 c hc) with hname | hdigit
    · rw [hstart hname, Bool.true_or]
    · rw [hdigit, Bool.or_true]

/-! ### Legal lexemes -/

theorem Literal.Legal.readable {l : Literal} (h : l.Legal) : l.Readable := by
  obtain ⟨hquote, hname⟩ := h
  refine ⟨hquote, ?_⟩
  generalize l.source.name = name at hname
  induction name with
  | nil => exact .nil
  | cons b name ih =>
    obtain ⟨hb, hname⟩ := List.forall_mem_cons.mp hname
    exact .plain hb (ih hname)

theorem Lexeme.Legal.readable {l : Lexeme} (h : l.Legal) : l.Readable := by
  cases l with
  | keyword word => exact isWordText_of_isIdentifier (isIdentifier_of_mem_keywords word h)
  | mark b => exact List.mem_cons_of_mem _ h
  | name id => exact isWordText_of_isIdentifier (isIdentifier_of_isOuterName h)
  | literal l => exact Literal.Legal.readable h

/-! ### Fillers -/

/-- A gap is passed. -/
theorem scanFrom_gap {extra : Nat} {breaks : Bool}
    (h : Piece.first elements last frames pos b rest = .ok (.gap extra breaks)) :
    Token.scanFrom elements last frames onNewLine pos (b :: rest) =
      Token.scanFrom elements last frames (onNewLine || breaks) (pos + 1 + extra)
        (rest.drop extra) := by
  rw [Token.scanFrom, h]
  rfl

theorem first_blank (h : isBlank b = true) :
    Piece.first elements last frames pos b rest = .ok (.gap 0 false) := by
  unfold Piece.first
  rw [if_neg (isBlank_cases b h).2.1, if_pos h]

theorem first_lineFeed : Piece.first elements last frames pos '\n' rest = .ok (.gap 0 true) := by
  unfold Piece.first
  rw [if_pos rfl]

/-- A comment up to the end of its line. -/
theorem first_line : Piece.first elements last frames pos '/' ('/' :: rest) =
    .ok (.gap (rest.takeWhile (!Bytes.isLineFeed ·)).length.succ false) := by
  unfold Piece.first
  rw [if_neg (by decide), if_neg (by decide), if_pos ⟨rfl, rfl⟩, List.takeWhile_cons_of_pos rfl,
    List.length_cons]

/-- The end of a comment is the first one. -/
theorem find?_block {body : Bytes} (h : ¬ ("*/" : Bytes) <:+: body) :
    Bytes.find? "*/" (body ++ ('*' :: '/' :: rest : Bytes)) = some body.length := by
  induction body with
  | nil => rfl
  | cons b body ih =>
    have hbody : ¬ ("*/" : Bytes) <:+: body :=
      fun hin => h (hin.trans (List.suffix_cons b body).isInfix)
    have hstart : Bytes.startsWith (b :: (body ++ ('*' :: '/' :: rest : Bytes))) "*/" = false := by
      rw [Bool.eq_false_iff]
      intro hstart
      have hprefix :
          ([('*' : UInt8), '/'] : Bytes) <+: b :: (body ++ ('*' :: '/' :: rest : Bytes)) :=
        List.isPrefixOf_iff_prefix.mp hstart
      obtain ⟨rfl, htail⟩ := List.cons_prefix_cons.mp hprefix
      cases body with
      | nil => exact absurd (List.cons_prefix_cons.mp htail).1 (by decide)
      | cons c body =>
        obtain ⟨rfl, -⟩ := List.cons_prefix_cons.mp htail
        exact h (List.prefix_append [('*' : UInt8), '/'] body).isInfix
    rw [List.cons_append, Bytes.find?, hstart, ih hbody]
    rfl

theorem first_block {body : Bytes} (h : ¬ ("*/" : Bytes) <:+: body) :
    Piece.first elements last frames pos '/' ('*' :: (body ++ ('*' :: '/' :: rest : Bytes))) =
      .ok (.gap (body.length + 3) ((('*' : UInt8) :: body).contains '\n')) := by
  have hline : ('*' :: (body ++ ('*' :: '/' :: rest : Bytes)) : Bytes).head? ≠ some '/' := by
    rw [List.head?_cons]
    decide
  unfold Piece.first
  rw [if_neg (by decide), if_neg (by decide), if_neg fun hslash => hline hslash.2,
    if_pos ⟨rfl, rfl⟩, List.tail_cons, find?_block h]
  simp only [List.take_succ_cons, List.take_left]

/-- **A filler is passed.** -/
theorem Filler.scanFrom_eq (h : Filler filler) (onNewLine : Bool) (pos : Nat) : ∃ onNewLine',
    Token.scanFrom elements last frames onNewLine pos (filler ++ text) =
      Token.scanFrom elements last frames onNewLine' (pos + filler.length) text := by
  induction h generalizing onNewLine pos with
  | nil => exact ⟨onNewLine, rfl⟩
  | @blank b rest hb _ ih =>
    obtain ⟨onNewLine', h⟩ := ih (onNewLine || false) (pos + 1)
    refine ⟨onNewLine', ?_⟩
    rw [List.cons_append, scanFrom_gap (first_blank hb), List.drop_zero, Nat.add_zero, h,
      List.length_cons, Nat.add_assoc, Nat.add_comm 1]
  | @lineFeed rest _ ih =>
    obtain ⟨onNewLine', h⟩ := ih (onNewLine || true) (pos + 1)
    refine ⟨onNewLine', ?_⟩
    rw [List.cons_append, scanFrom_gap first_lineFeed, List.drop_zero, Nat.add_zero, h,
      List.length_cons, Nat.add_assoc, Nat.add_comm 1]
  | @line body rest hbody _ ih =>
    -- the comment ends before its line feed, which is passed on its own
    have htake : (body ++ ('\n' :: (rest ++ text) : Bytes)).takeWhile (!Bytes.isLineFeed ·) =
        body := by
      rw [List.takeWhile_append_of_pos fun b hb => by simpa [Bytes.isLineFeed] using hbody b hb,
        List.takeWhile_cons_of_neg (by decide), List.append_nil]
    obtain ⟨onNewLine', h⟩ := ih (onNewLine || false || true) (pos + 1 + body.length.succ + 1)
    refine ⟨onNewLine', ?_⟩
    simp only [List.cons_append, List.append_assoc]
    rw [scanFrom_gap first_line, htake, List.drop_succ_cons, List.drop_left,
      scanFrom_gap first_lineFeed, List.drop_zero, Nat.add_zero, h]
    congr 1
    simp only [List.length_cons, List.length_append]
    omega
  | @block body rest hbody _ ih =>
    obtain ⟨onNewLine', h⟩ := ih (onNewLine || (('*' : UInt8) :: body).contains '\n')
      (pos + 1 + (body.length + 3))
    refine ⟨onNewLine', ?_⟩
    simp only [List.cons_append, List.append_assoc]
    rw [scanFrom_gap (first_block hbody), List.drop_succ_cons, List.drop_append,
      List.drop_eq_nil_of_le (Nat.le_add_right _ 2), Nat.add_sub_cancel_left]
    simp only [List.nil_append, List.drop_succ_cons, List.drop_zero]
    rw [h]
    congr 1
    simp only [List.length_cons, List.length_append]
    omega

/-- The end of a text has no tokens. -/
theorem scanFrom_nil (hframes : ∀ f ∈ frames, f = .block) :
    Token.scanFrom elements last frames onNewLine pos [] = .ok [] := by
  rw [Token.scanFrom]
  split
  case h_1 => rfl
  case h_2 part hpart =>
    obtain ⟨f, hf, hsome⟩ := List.exists_of_findSome?_eq_some hpart
    rw [hframes f hf] at hsome
    cases hsome

theorem LastFiller.scanFrom_eq (h : LastFiller filler) (hframes : ∀ f ∈ frames, f = .block)
    (onNewLine : Bool) (pos : Nat) :
    Token.scanFrom elements last frames onNewLine pos filler = .ok [] := by
  cases h with
  | filler h =>
    obtain ⟨onNewLine', hscan⟩ :
        ∃ onNewLine', Token.scanFrom elements last frames onNewLine pos (filler ++ []) = _ :=
      h.scanFrom_eq onNewLine pos
    rw [← List.append_nil filler, hscan, scanFrom_nil hframes]
  | @line text body h hbody =>
    obtain ⟨onNewLine', hscan⟩ := h.scanFrom_eq onNewLine pos
    have htake : body.takeWhile (!Bytes.isLineFeed ·) = body :=
      List.takeWhile_eq_self_iff.mpr fun b hb => by simpa [Bytes.isLineFeed] using hbody b hb
    rw [hscan, scanFrom_gap first_line, htake, List.drop_succ_cons, List.drop_length,
      scanFrom_nil hframes]

/-! ### Lexemes -/

/-- The token is the lexeme. -/
structure Lexeme.Shows (l : Lexeme) (t : Token) : Prop where
  kind : t.kind = l.kind
  text : t.text = l.text
  span : ∀ span ∈ l.place?, t.span = span

/-- A lexeme is read. -/
theorem scanFrom_lexeme {kind : Token.Kind} {extra : Nat} {frames' : List Frame}
    (h : Piece.first elements last frames pos b rest = .ok (.lexeme kind extra frames')) :
    Token.scanFrom elements last frames onNewLine pos (b :: rest) = do
      let token : Token :=
        ⟨kind, b :: rest.take extra, .ofOffsets pos (pos + 1 + extra), onNewLine⟩
      let tokens ← Token.scanFrom elements (some token) frames' false (pos + 1 + extra)
        (rest.drop extra)
      return token :: tokens := by
  rw [Token.scanFrom, h]
  rfl

theorem first_word (hstart : startsWord b = true) :
    Piece.first elements last frames pos b rest =
      .ok (.lexeme .word (rest.takeWhile isWordPart).length frames) :=
  (Piece.Lexes.word (startsWord_cases b hstart).1).first

/-- A string reaches up to its quote. -/
theorem stringExtent_eq {quote : UInt8} {value : Bytes} (hquote : quote ≠ '\\' ∧ quote ≠ '\n')
    (h : Quoted quote value) :
    stringExtent quote (value ++ quote :: rest) = .ok (value.length + 1) := by
  induction h with
  | nil =>
    cases rest with
    | nil => simp [stringExtent, hquote.1, hquote.2]
    | cons c rest => simp [stringExtent, hquote.1, hquote.2]
  | @plain b value hb _ ih =>
    obtain ⟨c, rest', hrest⟩ : ∃ c rest', value ++ quote :: rest = c :: rest' := by
      cases value <;> simp
    rw [List.cons_append, hrest, stringExtent, if_neg hb.2.1, if_neg hb.2.2, if_neg hb.1, ← hrest,
      ih]
    rfl
  | escaped _ ih =>
    rw [List.cons_append, List.cons_append, stringExtent, if_pos rfl, ih]
    rfl

theorem first_literal {l : Literal} (hl : l.Readable) :
    Piece.first elements last frames pos l.quote (l.source.name ++ l.quote :: rest) =
      .ok (.lexeme .string (l.source.name.length + 1) frames) := by
  obtain ⟨hquote, hvalue⟩ := hl
  have hroles : l.quote ≠ '\\' ∧ l.quote ≠ '\n' := by
    rcases hquote with h | h <;> rw [h] <;> decide
  exact (Piece.Lexes.string hquote (stringExtent_eq hroles hvalue)).first

/-- A mark of a clause has no other role. -/
theorem marks_cases : ∀ b : UInt8, b ∈ Lexeme.allMarks →
    b ≠ '\n' ∧ isBlank b = false ∧ b ≠ '/' ∧ b ≠ '"' ∧ b ≠ '\'' ∧ b ≠ 0x60 ∧
      isWordPart b = false ∧ b ≠ '.' ∧ b ≠ '#' :=
  forall_byte (by decide +kernel)

theorem isWordStart_eq_false (h : isWordPart b = false) :
    isWordStart b = false ∧ Bytes.isDigit b = false := by
  simpa [isWordPart] using h

theorem first_mark (hb : b ∈ Lexeme.allMarks) (hframes : ∀ f ∈ frames, f = .block) :
    Piece.first elements last frames pos b rest = .ok (.lexeme .mark 0 (framesAfter b frames)) := by
  obtain ⟨hfeed, hblank, hslash, hdouble, hsingle, htick, hpart, hdot, _⟩ := marks_cases b hb
  obtain ⟨hword, hdigit⟩ := isWordStart_eq_false hpart
  refine (Piece.Lexes.mark hfeed hblank (not_or.mpr ⟨hdouble, hsingle⟩) htick hword hdigit
    (absurd · hslash) (absurd · hdot) fun _ part below heq => ?_).first
  simp [heq] at hframes

/-- The marks of clauses leave blocks open only. -/
theorem block_of_mem_framesAfter (hframes : ∀ f ∈ frames, f = .block) (b : UInt8) :
    ∀ f ∈ framesAfter b frames, f = .block := by
  intro f hf
  unfold framesAfter at hf
  split at hf
  · rcases List.mem_cons.mp hf with rfl | hf
    · rfl
    · exact hframes f hf
  · split at hf
    · exact hframes f (List.mem_of_mem_tail hf)
    · exact hframes f hf

/-- **A lexeme is read as one piece**, if what follows a word does not continue it. -/
theorem Lexeme.first_eq {l : Lexeme} (hl : l.Readable) (hframes : ∀ f ∈ frames, f = .block)
    (hafter : l.kind = .word → text.takeWhile isWordPart = []) :
    ∃ b tail frames', l.text = b :: tail ∧
      Piece.first elements last frames pos b (tail ++ text) =
        .ok (.lexeme l.kind tail.length frames') ∧ ∀ f ∈ frames', f = .block := by
  -- a word ends where the bytes that may belong to one end
  have hword {word : Bytes} (hword : isWordText word = true)
      (hafter : text.takeWhile isWordPart = []) : ∃ b tail, word = b :: tail ∧
      Piece.first elements last frames pos b (tail ++ text) =
        .ok (.lexeme .word tail.length frames) := by
    cases word with
    | nil => cases hword
    | cons b tail =>
      simp only [isWordText, Bool.and_eq_true, List.all_eq_true] at hword
      refine ⟨b, tail, rfl, ?_⟩
      rw [first_word hword.1,
        List.takeWhile_append_of_pos fun b hb => isWordPart_of_startsWord b (hword.2 b hb), hafter,
        List.append_nil]
  cases l with
  | keyword word =>
    obtain ⟨b, tail, htext, hfirst⟩ := hword hl (hafter rfl)
    exact ⟨b, tail, frames, htext, hfirst, hframes⟩
  | name id =>
    obtain ⟨b, tail, htext, hfirst⟩ := hword hl (hafter rfl)
    exact ⟨b, tail, frames, htext, hfirst, hframes⟩
  | mark b =>
    exact ⟨b, [], framesAfter b frames, rfl, first_mark hl hframes,
      block_of_mem_framesAfter hframes b⟩
  | literal l =>
    refine ⟨l.quote, l.source.name ++ [l.quote], frames, rfl, ?_, hframes⟩
    rw [List.append_assoc, List.singleton_append, first_literal hl, List.length_append]
    rfl

/-! ### Texts -/

theorem Filler.takeWhile_eq (h : Filler filler) (hne : filler ≠ []) :
    (filler ++ rest).takeWhile isWordPart = [] := by
  cases h with
  | nil => exact absurd rfl hne
  | blank hb => exact List.takeWhile_cons_of_neg (by simp [(isBlank_cases _ hb).1])
  | lineFeed => exact List.takeWhile_cons_of_neg (by decide)
  | line => exact List.takeWhile_cons_of_neg (by decide)
  | block => exact List.takeWhile_cons_of_neg (by decide)

theorem LastFiller.takeWhile_eq (h : LastFiller filler) : filler.takeWhile isWordPart = [] := by
  cases h with
  | filler h =>
    by_cases hne : filler = []
    · rw [hne, List.takeWhile_nil]
    · rw [← List.append_nil filler]
      exact h.takeWhile_eq hne
  | @line text body h =>
    by_cases hne : text = []
    · rw [hne]
      exact List.takeWhile_cons_of_neg (by decide)
    · exact h.takeWhile_eq hne

/-- No byte after a word continues it. -/
theorem Spells.takeWhile_eq {lexemes : List Lexeme} (h : Spells true pos lexemes text)
    (hreadable : ∀ l ∈ lexemes, l.Readable) : text.takeWhile isWordPart = [] := by
  cases h with
  | done h => exact h.takeWhile_eq
  | @next _ _ filler text l lexemes hfiller hapart _ _ =>
    by_cases hne : filler = []
    · -- without a filler the next lexeme is no word
      have hkind : l.kind ≠ .word := fun hkind => hapart rfl hkind hne
      have hl := hreadable l List.mem_cons_self
      rw [hne, List.nil_append]
      cases l with
      | keyword | name => exact absurd rfl hkind
      | mark b =>
        obtain ⟨_, _, _, _, _, _, hpart, _⟩ := marks_cases b hl
        exact List.takeWhile_cons_of_neg (by simp [hpart])
      | literal l =>
        have hpart : isWordPart l.quote = false := by
          rcases hl.quote with h | h <;> rw [h] <;> decide
        exact List.takeWhile_cons_of_neg (by simp [hpart])
    · exact hfiller.takeWhile_eq hne

/-- **Reading a text** that spells lexemes finds these lexemes. -/
theorem Spells.scanFrom_eq {afterWord : Bool} {lexemes : List Lexeme}
    (h : Spells afterWord pos lexemes text) (hreadable : ∀ l ∈ lexemes, l.Readable)
    (hframes : ∀ f ∈ frames, f = .block) (onNewLine : Bool) (last : Option Token) :
    ∃ tokens, Token.scanFrom elements last frames onNewLine pos text = .ok tokens ∧
      List.Forall₂ Lexeme.Shows lexemes tokens := by
  induction h generalizing frames onNewLine last with
  | done h => exact ⟨[], h.scanFrom_eq hframes onNewLine _, .nil⟩
  | @next afterWord pos filler text l lexemes hfiller hapart hplace htext ih =>
    obtain ⟨hl, hreadable⟩ := List.forall_mem_cons.mp hreadable
    obtain ⟨onNewLine', hscan⟩ := hfiller.scanFrom_eq onNewLine pos
    have hafter : l.kind = .word → text.takeWhile isWordPart = [] := by
      intro hkind
      rw [decide_eq_true hkind] at htext
      exact htext.takeWhile_eq hreadable
    obtain ⟨b, tail, frames', htail, hfirst, hframes'⟩ := Lexeme.first_eq hl hframes hafter
    have hlength : pos + filler.length + l.text.length = pos + filler.length + 1 + tail.length := by
      rw [htail, List.length_cons]
      omega
    rw [hlength] at ih hplace
    -- the token goes before the ones that the rest is cut into
    let token : Token := ⟨l.kind, b :: tail,
      .ofOffsets (pos + filler.length) (pos + filler.length + 1 + tail.length), onNewLine'⟩
    obtain ⟨tokens, htokens, hshows⟩ := ih hreadable hframes' false (some token)
    refine ⟨token :: tokens, ?_, .cons ⟨rfl, htail.symm, fun span hspan => (hplace span hspan).symm⟩
      hshows⟩
    rw [hscan, htail, List.cons_append, scanFrom_lexeme hfirst]
    simp only [List.take_left, List.drop_left]
    rw [htokens]
    rfl

theorem Filler.head_ne (h : Filler filler) : filler.head? ≠ some '#' := by
  cases h with
  | nil => simp
  | blank hb => simpa using (isBlank_cases _ hb).2.2
  | _ => simp only [List.head?_cons]; decide

theorem Lexeme.exists_head {l : Lexeme} (hl : l.Readable) :
    ∃ b tail, l.text = b :: tail ∧ b ≠ '#' := by
  have hword {word : Bytes} (h : isWordText word = true) :
      ∃ b tail, word = b :: tail ∧ b ≠ '#' := by
    cases word with
    | nil => cases h
    | cons b tail =>
      exact ⟨b, tail, rfl, (startsWord_cases b (Bool.and_eq_true_iff.mp h).1).2⟩
  cases l with
  | keyword word => exact hword hl
  | name id => exact hword hl
  | mark b =>
    obtain ⟨_, _, _, _, _, _, _, _, hhash⟩ := marks_cases b hl
    exact ⟨b, [], rfl, hhash⟩
  | literal l =>
    refine ⟨l.quote, _, rfl, ?_⟩
    rcases hl.quote with h | h <;> rw [h] <;> decide

/-- Such a text does not begin with a line that is left out. -/
theorem Spells.startsWith_eq {lexemes : List Lexeme} {afterWord : Bool}
    (h : Spells afterWord pos lexemes text) (hreadable : ∀ l ∈ lexemes, l.Readable) :
    Bytes.startsWith text "#!" = false := by
  rw [Bool.eq_false_iff]
  intro hstart
  have hhead : text.head? = some '#' := by
    obtain ⟨rest, rfl⟩ := List.isPrefixOf_iff_prefix.mp hstart
    rfl
  -- the first byte is one of a filler or of the first lexeme
  cases h with
  | done h =>
    cases h with
    | filler h => exact h.head_ne hhead
    | @line text body h =>
      rw [List.head?_append] at hhead
      cases hhead' : text.head? with
      | none =>
        rw [hhead', Option.none_or, List.head?_cons] at hhead
        exact absurd hhead (by decide)
      | some b =>
        rw [hhead', Option.some_or] at hhead
        exact h.head_ne (hhead'.trans hhead)
  | @next _ _ filler text l lexemes hfiller _ _ _ =>
    rw [List.head?_append, List.head?_append] at hhead
    cases hhead' : filler.head? with
    | none =>
      obtain ⟨b, tail, htail, hb⟩ := Lexeme.exists_head (hreadable l List.mem_cons_self)
      rw [hhead', Option.none_or, htail, List.head?_cons, Option.some_or] at hhead
      exact hb (Option.some.inj hhead)
    | some b =>
      rw [hhead', Option.some_or] at hhead
      exact hfiller.head_ne (hhead'.trans hhead)

/-- **The tokens of a text** that spells lexemes are these lexemes. -/
theorem Spells.scan_readable {lexemes : List Lexeme} (h : Spells false 0 lexemes text)
    (hreadable : ∀ l ∈ lexemes, l.Readable) :
    ∃ tokens, Token.scan elements text = .ok tokens ∧ List.Forall₂ Lexeme.Shows lexemes tokens := by
  rw [Token.scan, h.startsWith_eq hreadable]
  exact h.scanFrom_eq hreadable (by simp) false none

theorem Spells.scan_eq {lexemes : List Lexeme} (h : Spells false 0 lexemes text)
    (hlegal : ∀ l ∈ lexemes, l.Legal) :
    ∃ tokens, Token.scan elements text = .ok tokens ∧ List.Forall₂ Lexeme.Shows lexemes tokens :=
  h.scan_readable fun l hl => (hlegal l hl).readable

end ScriptLint
