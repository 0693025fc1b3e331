/-
How a text is cut into tokens.

The reading of a text goes from cursor to cursor.  A cursor holds what was found, the braces
that are open, and the offset that is reached; a step passes one gap or reads one lexeme.  So
what holds of the tokens of a text is shown for one step and then for every cursor: what lies
before the cursor is tiled by gaps and tokens, and the open substitutions are known from the
tokens alone.

* **`Gap`** — blanks, line feeds and comments;
* **`Token.Cursor.Step`** — one piece of the reading, **`Token.Cursor.Reached`** — all of them;
* **`Token.Tiles`** — gaps and tokens up to an offset, kept by every step
  (`Token.Cursor.Reached.laid`);
* **`Token.Stacks`** — the open braces and the beginnings of the template parts before open
  substitutions, from the tokens alone;
* **`Token.isQuoted_of_scan`** — strings are their values between quotes;
* **`Token.scan_tiles`** — what a scan is, at every cursor and at its end.
-/
import Mathlib.Logic.Relation
import ScriptLint.Proofs.Bounds
import ScriptLint.Proofs.Readings

namespace ScriptLint

/-! ### Gaps -/

/-- A blank, a line feed, or a comment. -/
inductive Gap : Bytes → Prop
  | blank {b : UInt8} : isBlank b = true → Gap [b]
  | lineFeed : Gap ['\n']
  | line {body : Bytes} : (∀ b ∈ body, b ≠ '\n') → Gap ('/' :: '/' :: body)
  | block {body : Bytes} : ¬ ("*/" : Bytes) <:+: body →
      Gap ('/' :: '*' :: (body ++ ('*' :: '/' :: [] : Bytes)))

namespace Piece

variable {elements : Bool} {last : Option Token} {frames frames' : List Frame}
  {pos extra : Nat} {b : UInt8} {rest : Bytes} {kind : Token.Kind}

/-- What a gap takes of the text, and whether it breaks the line. -/
theorem gap_of_first {breaks : Bool}
    (h : first elements last frames pos b rest = .ok (.gap extra breaks)) :
    Gap (b :: rest.take extra) ∧ extra ≤ rest.length ∧
      (breaks = true ↔ ('\n' : UInt8) ∈ b :: rest.take extra) := by
  have hbreaks {n : Nat} {line : Bool}
      (hfirst : first elements last frames pos b rest = .ok (.gap n line)) : breaks = line :=
    (Piece.gap.inj (Except.ok.inj (h.symm.trans hfirst))).2
  have hmarks : ('\n' : UInt8) ≠ '/' ∧ ('\n' : UInt8) ≠ '*' := by decide
  rcases gap_cases h with ⟨rfl, rfl | hblank⟩ | ⟨rfl, more, rfl, rfl⟩ |
    ⟨rfl, body, more, rfl, rfl, hbody⟩
  · obtain rfl := hbreaks first_lineFeed
    exact ⟨.lineFeed, Nat.zero_le _, by simp⟩
  · obtain rfl := hbreaks (first_blank hblank)
    have hfeed := (isBlank_cases b hblank).2.1
    exact ⟨.blank hblank, Nat.zero_le _, by simp [Ne.symm hfeed]⟩
  · obtain rfl := hbreaks first_line
    obtain ⟨body, after, rfl, hbody, hlength, -⟩ := exists_line more
    rw [hlength, List.take_succ_cons, List.take_left]
    refine ⟨.line hbody, by simp, ?_⟩
    have hfeed : ('\n' : UInt8) ∉ body := fun hmem => hbody _ hmem rfl
    simp [hfeed, hmarks]
  · obtain rfl := hbreaks (first_block hbody)
    have htake : ('*' :: (body ++ ('*' :: '/' :: more : Bytes)) : Bytes).take (body.length + 3) =
        ('*' :: (body ++ ('*' :: '/' :: [] : Bytes)) : Bytes) := by
      rw [List.take_succ_cons, List.take_append, List.take_of_length_le (by omega),
        Nat.add_sub_cancel_left]
      rfl
    rw [htake]
    exact ⟨.block hbody, by simp, by simp [hmarks]⟩

/-! ### What ends a lexeme -/

/-- A string ends with its quote. -/
theorem take_of_stringExtent {quote : UInt8} {n : Nat} (h : stringExtent quote rest = .ok n) :
    ∃ body, rest.take n = body ++ [quote] := by
  fun_induction stringExtent quote rest generalizing n with
  | case4 =>
    obtain rfl := Except.ok.inj h
    exact ⟨[], rfl⟩
  | case6 c rest ih =>
    -- a backslash takes the next byte with it
    obtain ⟨j, hj, rfl⟩ := past_ok h
    obtain ⟨body, hbody⟩ := ih hj
    exact ⟨_ :: c :: body, by rw [List.take_succ_cons, List.take_succ_cons, hbody]; rfl⟩
  | case8 =>
    obtain rfl := Except.ok.inj h
    exact ⟨[], rfl⟩
  | case9 b c rest _ _ _ ih =>
    obtain ⟨j, hj, rfl⟩ := past_ok h
    obtain ⟨body, hbody⟩ := ih hj
    exact ⟨b :: body, by rw [List.take_succ_cons, hbody]; rfl⟩
  | _ => cases h

/-- A part of a template ends with a backtick, or at a substitution. -/
theorem take_of_templateExtent {n : Nat} {opens : Bool}
    (h : templateExtent rest = some (n, opens)) :
    ∃ body, rest.take n = body ++ (if opens then "$\x7b" else "`" : Bytes) := by
  fun_induction templateExtent rest generalizing n with
  | case2 =>
    obtain ⟨rfl, rfl⟩ := Prod.mk.inj (Option.some.inj h)
    exact ⟨[], rfl⟩
  | case4 c rest ih =>
    -- a backslash takes the next byte with it
    obtain ⟨j, hj, rfl⟩ := map_grown h
    obtain ⟨body, hbody⟩ := ih hj
    exact ⟨_ :: c :: body, by rw [List.take_succ_cons, List.take_succ_cons, hbody]; rfl⟩
  | case5 =>
    obtain ⟨rfl, rfl⟩ := Prod.mk.inj (Option.some.inj h)
    exact ⟨[], rfl⟩
  | case6 b c rest _ _ hopens =>
    obtain ⟨rfl, rfl⟩ := Prod.mk.inj (Option.some.inj h)
    obtain ⟨rfl, rfl⟩ := hopens
    exact ⟨[], rfl⟩
  | case7 b c rest _ _ _ ih =>
    obtain ⟨j, hj, rfl⟩ := map_grown h
    obtain ⟨body, hbody⟩ := ih hj
    exact ⟨b :: body, by rw [List.take_succ_cons, hbody]; rfl⟩
  | _ => cases h

end Piece

/-! ### Open braces -/

/-- The template part before a substitution. -/
def Frame.part? : Frame → Option Nat
  | .block => none
  | .substitution part => some part

namespace Token

/-- The open braces, each with whether it begins a substitution, and apart from them the
offsets of the template parts before open substitutions.  The innermost comes first. -/
structure Stacks where
  braces : List Bool
  starts : List Nat

namespace Stacks

/-- The stacks behind a token.  A template part that begins with a brace takes a substitution
from both of them, and one that ends at a substitution puts it on both; marks know of the
braces only. -/
def read (s : Stacks) (t : Token) : Stacks :=
  match t.kind with
  | .template =>
    let s := if t.text.head? = some ('\x7d' : UInt8) then ⟨s.braces.tail, s.starts.tail⟩ else s
    if t.opensSubstitution then ⟨true :: s.braces, t.span.start.toNat :: s.starts⟩ else s
  | .mark =>
    if t.text = [('\x7b' : UInt8)] then ⟨false :: s.braces, s.starts⟩
    else if t.text = [('\x7d' : UInt8)] then ⟨s.braces.tail, s.starts⟩
    else s
  | _ => s

/-- The stacks behind tokens. -/
def of (tokens : List Token) : Stacks := tokens.foldl read ⟨[], []⟩

/-- The stacks of open braces that know what they belong to. -/
def ofFrames (frames : List Frame) : Stacks :=
  ⟨frames.map fun f => f.part?.isSome, frames.filterMap Frame.part?⟩

/-- Each open substitution has a start. -/
theorem length_starts_ofFrames (frames : List Frame) :
    (ofFrames frames).starts.length = (ofFrames frames).braces.count true := by
  induction frames with
  | nil => rfl
  | cons f frames ih =>
    simp only [ofFrames, List.map_cons, List.filterMap_cons] at ih ⊢
    cases f <;> simp [Frame.part?, ih]

end Stacks

variable {elements onNewLine : Bool} {last : Option Token} {frames frames' : List Frame}
  {pos extra : Nat} {b : UInt8} {text rest : Bytes} {kind : Kind}

/-- What a template part ends with tells whether it ends at a substitution. -/
theorem opensSubstitution_of_extent {t : Token} {n : Nat} {opens : Bool}
    (htext : t.text = b :: rest.take n) (h : templateExtent rest = some (n, opens)) :
    t.opensSubstitution = opens := by
  obtain ⟨body, hbody⟩ := Piece.take_of_templateExtent h
  rw [opensSubstitution, htext, hbody, Bytes.endsWith, Bool.eq_iff_iff,
    List.isSuffixOf_iff_suffix, ← List.cons_append]
  cases opens with
  | true => exact iff_of_true (List.suffix_append _ _) rfl
  | false =>
    -- the last byte is a backtick
    refine iff_of_false (fun ⟨before, hbefore⟩ => ?_) Bool.false_ne_true
    have hlast := congrArg List.getLast? hbefore
    rw [List.getLast?_append_of_ne_nil _ (by decide),
      List.getLast?_append_of_ne_nil _ (by decide)] at hlast
    exact absurd hlast (by decide)

/-- **A lexeme moves both stacks as it moves the open braces.** -/
theorem Stacks.read_lexeme
    (h : Piece.first elements last frames pos b rest = .ok (.lexeme kind extra frames'))
    (hstop : pos + 1 + extra < 2 ^ 32) :
    (ofFrames frames).read
      ⟨kind, b :: rest.take extra, .ofOffsets pos (pos + 1 + extra), onNewLine⟩ =
      ofFrames frames' := by
  have hle : pos ≤ pos + 1 + extra := by omega
  have hstart := (toNat_ofOffsets hstop hle).1
  cases Piece.lexes_of_first h with
  | string | word | number | pattern => rfl
  | @template _ opens hb hextent =>
    have hhead : b ≠ '\x7d' := by
      rw [hb]
      decide
    have hopens := opensSubstitution_of_extent (t := ⟨.template, b :: rest.take extra,
      .ofOffsets pos (pos + 1 + extra), onNewLine⟩) rfl hextent
    simp only [read, List.head?_cons, Option.some.injEq, hhead, if_false, hopens, hstart]
    cases opens <;> rfl
  | @resumed _ part opens below hb hframes hextent =>
    have hopens := opensSubstitution_of_extent (t := ⟨.template, b :: rest.take extra,
      .ofOffsets pos (pos + 1 + extra), onNewLine⟩) rfl hextent
    subst hb hframes
    simp only [read, List.head?_cons, if_true, hopens, hstart]
    cases opens <;> rfl
  | dots hb =>
    have hmarks : b ≠ '\x7b' ∧ b ≠ '\x7d' := by
      rw [hb]
      decide
    simp [read, hmarks]
  | mark _ _ _ _ _ _ _ _ hbelow =>
    simp only [read, List.take_zero, List.cons.injEq, and_true, framesAfter]
    split
    · rfl
    split
    · rename_i hb
      cases frames with
      | nil => rfl
      | cons f frames =>
        cases f with
        | block => rfl
        | substitution part => exact absurd rfl (hbelow hb part frames)
    · rfl

/-! ### Gaps and tokens up to an offset -/

/-- The offset behind the tokens: where the last one stops, or the first line. -/
def behind (text : Bytes) (tokens : List Token) : Nat :=
  (tokens.getLast?.map (·.span.stop.toNat)).getD (hashbang text)

@[simp] theorem behind_nil (text : Bytes) : behind text [] = hashbang text := rfl

@[simp] theorem behind_snoc (text : Bytes) (tokens : List Token) (t : Token) :
    behind text (tokens ++ [t]) = t.span.stop.toNat := by
  simp [behind]

/-- A line feed stands between two offsets. -/
def Breaks (text : Bytes) (start stop : Nat) : Prop :=
  ∃ p, start ≤ p ∧ p < stop ∧ text[p]? = some ('\n' : UInt8)

theorem not_breaks_self (text : Bytes) (start : Nat) : ¬ Breaks text start start := by
  rintro ⟨p, hstart, hstop, -⟩
  omega

/-- A line feed stands before an offset behind another one, or between the two. -/
theorem breaks_add {start stop n : Nat} (h : start ≤ stop) :
    Breaks text start (stop + n) ↔
      Breaks text start stop ∨ ('\n' : UInt8) ∈ text.slice stop n := by
  constructor
  · rintro ⟨p, hstart, hp, hfeed⟩
    rcases Nat.lt_or_ge p stop with hlt | hge
    · exact .inl ⟨p, hstart, hlt, hfeed⟩
    · refine .inr (List.mem_iff_getElem?.mpr ⟨p - stop, ?_⟩)
      rw [Bytes.slice, List.getElem?_take_of_lt (by omega), List.getElem?_drop,
        Nat.add_sub_cancel' hge, hfeed]
  · rintro (⟨p, hstart, hp, hfeed⟩ | hmem)
    · exact ⟨p, hstart, by omega, hfeed⟩
    · obtain ⟨k, hk⟩ := List.mem_iff_getElem?.mp hmem
      have hlt : k < n := by
        have := (List.getElem?_eq_some_iff.mp hk).1
        rw [Bytes.slice, List.length_take] at this
        omega
      rw [Bytes.slice, List.getElem?_take_of_lt hlt, List.getElem?_drop] at hk
      exact ⟨stop + k, by omega, by omega, hk⟩

/-- A byte before `stop` belongs to the first line, to a token, or to a gap apart from the
tokens. -/
inductive Covered (text : Bytes) (tokens : List Token) (stop p : Nat) : Prop
  | skipped : p < hashbang text → Covered text tokens stop p
  | token {t : Token} : t ∈ tokens → t.span.start.toNat ≤ p → p < t.span.stop.toNat →
      Covered text tokens stop p
  | gap {start n : Nat} : Gap (text.slice start n) → hashbang text ≤ start → start ≤ p →
      p < start + n → start + n ≤ stop →
      (∀ t ∈ tokens, t.span.stop.toNat ≤ start ∨ start + n ≤ t.span.start.toNat) →
      Covered text tokens stop p

/-- **Tokens and gaps tile a text up to an offset**: the tokens are pieces of it, one behind
the other; every other byte belongs to a gap or the first line; and a token knows whether a
line feed stands between it and what is before. -/
structure Tiles (text : Bytes) (tokens : List Token) (stop : Nat) : Prop where
  inside : stop ≤ text.length
  hashbang_le : hashbang text ≤ stop
  stands : ∀ t ∈ tokens, t.Stands text
  between : ∀ t ∈ tokens, hashbang text ≤ t.span.start.toNat ∧ t.span.stop.toNat ≤ stop
  ordered : tokens.Pairwise Precedes
  covered : ∀ p < stop, Covered text tokens stop p
  newLine : ∀ before t after, tokens = before ++ t :: after →
    (t.onNewLine = true ↔ Breaks text (behind text before) t.span.start.toNat)

namespace Tiles

variable {tokens : List Token} {stop n : Nat} {t : Token}

/-- Before anything is read there is the first line. -/
theorem start (text : Bytes) : Tiles text [] (hashbang text) :=
  ⟨ScriptLint.hashbang_le text, Nat.le_refl _, by simp, by simp, .nil,
    fun _ => .skipped, by simp⟩

/-- What is read lies before what is next. -/
theorem behind_le (h : Tiles text tokens stop) : behind text tokens ≤ stop := by
  rcases List.eq_nil_or_concat tokens with rfl | ⟨before, t, rfl⟩
  · exact h.hashbang_le
  · rw [List.concat_eq_append, behind_snoc]
    exact (h.between t (by simp)).2

/-- A gap is passed. -/
theorem gap (h : Tiles text tokens stop) (hgap : Gap (text.slice stop n))
    (hinside : stop + n ≤ text.length) : Tiles text tokens (stop + n) := by
  refine ⟨hinside, Nat.le_add_right_of_le h.hashbang_le, h.stands,
    fun t ht => (h.between t ht).imp_right Nat.le_add_right_of_le, h.ordered,
    fun p hp => ?_, h.newLine⟩
  rcases Nat.lt_or_ge p stop with hlt | hge
  · cases h.covered p hlt with
    | skipped hfirst => exact .skipped hfirst
    | token ht hstart hstop => exact .token ht hstart hstop
    | gap hgap hfirst hstart hstop hle hapart =>
      exact .gap hgap hfirst hstart hstop (Nat.le_add_right_of_le hle) hapart
  · exact .gap hgap h.hashbang_le hge hp (Nat.le_refl _) fun t ht => .inl (h.between t ht).2

/-- A token is read. -/
theorem snoc (h : Tiles text tokens t.span.start.toNat) (ht : t.Stands text)
    (hnewLine : t.onNewLine = true ↔ Breaks text (behind text tokens) t.span.start.toNat) :
    Tiles text (tokens ++ [t]) t.span.stop.toNat := by
  have hlt := ht.nonempty
  have hfirst := h.hashbang_le
  refine ⟨ht.inside, by omega, ?stands, ?between, ?ordered, ?covered, ?newLine⟩
  case stands => exact List.forall_mem_append.mpr ⟨h.stands, by simpa using ht⟩
  case between =>
    refine List.forall_mem_append.mpr ⟨fun t' ht' => ?_, by simpa using hfirst⟩
    have := h.between t' ht'
    omega
  case ordered =>
    refine List.pairwise_append.mpr ⟨h.ordered, by simp, fun t' ht' t'' ht'' => ?_⟩
    obtain rfl := List.mem_singleton.mp ht''
    exact (h.between t' ht').2
  case covered =>
    intro p hp
    rcases Nat.lt_or_ge p t.span.start.toNat with hbefore | hge
    · cases h.covered p hbefore with
      | skipped hfirst => exact .skipped hfirst
      | token ht hstart hstop => exact .token (List.mem_append_left _ ht) hstart hstop
      | gap hgap hfirst hstart hstop hle hapart =>
        refine .gap hgap hfirst hstart hstop (by omega) ?_
        exact List.forall_mem_append.mpr ⟨hapart, by simpa using .inr hle⟩
    · exact .token (by simp) hge hp
  case newLine =>
    intro before t' after heq
    rcases List.eq_nil_or_concat after with rfl | ⟨after, last, rfl⟩
    · obtain ⟨rfl, rfl⟩ : tokens = before ∧ t = t' := by simpa using List.append_inj' heq rfl
      exact hnewLine
    · rw [List.concat_eq_append, ← List.cons_append, ← List.append_assoc] at heq
      exact h.newLine before t' after (List.append_inj_left' heq rfl)

end Tiles

/-! ### Strings -/

/-- The text of a token is its value between two quotes. -/
def IsQuoted (t : Token) : Prop :=
  ∃ quote : UInt8, (quote = '"' ∨ quote = '\'') ∧ t.text = quote :: (t.value ++ [quote])

theorem isQuoted_of_first {t : Token}
    (h : Piece.first elements last frames pos b rest = .ok (.lexeme .string extra frames'))
    (htext : t.text = b :: rest.take extra) : t.IsQuoted := by
  cases Piece.lexes_of_first h with
  | string hquote hextent =>
    obtain ⟨body, hbody⟩ := Piece.take_of_stringExtent hextent
    exact ⟨b, hquote, by simp [value, htext, hbody]⟩

/-! ### Cursors -/

/-- Where the reading of a text stands: the tokens that were found, the braces that are open,
whether a line feed was passed since the last token, and the offset. -/
structure Cursor where
  tokens : List Token
  frames : List Frame
  onNewLine : Bool
  pos : Nat

namespace Cursor

/-- The beginning, behind a first line that begins with `#!`. -/
def start (text : Bytes) : Cursor := ⟨[], [], false, hashbang text⟩

/-- The token that a lexeme at a cursor is. -/
def token (c : Cursor) (kind : Kind) (b : UInt8) (rest : Bytes) (extra : Nat) : Token :=
  ⟨kind, b :: rest.take extra, .ofOffsets c.pos (c.pos + 1 + extra), c.onNewLine⟩

/-- What is found from a cursor on. -/
def found (elements : Bool) (text : Bytes) (c : Cursor) : Except Failure (List Token) :=
  scanFrom elements c.tokens.getLast? c.frames c.onNewLine c.pos (text.drop c.pos)

/-- One piece of the reading: a gap or a lexeme. -/
inductive Step (elements : Bool) (text : Bytes) (c : Cursor) : Cursor → Prop
  | gap {b : UInt8} {rest : Bytes} {extra : Nat} {breaks : Bool} : text.drop c.pos = b :: rest →
      Piece.first elements c.tokens.getLast? c.frames c.pos b rest = .ok (.gap extra breaks) →
      Step elements text c ⟨c.tokens, c.frames, c.onNewLine || breaks, c.pos + 1 + extra⟩
  | lexeme {b : UInt8} {rest : Bytes} {kind : Kind} {extra : Nat} {frames : List Frame} :
      text.drop c.pos = b :: rest →
      Piece.first elements c.tokens.getLast? c.frames c.pos b rest =
        .ok (.lexeme kind extra frames) →
      Step elements text c
        ⟨c.tokens ++ [c.token kind b rest extra], frames, false, c.pos + 1 + extra⟩

/-- The reading comes to a cursor. -/
def Reached (elements : Bool) (text : Bytes) : Cursor → Prop :=
  Relation.ReflTransGen (Step elements text) (start text)

variable {c c' : Cursor} {later : List Token}

/-- A step goes on in the text. -/
theorem Step.lt (h : Step elements text c c') : c.pos < c'.pos ∧ c'.pos ≤ text.length := by
  cases h with
  | gap hrest hfirst =>
    have := length_of_drop hrest
    have := (Piece.gap_of_first hfirst).2.1
    exact ⟨by dsimp only; omega, by dsimp only; omega⟩
  | lexeme hrest hfirst =>
    have := length_of_drop hrest
    have := Piece.extra_le hfirst
    exact ⟨by dsimp only; omega, by dsimp only; omega⟩

/-- What is left of a text behind a piece. -/
theorem drop_of_piece (hrest : text.drop pos = b :: rest) :
    text.drop (pos + 1 + extra) = rest.drop extra := by
  rw [← List.drop_drop, ← List.drop_drop, hrest, List.drop_one, List.tail_cons]

/-- **What is found from a cursor on** is what is found from the next one on, behind the token
that was read. -/
theorem Step.found_eq (h : Step elements text c c') :
    (c.found elements text).map (c.tokens ++ ·) = (c'.found elements text).map (c'.tokens ++ ·) := by
  cases h with
  | gap hrest hfirst =>
    simp only [found]
    rw [drop_of_piece hrest, hrest, scanFrom_gap hfirst]
  | @lexeme b rest kind extra frames hrest hfirst =>
    simp only [found]
    rw [drop_of_piece hrest, hrest, scanFrom_lexeme hfirst, List.getLast?_concat]
    change Except.map _ (scanFrom elements (some (c.token kind b rest extra)) frames false
      (c.pos + 1 + extra) (rest.drop extra) >>= fun later =>
        .ok (c.token kind b rest extra :: later)) = _
    cases scanFrom elements (some (c.token kind b rest extra)) frames false (c.pos + 1 + extra)
      (rest.drop extra) with
    | error f => rfl
    | ok later =>
      exact congrArg Except.ok (List.append_assoc c.tokens [c.token kind b rest extra] later).symm

theorem Reached.scan_eq (h : Reached elements text c) :
    scan elements text = (c.found elements text).map (c.tokens ++ ·) := by
  induction h with
  | refl =>
    have hscan : scan elements text = (start text).found elements text := rfl
    rw [hscan]
    cases (start text).found elements text <;> rfl
  | tail _ hstep ih => rw [ih, hstep.found_eq]

/-- What is known at a cursor: the text is tiled up to it, it knows of line feeds behind the
last token, and its open braces are the ones that the tokens tell of. -/
structure Laid (text : Bytes) (c : Cursor) : Prop where
  tiles : Tiles text c.tokens c.pos
  onNewLine : c.onNewLine = true ↔ Breaks text (behind text c.tokens) c.pos
  stacks_of : Stacks.of c.tokens = .ofFrames c.frames

theorem laid_start (text : Bytes) : Laid text (start text) := by
  refine ⟨.start text, ?_, rfl⟩
  simpa [start] using not_breaks_self text (hashbang text)

/-- The bytes of a piece. -/
theorem slice_of_piece (hrest : text.drop pos = b :: rest) :
    text.slice pos (1 + extra) = b :: rest.take extra := by
  rw [Bytes.slice, hrest, Nat.add_comm, List.take_succ_cons]

theorem Laid.gap {breaks : Bool} (h : Laid text c) (hrest : text.drop c.pos = b :: rest)
    (hfirst : Piece.first elements last frames c.pos b rest = .ok (.gap extra breaks)) :
    Laid text ⟨c.tokens, c.frames, c.onNewLine || breaks, c.pos + 1 + extra⟩ := by
  obtain ⟨hgap, hextra, hbreaks⟩ := Piece.gap_of_first hfirst
  have hlength := length_of_drop hrest
  rw [← slice_of_piece hrest] at hgap hbreaks
  refine ⟨?_, ?_, h.stacks_of⟩
  · rw [Nat.add_assoc]
    exact h.tiles.gap hgap (by omega)
  · rw [Bool.or_eq_true, h.onNewLine, hbreaks, Nat.add_assoc, breaks_add h.tiles.behind_le]

theorem Laid.lexeme (h : Laid text c) (hlength : text.length < 2 ^ 32)
    (hrest : text.drop c.pos = b :: rest)
    (hfirst : Piece.first elements last c.frames c.pos b rest = .ok (.lexeme kind extra frames)) :
    Laid text ⟨c.tokens ++ [c.token kind b rest extra], frames, false, c.pos + 1 + extra⟩ := by
  have hword : kind = .word → isWordStart b = true := by
    rintro rfl
    exact Piece.isWordStart_of_word hfirst
  have hstands : (c.token kind b rest extra).StandsAt text (c.pos, c.pos + 1 + extra) :=
    standsAt_lexeme c.onNewLine hrest (Piece.extra_le hfirst) hword
  obtain ⟨hstart, hstop⟩ := hstands.toNat_span hlength
  dsimp only at hstart hstop
  refine ⟨?tiles, ?onNewLine, ?stacks_of⟩
  case tiles =>
    have htiles : Tiles text (c.tokens ++ [c.token kind b rest extra])
        (c.token kind b rest extra).span.stop.toNat :=
      .snoc (hstart.symm ▸ h.tiles) (hstands.stands hlength) (hstart.symm ▸ h.onNewLine)
    rwa [hstop] at htiles
  case onNewLine =>
    dsimp only
    rw [behind_snoc, hstop]
    simpa using not_breaks_self text (c.pos + 1 + extra)
  case stacks_of =>
    have hinside := hstands.inside
    dsimp only at hinside ⊢
    rw [Stacks.of, List.foldl_append, ← Stacks.of, h.stacks_of]
    exact Stacks.read_lexeme hfirst (by omega)

/-- **Every step** keeps what is known. -/
theorem Laid.step (h : Laid text c) (hlength : text.length < 2 ^ 32)
    (hstep : Step elements text c c') : Laid text c' := by
  cases hstep with
  | gap hrest hfirst => exact h.gap hrest hfirst
  | lexeme hrest hfirst => exact h.lexeme hlength hrest hfirst

/-- **So it is known at every cursor.** -/
theorem Reached.laid (h : Reached elements text c) (hlength : text.length < 2 ^ 32) :
    Laid text c := by
  induction h with
  | refl => exact laid_start text
  | tail _ hstep ih => exact ih.step hlength hstep

/-- Before the end of the text a reading that succeeds goes on. -/
theorem exists_step (hrest : text.drop c.pos = b :: rest)
    (h : c.found elements text = .ok later) :
    ∃ c' later', Step elements text c c' ∧ c'.found elements text = .ok later' ∧
      c.tokens ++ later = c'.tokens ++ later' := by
  obtain ⟨c', hstep⟩ : ∃ c', Step elements text c c' := by
    rw [found, hrest] at h
    obtain ⟨piece, hfirst, -⟩ := bind_ok ((scanFrom.eq_2 ..).symm.trans h)
    cases piece with
    | gap extra breaks => exact ⟨_, .gap hrest hfirst⟩
    | lexeme kind extra frames => exact ⟨_, .lexeme hrest hfirst⟩
  have hfound := hstep.found_eq
  rw [h] at hfound
  cases hnext : c'.found elements text with
  | error f =>
    rw [hnext] at hfound
    cases hfound
  | ok later' =>
    rw [hnext] at hfound
    exact ⟨c', later', hstep, hnext, Except.ok.inj hfound⟩

/-- A reading that succeeds comes to the end of the text, with no substitution open. -/
theorem exists_end (hpos : c.pos ≤ text.length) (h : c.found elements text = .ok later) :
    ∃ c', Relation.ReflTransGen (Step elements text) c c' ∧ c'.tokens = c.tokens ++ later ∧
      c'.pos = text.length ∧ (Stacks.ofFrames c'.frames).starts = [] := by
  induction hn : text.length - c.pos using Nat.strongRecOn generalizing c later with
  | _ n ih =>
    cases hrest : text.drop c.pos with
    | nil =>
      rw [found, hrest] at h
      obtain ⟨hframes, rfl⟩ := block_of_scanFrom h
      refine ⟨c, .refl, by simp, Nat.le_antisymm hpos (List.drop_eq_nil_iff.mp hrest), ?_⟩
      refine List.filterMap_eq_nil_iff.mpr fun f hf => ?_
      rw [hframes f hf]
      rfl
    | cons b rest =>
      obtain ⟨c', later', hstep, hnext, htokens⟩ := exists_step hrest h
      obtain ⟨hlt, hle⟩ := hstep.lt
      obtain ⟨c'', hsteps, htokens', hend⟩ := ih _ (by omega) hle hnext rfl
      exact ⟨c'', .head hstep hsteps, htokens'.trans htokens.symm, hend⟩

theorem Step.isQuoted (h : Step elements text c c')
    (hc : ∀ t ∈ c.tokens, t.kind = .string → t.IsQuoted) :
    ∀ t ∈ c'.tokens, t.kind = .string → t.IsQuoted := by
  cases h with
  | gap => exact hc
  | lexeme hrest hfirst =>
    refine List.forall_mem_append.mpr ⟨hc, List.forall_mem_singleton.mpr ?_⟩
    rintro rfl
    exact isQuoted_of_first hfirst rfl

theorem Reached.isQuoted (h : Reached elements text c) :
    ∀ t ∈ c.tokens, t.kind = .string → t.IsQuoted := by
  induction h with
  | refl => simp [start]
  | tail _ hstep ih => exact hstep.isQuoted ih

end Cursor

/-- **A string is its value between two quotes.** -/
theorem isQuoted_of_scan {tokens : List Token} (h : scan elements text = .ok tokens) :
    ∀ t ∈ tokens, t.kind = .string → t.IsQuoted := by
  obtain ⟨c, hc, rfl, -⟩ := Cursor.exists_end (c := Cursor.start text) (hashbang_le text) h
  exact Cursor.Reached.isQuoted hc

/-- **A scan tiles its text.**  At every cursor that the reading comes to, the result is what
was found so far and what is found from there on; the next cursor is further right, and inside
of the text; and the stacks that the tokens tell of are those of the open braces, with one
start for each open substitution.  A scan that succeeds comes to the end of the text, which
the tokens and the gaps between them tile, with no substitution open, and its strings are their
values between quotes; one that fails is at fault inside of it. -/
theorem scan_tiles {elements : Bool} {text : Bytes} (hlength : text.length < 2 ^ 32) :
    (∀ c, Cursor.Reached elements text c →
      c.pos ≤ text.length ∧
      scan elements text = (c.found elements text).map (c.tokens ++ ·) ∧
      (∀ c', Cursor.Step elements text c c' → c.pos < c'.pos ∧ c'.pos ≤ text.length) ∧
      Stacks.of c.tokens = .ofFrames c.frames ∧
      (Stacks.of c.tokens).starts.length = (Stacks.of c.tokens).braces.count true) ∧
    (∀ tokens, scan elements text = .ok tokens → Tiles text tokens text.length ∧
      (∀ t ∈ tokens, t.kind = .string → t.IsQuoted) ∧ (Stacks.of tokens).starts = [] ∧
      ∃ c, Cursor.Reached elements text c ∧ c.tokens = tokens ∧ c.pos = text.length) ∧
    ∀ f, scan elements text = .error f → f.span.Within 0 text.length := by
  refine ⟨?reached, ?done, fun f hf => within_of_scan hlength hf⟩
  case reached =>
    intro c hc
    have hlaid := hc.laid hlength
    refine ⟨hlaid.tiles.inside, hc.scan_eq, fun c' hstep => hstep.lt, hlaid.stacks_of, ?_⟩
    rw [hlaid.stacks_of]
    exact Stacks.length_starts_ofFrames c.frames
  case done =>
    intro tokens hscan
    obtain ⟨c, hc, htokens, hend, hstarts⟩ :=
      Cursor.exists_end (c := Cursor.start text) (hashbang_le text) hscan
    obtain rfl : c.tokens = tokens := htokens
    change Cursor.Reached elements text c at hc
    have hlaid := hc.laid hlength
    refine ⟨hend ▸ hlaid.tiles, hc.isQuoted, ?_, c, hc, rfl, hend⟩
    rw [hlaid.stacks_of]
    exact hstarts

/-- A string and a template with a substitution, behind a first line and before a comment. -/
theorem scan_tiles_template : ∃ (text : Bytes) (tokens : List Token),
    text = "#!x\n'a' `b$\x7bc\x7d` // d" ∧ text.length < 2 ^ 32 ∧
    scan false text = .ok tokens ∧ tokens.map Token.kind = [.string, .template, .word, .template] ∧
    Tiles text tokens text.length ∧ (Stacks.of tokens).starts = [] := by
  obtain ⟨text, htext⟩ : ∃ text : Bytes, text = "#!x\n'a' `b$\x7bc\x7d` // d" := ⟨_, rfl⟩
  have hlength : text.length < 2 ^ 32 := by
    rw [htext]
    decide
  have hkinds : (scan false text).map (List.map Token.kind) =
      .ok [.string, .template, .word, .template] := by
    rw [htext]
    decide +kernel
  cases hscan : scan false text with
  | error f => simp [hscan, Except.map] at hkinds
  | ok tokens =>
    rw [hscan] at hkinds
    obtain ⟨htiles, -, hstarts, -⟩ := (scan_tiles hlength).2.1 tokens hscan
    exact ⟨text, tokens, htext, hlength, hscan, Except.ok.inj hkinds, htiles, hstarts⟩

end Token

end ScriptLint
