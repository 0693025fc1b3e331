/-
Reading a text without its `debugger` words.

A lexeme is read as before when `debugger` words are gone from around it, unless a slash is
concerned: one that stood before such a word may begin a comment, and one that stood behind
it may change its role.

* **`Outline.ReadsAlike`** — when this does not happen;
* **`Outline.Thins`** — tokens that are the ones to stay;
* **`Reading.prune`** — the tokens of a text without its `debugger` words.
-/
import ScriptLint.Proofs.Deleting
import ScriptLint.Proofs.Erasing
import ScriptLint.Proofs.Readings

namespace ScriptLint

namespace Outline

section

variable (o : Outline)

/-- The token at an index is the semicolon after a `debugger`. -/
def trails (i : Nat) : Bool := 0 < i && o.is i ";" && o.isDebugger (i - 1)

/-- The spans of all `debugger` words with the semicolons after them. -/
def debuggerSpans : List Span :=
  ((indices 0 o.size).filter o.isDebugger).map fun i => o.spanOf i (o.debuggerEnd i)

/-- The token before an index. -/
def before? (i : Nat) : Option Token := if i = 0 then none else some (o.token (i - 1))

/-- The last token before an index that is to stay. -/
def lastSpared : Nat → Option Token
  | 0 => none
  | i + 1 => if o.isSpared i then some (o.token i) else lastSpared i

/-- The tokens that are to stay are read alike without the others: no slash comes to stand
before another one, none changes its role, and no `#` comes to stand at the beginning. -/
structure ReadsAlike (elements : Bool) : Prop where
  apart : ∀ i < o.size, o.isDebugger i = true → (o.token (i - 1)).text ≠ "/"
  slash : ∀ i < o.size, o.isSpared i = true → (o.token i).text.head? = some '/' →
    (o.lastSpared i).all (Token.allowsPattern elements) =
      (o.before? i).all (Token.allowsPattern elements)
  hash : ∀ i < o.size, o.isSpared i = true → 0 < i → o.isSpared (i - 1) = false →
    (o.token i).text ≠ "#"

instance (elements : Bool) : Decidable (o.ReadsAlike elements) :=
  decidable_of_iff
    ((∀ i < o.size, o.isDebugger i = true → (o.token (i - 1)).text ≠ "/") ∧
      (∀ i < o.size, o.isSpared i = true → (o.token i).text.head? = some '/' →
        (o.lastSpared i).all (Token.allowsPattern elements) =
          (o.before? i).all (Token.allowsPattern elements)) ∧
      ∀ i < o.size, o.isSpared i = true → 0 < i → o.isSpared (i - 1) = false →
        (o.token i).text ≠ "#")
    ⟨fun h => ⟨h.1, h.2.1, h.2.2⟩, fun h => ⟨h.apart, h.slash, h.hash⟩⟩

/-- Tokens that are, in kind and text, the ones to stay from an index on. -/
inductive Thins : Nat → List Token → Prop
  | done : Thins o.size []
  | drop {i : Nat} {tokens : List Token} : i < o.size → o.isSpared i = false →
      Thins (i + 1) tokens → Thins i tokens
  | keep {i : Nat} {t : Token} {tokens : List Token} : i < o.size → o.isSpared i = true →
      t.kind = (o.token i).kind → t.text = (o.token i).text → Thins (i + 1) tokens →
      Thins i (t :: tokens)

end

variable {o : Outline} {source : Bytes} {i k offset : Nat}

/-! ### What the spans cover -/

theorem isSpared_eq (i : Nat) : o.isSpared i = (!o.isDebugger i && !o.trails i) := rfl

theorem isDebugger_of_isSpared (h : o.isSpared i = true) : o.isDebugger i = false := by
  rw [isSpared_eq, Bool.and_eq_true] at h
  simpa using h.1

theorem trails_of_isSpared (h : o.isSpared i = true) : o.trails i = false := by
  rw [isSpared_eq, Bool.and_eq_true] at h
  simpa using h.2

/-- Behind a token that is to stay the next one stays, or is a `debugger`. -/
theorem trails_succ (h : o.isSpared i = true) : o.trails (i + 1) = false := by
  simp [trails, isDebugger_of_isSpared h]

theorem lt_of_isDebugger (h : o.isDebugger i = true) : i < o.size :=
  lt_of_is (Bool.and_eq_true_iff.mp h).1

theorem isDebugger_of_trails (h : o.trails i = true) :
    i < o.size ∧ 0 < i ∧ o.isDebugger (i - 1) = true ∧ o.debuggerEnd (i - 1) = i + 1 := by
  simp only [trails, Bool.and_eq_true, decide_eq_true_eq] at h
  obtain ⟨⟨hi, hmark⟩, hdebugger⟩ := h
  refine ⟨lt_of_is hmark, hi, hdebugger, ?_⟩
  rw [debuggerEnd, Nat.sub_add_cancel hi, if_pos hmark]
  omega

theorem mem_debuggerSpans {s : Span} :
    s ∈ o.debuggerSpans ↔ ∃ k, o.isDebugger k = true ∧ s = o.spanOf k (o.debuggerEnd k) := by
  unfold debuggerSpans
  rw [List.mem_map]
  constructor
  · rintro ⟨k, hk, rfl⟩
    exact ⟨k, (List.mem_filter.mp hk).2, rfl⟩
  · rintro ⟨k, hk, rfl⟩
    have hsize := lt_of_isDebugger hk
    refine ⟨k, List.mem_filter.mpr ⟨List.mem_range'_1.mpr ⟨Nat.zero_le _, ?_⟩, hk⟩, rfl⟩
    omega

theorem covered_iff : Span.covered o.debuggerSpans offset = true ↔
    ∃ k, o.isDebugger k = true ∧ (o.token k).span.start.toNat ≤ offset ∧
      offset < (o.token (o.debuggerEnd k - 1)).span.stop.toNat := by
  rw [Span.covered_iff]
  constructor
  · rintro ⟨s, hs, hle, hlt⟩
    obtain ⟨k, hk, rfl⟩ := mem_debuggerSpans.mp hs
    rw [spanOf, if_neg (Nat.not_le.mpr (o.lt_debuggerEnd k))] at hle hlt
    exact ⟨k, hk, hle, hlt⟩
  · rintro ⟨k, hk, hle, hlt⟩
    refine ⟨_, mem_debuggerSpans.mpr ⟨k, hk, rfl⟩, ?_⟩
    rw [spanOf, if_neg (Nat.not_le.mpr (o.lt_debuggerEnd k))]
    exact ⟨hle, hlt⟩

/-- Between tokens only what stands before the semicolon of a `debugger` is covered. -/
theorem trails_of_covered (ho : o.Lawful source) (hi : i ≤ o.size)
    (hbefore : ∀ k < i, (o.token k).span.stop.toNat ≤ offset)
    (hafter : i < o.size → offset < (o.token i).span.start.toNat)
    (h : Span.covered o.debuggerSpans offset = true) : o.trails i = true := by
  obtain ⟨k, hk, hstart, hstop⟩ := covered_iff.mp h
  have hsize := lt_of_isDebugger hk
  have hki : k < i := by
    by_contra hle
    have hlt := hafter (by omega)
    rcases Nat.eq_or_lt_of_le (Nat.not_lt.mp hle) with rfl | hik
    · omega
    · have := ho.start_lt_stop (Nat.le_of_lt hik) hsize
      have := ho.ordered i k hik hsize
      have := (ho.stands i (by omega)).nonempty
      simp only [Token.Precedes] at *
      omega
  -- the span reaches over more than the word, which is behind
  unfold debuggerEnd at hstop
  split at hstop
  case isTrue hmark =>
    have hnext : k + 1 = i := by
      by_contra hne
      exact absurd hstop (Nat.not_lt.mpr (hbefore (k + 1) (by omega)))
    subst hnext
    simp [trails, hmark, hk]
  case isFalse =>
    have := hbefore k hki
    rw [Nat.add_sub_cancel] at hstop
    omega

/-- A token that is to stay is not covered. -/
theorem covered_of_isSpared (ho : o.Lawful source) (hi : i < o.size) (hspared : o.isSpared i = true)
    (hstart : (o.token i).span.start.toNat ≤ offset) (hstop : offset < (o.token i).span.stop.toNat) :
    Span.covered o.debuggerSpans offset = false := by
  rw [Bool.eq_false_iff]
  intro h
  obtain ⟨s, hs, hle, hlt⟩ := Span.covered_iff.mp h
  obtain ⟨k, hk, rfl⟩ := mem_debuggerSpans.mp hs
  have := (justDebugger_spanOf ho hk).apart hi hspared
  omega

theorem covered_of_isDebugger (ho : o.Lawful source) (hi : o.isDebugger i = true)
    (hstart : (o.token i).span.start.toNat ≤ offset) (hstop : offset < (o.token i).span.stop.toNat) :
    Span.covered o.debuggerSpans offset = true := by
  refine covered_iff.mpr ⟨i, hi, hstart, Nat.lt_of_lt_of_le hstop ?_⟩
  have hsize := lt_of_isDebugger hi
  rcases Nat.eq_or_lt_of_le (Nat.le_sub_one_of_lt (o.lt_debuggerEnd i)) with heq | hlt
  · rw [← heq]
  · have hle := debuggerEnd_le hsize
    have := ho.ordered i _ hlt (by omega)
    have := (ho.stands (o.debuggerEnd i - 1) (by omega)).nonempty
    simp only [Token.Precedes] at *
    omega

/-- The semicolon after a `debugger` is covered, with what stands before it. -/
theorem covered_of_trails (ho : o.Lawful source) (hi : o.trails i = true)
    (hstart : (o.token (i - 1)).span.stop.toNat ≤ offset)
    (hstop : offset < (o.token i).span.stop.toNat) :
    Span.covered o.debuggerSpans offset = true := by
  obtain ⟨hsize, hpos, hdebugger, hend⟩ := isDebugger_of_trails hi
  have hnonempty := (ho.stands (i - 1) (by omega)).nonempty
  refine covered_iff.mpr ⟨i - 1, hdebugger, by omega, ?_⟩
  rwa [hend, Nat.add_sub_cancel]

/-- What is covered before a token, or where it begins, is a `debugger`. -/
theorem isDebugger_of_covered (ho : o.Lawful source) (hi : i ≤ o.size)
    (htrails : o.trails i = false) (hbefore : ∀ k < i, (o.token k).span.stop.toNat ≤ offset)
    (hafter : i < o.size → offset ≤ (o.token i).span.start.toNat)
    (h : Span.covered o.debuggerSpans offset = true) :
    o.isDebugger i = true ∧ (o.token i).span.start.toNat = offset := by
  -- what is covered is no gap, so it is the token
  obtain ⟨hsize, hle⟩ : i < o.size ∧ (o.token i).span.start.toNat ≤ offset := by
    by_contra hgap
    have htrails' := trails_of_covered ho hi hbefore (by omega) h
    simp [htrails] at htrails'
  have hnonempty := (ho.stands i hsize).nonempty
  have hstart := Nat.le_antisymm hle (hafter hsize)
  refine ⟨?_, hstart⟩
  by_contra hdebugger
  have hspared : o.isSpared i = true := by
    rw [isSpared_eq, htrails, Bool.eq_false_iff.mpr hdebugger]
    rfl
  rw [covered_of_isSpared ho hsize hspared hle (by omega)] at h
  cases h

/-- Behind a token that is to stay only a `debugger` is covered. -/
theorem isDebugger_succ_of_covered (ho : o.Lawful source) (hi : i < o.size)
    (hspared : o.isSpared i = true)
    (h : Span.covered o.debuggerSpans (o.token i).span.stop.toNat = true) :
    o.isDebugger (i + 1) = true ∧
      (o.token (i + 1)).span.start.toNat = (o.token i).span.stop.toNat := by
  refine isDebugger_of_covered ho hi (trails_succ hspared) (fun k hk => ?_)
    (fun hsize => ho.ordered i (i + 1) (Nat.lt_succ_self i) hsize) h
  rcases Nat.lt_succ_iff_lt_or_eq.mp hk with hk | rfl
  · have := ho.ordered k i hk hi
    have := (ho.stands i hi).nonempty
    simp only [Token.Precedes] at *
    omega
  · exact Nat.le_refl _

end Outline

/-! ### Lexemes around a `debugger` -/

section

variable {elements : Bool} {last : Option Token} {frames after : List Frame} {pos : Nat}
  {b : UInt8} {tail rest : Bytes} {kind : Token.Kind}

theorem Piece.first_semicolon :
    Piece.first elements last frames pos ';' rest = .ok (.lexeme .mark 0 frames) :=
  (Lexes.mark (by decide) (by decide) (by decide) (by decide) (by decide) (by decide)
    (absurd · (by decide)) (absurd · (by decide)) (absurd · (by decide))).first

theorem Piece.first_hash : Piece.first elements last frames pos '#' rest =
    .ok (.lexeme .word (rest.takeWhile isWordPart).length frames) :=
  (Lexes.word (by decide)).first

/-- A dot alone is a mark. -/
theorem Piece.kind_of_dot
    (h : Piece.first elements last frames pos '.' rest = .ok (.lexeme kind 0 after)) :
    kind = .mark := by
  generalize hb : ('.' : UInt8) = b at h
  generalize hn : 0 = n at h
  cases lexes_of_first h with
  | mark | dots => rfl
  | string hrole | template hrole | resumed hrole | word hrole | pattern hrole =>
    exact absurd (hb ▸ hrole) (by decide)
  | number hnumber =>
    -- a number goes on with the digit behind the dot
    subst hb
    cases rest with
    | nil => exact absurd hnumber (by decide)
    | cons c rest =>
      have hdigit : Bytes.isDigit c = true :=
        (Bool.and_eq_true_iff.mp ((Bool.or_eq_true_iff.mp hnumber).resolve_left (by decide))).2
      simp only [numberExtent, isWordPart, hdigit, Bool.or_true, Bool.true_or, if_true] at hn
      omega

/-- So it is in every reading. -/
theorem Reading.kind_of_dot {text : Bytes} {tokens : List Token}
    (h : Reading elements last frames pos text tokens) :
    ∀ t ∈ tokens, t.text = "." → t.kind = .mark := by
  induction h with
  | done => exact fun t ht => absurd ht List.not_mem_nil
  | @lexeme _ _ _ _ _ tail _ b t _ _ hfirst htext _ _ ih =>
    refine List.forall_mem_cons.mpr ⟨fun hdot => ?_, ih⟩
    obtain ⟨rfl, rfl⟩ : b = '.' ∧ tail = [] := List.cons.inj (htext.symm.trans hdot)
    exact Piece.kind_of_dot hfirst

end

namespace Outline

variable {o : Outline} {source rest : Bytes} {i : Nat} {c : UInt8}

/-- The text of a token is what stands at its place. -/
theorem Lawful.text_eq (ho : o.Lawful source) (hi : i < o.size) :
    (o.token i).text = (source.drop (o.token i).span.start.toNat).take
      ((o.token i).span.stop.toNat - (o.token i).span.start.toNat) :=
  (ho.stands i hi).cut

/-- A `debugger` that is covered begins with its first letter. -/
theorem head_of_debugger (ho : o.Lawful source) (h : o.isDebugger i = true) :
    (source.drop (o.token i).span.start.toNat).head? = some 'd' := by
  have hi := lt_of_isDebugger h
  have htext := ho.text_eq hi
  rw [text_of_is (Bool.and_eq_true_iff.mp h).1] at htext
  have hnonempty := (ho.stands i hi).nonempty
  have hhead := congrArg List.head? htext
  rw [List.head?_take, if_neg (by omega)] at hhead
  exact hhead.symm

/-- A dot is followed by no `debugger`. -/
theorem isDebugger_after_dot (hi : i < o.size) (htext : (o.token i).text = ".")
    (hkind : (o.token i).kind = .mark) : o.isDebugger (i + 1) = false := by
  have hdot : o.is i "." = true := by
    rw [is_iff]
    exact ⟨o.token i, getElem_eq_token hi, by simp [Token.isText, hkind, htext]⟩
  simp [isDebugger, followsDot, hdot]

theorem head_without (offset : Nat) (h : Span.covered o.debuggerSpans offset = false) :
    (Bytes.without o.debuggerSpans offset rest).head? = rest.head? := by
  cases rest with
  | nil => rfl
  | cons c rest => simp [Bytes.without, h]

/-- Dots make a longer mark only if they are next to each other. -/
theorem startsWith_dots (c : UInt8) (text : Bytes) :
    Bytes.startsWith (c :: text) ".." =
      (('.' : UInt8) == c && text.head?.any (('.' : UInt8) == ·)) := by
  cases text with
  | nil => rfl
  | cons d text => exact congrArg _ (Bool.and_true _)

/-- No `debugger` stands right behind two dots. -/
theorem covered_behind_dots (ho : o.Lawful source)
    (hdots : ∀ k < o.size, (o.token k).text = "." → (o.token k).kind = .mark) (hi : i < o.size)
    (hspared : o.isSpared i = true) (htext : (o.token i).text = ".")
    (hrest : source.drop (o.token i).span.stop.toNat = ('.' :: rest : Bytes))
    (hfree : Span.covered o.debuggerSpans (o.token i).span.stop.toNat = false) :
    Span.covered o.debuggerSpans ((o.token i).span.stop.toNat + 1) = false := by
  rw [Bool.eq_false_iff]
  intro hcovered
  obtain ⟨s, hs, hle, hlt⟩ := Span.covered_iff.mp hcovered
  obtain ⟨k, hk, rfl⟩ := mem_debuggerSpans.mp hs
  have hsize := lt_of_isDebugger hk
  have hapart := (justDebugger_spanOf ho hk).apart hi hspared
  have hnonempty := (ho.stands i hi).nonempty
  have hspan : (o.spanOf k (o.debuggerEnd k)).start = (o.token k).span.start := by
    rw [spanOf, if_neg (Nat.not_le.mpr (o.lt_debuggerEnd k))]
  -- the word begins behind the one byte behind the dot
  have hstart : (o.token k).span.start.toNat = (o.token i).span.stop.toNat + 1 := by
    rw [hspan] at hapart hle
    by_contra hne
    have hnear : (o.token k).span.start.toNat = (o.token i).span.stop.toNat := by omega
    have := covered_of_isDebugger ho hk (Nat.le_of_eq hnear)
      (hnear ▸ (ho.stands k hsize).nonempty)
    simp [hfree] at this
  have hik : i < k := by
    by_contra hle
    rcases Nat.eq_or_lt_of_le (Nat.not_lt.mp hle) with rfl | hki
    · omega
    · have := ho.start_lt_stop (Nat.le_of_lt hki) hi
      have := ho.ordered k i hki hi
      have := (ho.stands k hsize).nonempty
      simp only [Token.Precedes] at *
      omega
  rcases Nat.eq_or_lt_of_le (Nat.succ_le_of_lt hik) with rfl | hik
  · rw [isDebugger_after_dot hi htext (hdots i hi htext)] at hk
    cases hk
  -- so the byte is a token of its own, and the word is the one behind it
  have hnext : i + 1 < o.size := by omega
  have hfirst := ho.ordered i (i + 1) (Nat.lt_succ_self i) hnext
  have hsecond := ho.ordered (i + 1) k hik hsize
  have hnonempty' := (ho.stands (i + 1) hnext).nonempty
  simp only [Token.Precedes] at hfirst hsecond
  have htext' : (o.token (i + 1)).text = "." := by
    rw [ho.text_eq hnext]
    have hstart' : (o.token (i + 1)).span.start.toNat = (o.token i).span.stop.toNat := by omega
    have hlength : (o.token (i + 1)).span.stop.toNat - (o.token (i + 1)).span.start.toNat = 1 := by
      omega
    rw [hlength, hstart', hrest]
    rfl
  rcases Nat.eq_or_lt_of_le (Nat.succ_le_of_lt hik) with rfl | hik
  · rw [isDebugger_after_dot hnext htext' (hdots _ hnext htext')] at hk
    cases hk
  · have hthird := ho.ordered (i + 1) (i + 2) (Nat.lt_succ_self _) (by omega)
    have hfourth := ho.ordered (i + 2) k hik hsize
    have := (ho.stands (i + 2) (by omega)).nonempty
    simp only [Token.Precedes] at hthird hfourth
    omega

section

variable {elements : Bool} {last : Option Token} {frames after : List Frame} {pos : Nat}
  {b : UInt8} {tail : Bytes}

/-- **Behind a lexeme that is to stay** the text without `debugger` words can take the place of
the text. -/
theorem exchange_without (ho : o.Lawful source) (hreads : o.ReadsAlike elements)
    (hdots : ∀ k < o.size, (o.token k).text = "." → (o.token k).kind = .mark) (hi : i < o.size)
    (hspared : o.isSpared i = true) (htext : (o.token i).text = b :: tail)
    (hrest : source.drop (o.token i).span.stop.toNat = rest)
    (h : Piece.first elements last frames pos b (tail ++ rest) =
      .ok (.lexeme (o.token i).kind tail.length after)) :
    Exchange (o.token i).kind (b :: tail) rest
      (Bytes.without o.debuggerSpans (o.token i).span.stop.toNat rest) := by
  have hfree (hkind : (o.token i).kind ∈ [.word, .number, .pattern] ∨ b :: tail = ['/'] ∨
      b :: tail = ['.']) :
      Span.covered o.debuggerSpans (o.token i).span.stop.toNat = false := by
    by_contra hcovered
    obtain ⟨hdebugger, hstart⟩ :=
      isDebugger_succ_of_covered ho hi hspared (by simpa using hcovered)
    rcases hkind with hkind | hslash | hdot
    · -- the word would have continued the lexeme
      have hhead := head_of_debugger ho hdebugger
      rw [hstart, hrest] at hhead
      exact absurd (Piece.head_of_open h hkind hhead) (by decide)
    · exact hreads.apart (i + 1) (lt_of_isDebugger hdebugger) hdebugger (htext.trans hslash)
    · have hdot := htext.trans hdot
      rw [isDebugger_after_dot hi hdot (hdots i hi hdot)] at hdebugger
      cases hdebugger
  refine ⟨fun hkind => head_without _ (hfree hkind), fun hdot => ?_⟩
  have hfree := hfree (.inr (.inr hdot))
  cases rest with
  | nil => rfl
  | cons c rest =>
    have hfirst : Bytes.without o.debuggerSpans (o.token i).span.stop.toNat (c :: rest) =
        c :: Bytes.without o.debuggerSpans ((o.token i).span.stop.toNat + 1) rest := by
      simp [Bytes.without, hfree]
    rw [hfirst, startsWith_dots, startsWith_dots]
    by_cases hc : c = '.'
    · subst hc
      rw [head_without _ (covered_behind_dots ho hdots hi hspared (htext.trans hdot) hrest hfree)]
    · have hne : (('.' : UInt8) == c) = false := beq_eq_false_iff_ne.mpr (Ne.symm hc)
      rw [hne, Bool.false_and, Bool.false_and]

end

end Outline

/-! ### Readings without the `debugger` words -/

section

variable {o : Outline} {source text rest filler tail : Bytes} {elements : Bool}
  {last : Option Token} {frames after : List Frame} {pos i : Nat} {b : UInt8} {t : Token}
  {tokens : List Token}

theorem Token.allowsPattern_congr {t t' : Token} (hkind : t'.kind = t.kind)
    (htext : t'.text = t.text) (elements : Bool) :
    t'.allowsPattern elements = t.allowsPattern elements := by
  simp only [allowsPattern, opensSubstitution, hkind, htext]

/-- A reading of a text has come to the token at an index. -/
structure Outline.Reached (o : Outline) (source : Bytes) (i pos : Nat) (text : Bytes)
    (tokens : List Token) : Prop where
  tokens : tokens = o.tokens.toList.drop i
  text : text = source.drop pos
  size : i ≤ o.size
  passed : ∀ k < i, (o.token k).span.stop.toNat ≤ pos

/-- The lexeme that a reading has come to is the token at the index. -/
theorem Outline.Reached.lexeme (hlength : source.length < 2 ^ 32)
    (h : o.Reached source i pos (filler ++ (b :: (tail ++ rest))) (t :: tokens))
    (hspan : t.span =
      .ofOffsets (pos + filler.length) (pos + filler.length + 1 + tail.length)) :
    i < o.size ∧ o.token i = t ∧ (o.token i).span.start.toNat = pos + filler.length ∧
      (o.token i).span.stop.toNat = pos + filler.length + 1 + tail.length ∧
      o.Reached source (i + 1) (pos + filler.length + 1 + tail.length) rest tokens := by
  have hget : o.tokens[i]? = some t := by
    have := congrArg List.head? h.tokens
    rw [List.head?_drop, Array.getElem?_toList] at this
    exact this.symm
  have hi : i < o.size := (Array.getElem?_eq_some_iff.mp hget).1
  have htoken : o.token i = t := by rw [token, hget, Option.getD_some]
  have hends : pos + filler.length + 1 + tail.length ≤ source.length := by
    have := congrArg List.length h.text
    simp only [List.length_append, List.length_cons, List.length_drop] at this
    omega
  have hle : pos + filler.length ≤ pos + filler.length + 1 + tail.length := by omega
  obtain ⟨hstart, hstop⟩ := Token.toNat_ofOffsets (Nat.lt_of_le_of_lt hends hlength) hle
  rw [← hspan, ← htoken] at hstart hstop
  refine ⟨hi, htoken, hstart, hstop, ?_, ?_, hi, fun k hk => ?_⟩
  · have := congrArg List.tail h.tokens
    rwa [List.tail_drop] at this
  · have hcut : filler ++ (b :: (tail ++ rest)) = (filler ++ (b :: tail)) ++ rest := by simp
    have hbehind := congrArg (List.drop (filler ++ (b :: tail)).length) h.text
    rw [hcut, List.drop_left, List.drop_drop] at hbehind
    rw [hbehind]
    congr 1
    simp only [List.length_append, List.length_cons]
    omega
  · rcases Nat.lt_succ_iff_lt_or_eq.mp hk with hk | rfl
    · have := h.passed k hk
      omega
    · exact Nat.le_of_eq hstop

/-- Behind the last token the text stays. -/
theorem Outline.Reached.without_done (ho : o.Lawful source) (h : o.Reached source i pos text []) :
    i = o.size ∧ Bytes.without o.debuggerSpans pos text = text := by
  obtain rfl : i = o.size := by
    have := List.drop_eq_nil_iff.mp h.tokens.symm
    rw [Array.length_toList] at this
    exact Nat.le_antisymm h.size this
  refine ⟨rfl, Bytes.without_eq_self fun n _ => ?_⟩
  rw [Bool.eq_false_iff]
  intro hcovered
  have htrails := Outline.trails_of_covered ho (Nat.le_refl _)
    (fun k hk => Nat.le_trans (h.passed k hk) (Nat.le_add_right _ _))
    (fun hlt => absurd hlt (Nat.lt_irrefl _)) hcovered
  exact absurd (Outline.isDebugger_of_trails htrails).1 (Nat.lt_irrefl _)

/-- Before a token the text stays, unless it is the semicolon of a `debugger`. -/
theorem Outline.Reached.gap (ho : o.Lawful source)
    (h : o.Reached source i pos text tokens)
    (hstart : (o.token i).span.start.toNat = pos + filler.length) (htrails : o.trails i = false) :
    ∀ n < filler.length, Span.covered o.debuggerSpans (pos + n) = false := by
  intro n hn
  rw [Bool.eq_false_iff]
  intro hcovered
  have htrails' := Outline.trails_of_covered ho h.size
    (fun k hk => Nat.le_trans (h.passed k hk) (Nat.le_add_right _ _)) (fun _ => by omega) hcovered
  simp [htrails] at htrails'

/-- A lexeme that is to stay, with what stands before it. -/
theorem Outline.Reached.without_spared (ho : o.Lawful source)
    (h : o.Reached source i pos text tokens) (hi : i < o.size) (hspared : o.isSpared i = true)
    (hstart : (o.token i).span.start.toNat = pos + filler.length)
    (hstop : (o.token i).span.stop.toNat = pos + filler.length + 1 + tail.length) :
    Bytes.without o.debuggerSpans pos (filler ++ (b :: (tail ++ rest))) =
      filler ++ (b :: (tail ++ Bytes.without o.debuggerSpans (o.token i).span.stop.toNat rest)) := by
  have htrails := trails_of_isSpared hspared
  have hlexeme : ∀ n < (b :: tail).length,
      Span.covered o.debuggerSpans (pos + filler.length + n) = false := by
    intro n hn
    rw [List.length_cons] at hn
    exact covered_of_isSpared ho hi hspared (by omega) (by omega)
  have hlength : pos + filler.length + (b :: tail).length = (o.token i).span.stop.toNat := by
    rw [List.length_cons]
    omega
  rw [Bytes.without_append_of_free (h.gap ho hstart htrails), ← List.cons_append,
    Bytes.without_append_of_free hlexeme, hlength, List.cons_append]

/-- A `debugger` is gone, what stands before it stays. -/
theorem Outline.Reached.without_debugger (ho : o.Lawful source)
    (h : o.Reached source i pos text tokens) (hdebugger : o.isDebugger i = true)
    (hstart : (o.token i).span.start.toNat = pos + filler.length)
    (hstop : (o.token i).span.stop.toNat = pos + filler.length + 1 + tail.length) :
    Bytes.without o.debuggerSpans pos (filler ++ (b :: (tail ++ rest))) =
      filler ++ Bytes.without o.debuggerSpans (o.token i).span.stop.toNat rest := by
  have htrails : o.trails i = false := by
    simp [trails, is_eq_false (Bool.and_eq_true_iff.mp hdebugger).1
      (show Bytes.ofString "debugger" ≠ ";" by decide)]
  have hlexeme : ∀ n < (b :: tail).length,
      Span.covered o.debuggerSpans (pos + filler.length + n) = true := by
    intro n hn
    rw [List.length_cons] at hn
    exact covered_of_isDebugger ho hdebugger (by omega) (by omega)
  have hlength : pos + filler.length + (b :: tail).length = (o.token i).span.stop.toNat := by
    rw [List.length_cons]
    omega
  rw [Bytes.without_append_of_free (h.gap ho hstart htrails), ← List.cons_append,
    Bytes.without_append_of_covered hlexeme, hlength]

/-- The semicolon after a `debugger` is gone, with what stands before it. -/
theorem Outline.Reached.without_trails (ho : o.Lawful source)
    (h : o.Reached source i pos text tokens) (htrails : o.trails i = true)
    (hstop : (o.token i).span.stop.toNat = pos + filler.length + 1 + tail.length) :
    Bytes.without o.debuggerSpans pos (filler ++ (b :: (tail ++ rest))) =
      Bytes.without o.debuggerSpans (o.token i).span.stop.toNat rest := by
  obtain ⟨hi, hpos, _⟩ := isDebugger_of_trails htrails
  have hbehind := h.passed (i - 1) (by omega)
  have hcut : filler ++ (b :: (tail ++ rest)) = (filler ++ (b :: tail)) ++ rest := by simp
  have hgone : ∀ n < (filler ++ (b :: tail)).length,
      Span.covered o.debuggerSpans (pos + n) = true := by
    intro n hn
    simp only [List.length_append, List.length_cons] at hn
    exact covered_of_trails ho htrails (by omega) (by omega)
  have hlength : pos + (filler ++ (b :: tail)).length = (o.token i).span.stop.toNat := by
    simp only [List.length_append, List.length_cons]
    omega
  rw [hcut, Bytes.without_append_of_covered hgone, hlength]

/-- **The text without the `debugger` words** has the tokens that are to stay. -/
theorem Reading.prune (ho : o.Lawful source) (hlength : source.length < 2 ^ 32)
    (hreads : o.ReadsAlike elements)
    (hdots : ∀ k < o.size, (o.token k).text = "." → (o.token k).kind = .mark)
    (h : Reading elements last frames pos text tokens)
    (hreached : o.Reached source i pos text tokens) (hlast : last = o.before? i)
    {last' : Option Token} {frames' : List Frame} (hframes : FramesAlike frames frames')
    (hlast' : last'.all (Token.allowsPattern elements) =
      (o.lastSpared i).all (Token.allowsPattern elements)) (onNewLine : Bool) (pos' : Nat) :
    ∃ tokens', Token.scanFrom elements last' frames' onNewLine pos'
        (Bytes.without o.debuggerSpans pos text) = .ok tokens' ∧ o.Thins i tokens' := by
  induction h generalizing i last' frames' onNewLine pos' with
  | @done last frames pos text hfiller hblocks =>
    obtain ⟨rfl, hwithout⟩ := hreached.without_done ho
    rw [hwithout]
    exact ⟨[], hfiller.scanFrom_eq (hframes.block hblocks) onNewLine pos', .done⟩
  | @lexeme last frames after pos filler tail rest b t tokens hfiller hfirst htext hspan hrest ih =>
    obtain ⟨hi, rfl, hstart, hstop, hnext⟩ := hreached.lexeme hlength hspan
    have hlast'' (h : o.isSpared i = false) : last'.all (Token.allowsPattern elements) =
        (o.lastSpared (i + 1)).all (Token.allowsPattern elements) := by
      rw [hlast', Outline.lastSpared, if_neg (by simp [h])]
    rw [← hstop] at hnext ih
    by_cases hdebugger : o.isDebugger i = true
    case pos =>
      -- the word is gone, and what stood before it is followed by what stood behind it
      have hspared : o.isSpared i = false := by simp [Outline.isSpared_eq, hdebugger]
      obtain ⟨rfl, rfl⟩ : b = 'd' ∧ tail = "ebugger" := List.cons.inj
        (htext.symm.trans (Outline.text_of_is (Bool.and_eq_true_iff.mp hdebugger).1))
      rw [first_word (by decide)] at hfirst
      obtain ⟨_, _, rfl⟩ := Piece.lexeme_inj hfirst
      rw [hreached.without_debugger ho hdebugger hstart hstop]
      obtain ⟨onNewLine', hfill⟩ := hfiller.scanFrom_eq onNewLine pos'
      rw [hfill]
      obtain ⟨tokens', hscan, hthins⟩ :=
        ih hnext rfl hframes (hlast'' hspared) onNewLine' (pos' + filler.length)
      exact ⟨tokens', hscan, .drop hi hspared hthins⟩
    by_cases htrails : o.trails i = true
    case pos =>
      -- the semicolon is gone, and so is what stood before it
      have hspared : o.isSpared i = false := by simp [Outline.isSpared_eq, htrails]
      have hmark : o.is i ";" = true := by
        simp only [Outline.trails, Bool.and_eq_true] at htrails
        exact htrails.1.2
      obtain ⟨rfl, rfl⟩ : b = ';' ∧ tail = [] :=
        List.cons.inj (htext.symm.trans (Outline.text_of_is hmark))
      rw [Piece.first_semicolon] at hfirst
      obtain ⟨_, _, rfl⟩ := Piece.lexeme_inj hfirst
      rw [hreached.without_trails ho htrails hstop]
      obtain ⟨tokens', hscan, hthins⟩ := ih hnext rfl hframes (hlast'' hspared) onNewLine pos'
      exact ⟨tokens', hscan, .drop hi hspared hthins⟩
    have hspared : o.isSpared i = true := by
      rw [Outline.isSpared_eq, Bool.eq_false_iff.mpr hdebugger, Bool.eq_false_iff.mpr htrails]
      rfl
    rw [hreached.without_spared ho hi hspared hstart hstop]
    have hslash : b = '/' → last'.all (Token.allowsPattern elements) =
        last.all (Token.allowsPattern elements) := by
      rintro rfl
      rw [hlast', hlast, hreads.slash i hi hspared (by rw [htext]; rfl)]
    obtain ⟨after', hfirst', hframes'⟩ := Piece.first_exchange (pos' + filler.length) hfirst hslash
      hframes (Outline.exchange_without ho hreads hdots hi hspared htext hnext.text.symm hfirst)
    obtain ⟨onNewLine', hfill⟩ := hfiller.scanFrom_eq onNewLine pos'
    rw [hfill, scanFrom_lexeme hfirst', List.take_left, List.drop_left]
    -- the same token again, at another place
    obtain ⟨t, ht⟩ : ∃ t : Token, t = ⟨(o.token i).kind, b :: tail,
        .ofOffsets (pos' + filler.length) (pos' + filler.length + 1 + tail.length), onNewLine'⟩ :=
      ⟨_, rfl⟩
    have hkind : t.kind = (o.token i).kind := by rw [ht]
    have htext : t.text = (o.token i).text := by rw [ht, htext]
    have hallows : (some t).all (Token.allowsPattern elements) =
        (o.lastSpared (i + 1)).all (Token.allowsPattern elements) := by
      rw [Outline.lastSpared, if_pos hspared]
      exact Token.allowsPattern_congr hkind htext elements
    obtain ⟨tokens', hscan, hthins⟩ := ih hnext rfl hframes' hallows false
      (pos' + filler.length + 1 + tail.length)
    refine ⟨t :: tokens', ?_, .keep hi hspared hkind htext hthins⟩
    rw [← ht]
    dsimp only
    rw [hscan]
    rfl

/-! ### The first line -/

theorem startsWith_hashbang (c : UInt8) (text : Bytes) :
    Bytes.startsWith (c :: text) "#!" =
      (('#' : UInt8) == c && text.head?.any (('!' : UInt8) == ·)) := by
  cases text with
  | nil => rfl
  | cons d text => exact congrArg _ (Bool.and_true _)

theorem startsWith_of_head_ne (h : text.head? ≠ some '#') : Bytes.startsWith text "#!" = false := by
  cases text with
  | nil => rfl
  | cons c text =>
    have hne : (('#' : UInt8) == c) = false := by
      rw [beq_eq_false_iff_ne]
      rintro rfl
      exact h rfl
    rw [startsWith_hashbang, hne, Bool.false_and]

theorem Filler.startsWith_append (h : Filler filler) (hne : filler ≠ []) (text : Bytes) :
    Bytes.startsWith (filler ++ text) "#!" = false := by
  refine startsWith_of_head_ne ?_
  rw [List.head?_append_of_ne_nil _ hne]
  exact h.head_ne

theorem LastFiller.startsWith_eq (h : LastFiller text) : Bytes.startsWith text "#!" = false := by
  cases h with
  | filler h => exact startsWith_of_head_ne h.head_ne
  | @line text body h _ =>
    cases text with
    | nil => exact startsWith_of_head_ne fun h => absurd (Option.some.inj h) (by decide)
    | cons c text => exact h.startsWith_append (List.cons_ne_nil _ _) _

/-- The text without the `debugger` words begins with a line that is skipped only if the text
does. -/
theorem Reading.startsWith_without (ho : o.Lawful source) (hlength : source.length < 2 ^ 32)
    (hreads : o.ReadsAlike elements)
    (hdots : ∀ k < o.size, (o.token k).text = "." → (o.token k).kind = .mark)
    (h : Reading elements last frames pos text tokens)
    (hreached : o.Reached source i pos text tokens) (hgone : ∀ k < i, o.isSpared k = false)
    (hfirst : i = 0 → Bytes.startsWith text "#!" = false) :
    Bytes.startsWith (Bytes.without o.debuggerSpans pos text) "#!" = false := by
  induction h generalizing i with
  | done hfiller =>
    rw [(hreached.without_done ho).2]
    exact hfiller.startsWith_eq
  | @lexeme last frames after pos filler tail rest b t tokens hfiller hpiece htext hspan hrest ih =>
    obtain ⟨hi, rfl, hstart, hstop, hnext⟩ := hreached.lexeme hlength hspan
    rw [← hstop] at hnext ih
    have hlater (hspared : o.isSpared i = false) : Bytes.startsWith
        (Bytes.without o.debuggerSpans (o.token i).span.stop.toNat rest) "#!" = false := by
      refine ih hnext (fun k hk => ?_) fun h => absurd h (Nat.succ_ne_zero i)
      rcases Nat.lt_succ_iff_lt_or_eq.mp hk with hk | rfl
      · exact hgone k hk
      · exact hspared
    by_cases hdebugger : o.isDebugger i = true
    case pos =>
      rw [hreached.without_debugger ho hdebugger hstart hstop]
      cases filler with
      | nil => exact hlater (by simp [Outline.isSpared_eq, hdebugger])
      | cons c filler => exact hfiller.startsWith_append (List.cons_ne_nil _ _) _
    by_cases htrails : o.trails i = true
    case pos =>
      rw [hreached.without_trails ho htrails hstop]
      exact hlater (by simp [Outline.isSpared_eq, htrails])
    have hspared : o.isSpared i = true := by
      rw [Outline.isSpared_eq, Bool.eq_false_iff.mpr hdebugger, Bool.eq_false_iff.mpr htrails]
      rfl
    rw [hreached.without_spared ho hi hspared hstart hstop]
    cases filler with
    | cons c filler => exact hfiller.startsWith_append (List.cons_ne_nil _ _) _
    | nil =>
      rw [List.nil_append, Bool.eq_false_iff]
      intro hbang
      rw [startsWith_hashbang, Bool.and_eq_true, beq_iff_eq] at hbang
      obtain ⟨rfl, hnext'⟩ := hbang
      have hword := hpiece
      rw [Piece.first_hash] at hword
      obtain ⟨hkind, htail, _⟩ := Piece.lexeme_inj hword
      cases tail with
      | cons c tail =>
        -- the word does not go on with the second byte
        obtain rfl : '!' = c := by simpa using hnext'
        rw [List.cons_append, List.takeWhile_cons_of_neg (by decide)] at htail
        cases htail
      | nil =>
        rcases Nat.eq_zero_or_pos i with rfl | hpos
        · -- the text itself begins so
          have hhead := (Outline.exchange_without ho hreads hdots hi hspared htext
            hnext.text.symm hpiece).head (.inl (by rw [← hkind]; decide))
          have hfalse := hfirst rfl
          rw [List.nil_append, startsWith_hashbang, List.nil_append, ← hhead] at hfalse
          simp only [List.nil_append] at hnext'
          rw [hnext'] at hfalse
          cases hfalse
        · exact hreads.hash i hi hspared hpos (hgone (i - 1) (by omega)) htext

/-- A reading comes to a token no later than where it begins. -/
theorem Reading.le_start (ho : o.Lawful source) (hlength : source.length < 2 ^ 32)
    (h : Reading elements last frames pos text tokens)
    (hreached : o.Reached source i pos text tokens) (hi : i < o.size) :
    pos ≤ (o.token i).span.start.toNat := by
  cases h with
  | done => exact absurd hi (by rw [(hreached.without_done ho).1]; exact Nat.lt_irrefl _)
  | lexeme _ _ _ hspan _ =>
    rw [(hreached.lexeme hlength hspan).2.2.1]
    exact Nat.le_add_right _ _

/-- The first line stays, if it is skipped. -/
theorem without_hashbang (ho : o.Lawful source)
    (hstart : 0 < o.size → hashbang source ≤ (o.token 0).span.start.toNat) :
    Bytes.without o.debuggerSpans 0 source = source.take (hashbang source) ++
      Bytes.without o.debuggerSpans (hashbang source) (source.drop (hashbang source)) := by
  have hlength : (source.take (hashbang source)).length = hashbang source :=
    List.length_take_of_le (hashbang_le source)
  have hfree : ∀ n < (source.take (hashbang source)).length,
      Span.covered o.debuggerSpans (0 + n) = false := by
    intro n hn
    rw [hlength] at hn
    rw [Nat.zero_add, Bool.eq_false_iff]
    intro hcovered
    obtain ⟨hdebugger, hfirst⟩ := Outline.isDebugger_of_covered ho (Nat.zero_le _) rfl
      (fun k hk => absurd hk (Nat.not_lt_zero k)) (fun hsize => by have := hstart hsize; omega)
      hcovered
    have := hstart (Outline.lt_of_isDebugger hdebugger)
    omega
  conv => lhs; rw [← List.take_append_drop (hashbang source) source]
  rw [Bytes.without_append_of_free hfree, hlength, Nat.zero_add]

/-- The line that is skipped does not depend on what follows its line feed. -/
theorem hashbang_line {body after after' : Bytes}
    (hbang : Bytes.startsWith (body ++ after) "#!" = true) (hbody : ∀ b ∈ body, b ≠ '\n')
    (hafter : ∀ c ∈ after.head?, c = '\n') (hafter' : ∀ c ∈ after'.head?, c = '\n') :
    hashbang (body ++ after') = body.length := by
  have hline : after'.takeWhile (!Bytes.isLineFeed ·) = [] := by
    cases after' with
    | nil => rfl
    | cons c after' =>
      obtain rfl : c = '\n' := hafter' c rfl
      rfl
  have hbang' : Bytes.startsWith (body ++ after') "#!" = true := by
    -- neither of the two bytes is a line feed, so both belong to the line
    have hhead {b : UInt8} (hb : b ≠ '\n') : after.head?.any (b == ·) = false := by
      cases after with
      | nil => rfl
      | cons c after =>
        obtain rfl : c = '\n' := hafter c rfl
        exact beq_eq_false_iff_ne.mpr hb
    match body with
    | [] =>
      cases after with
      | nil => cases hbang
      | cons c after =>
        obtain rfl : c = '\n' := hafter c rfl
        rw [List.nil_append, startsWith_hashbang] at hbang
        exact absurd (Bool.and_eq_true_iff.mp hbang).1 (by decide)
    | [d] =>
      rw [List.cons_append, startsWith_hashbang, List.nil_append, hhead (by decide),
        Bool.and_false] at hbang
      cases hbang
    | d :: e :: body =>
      rw [List.cons_append, startsWith_hashbang] at hbang ⊢
      exact hbang
  rw [hashbang, if_pos hbang', List.takeWhile_append_of_pos, hline, List.append_nil]
  intro b hb
  simpa [Bytes.isLineFeed] using hbody b hb

/-- The line that is skipped is the same without the `debugger` words. -/
theorem hashbang_without (ho : o.Lawful source) (hlength : source.length < 2 ^ 32)
    (hreads : o.ReadsAlike elements)
    (hdots : ∀ k < o.size, (o.token k).text = "." → (o.token k).kind = .mark)
    (h : Reading elements none [] (hashbang source) (source.drop (hashbang source)) tokens)
    (hreached : o.Reached source 0 (hashbang source) (source.drop (hashbang source)) tokens) :
    hashbang (Bytes.without o.debuggerSpans 0 source) = hashbang source := by
  have hstart := h.le_start ho hlength hreached
  have hwithout := without_hashbang ho hstart
  by_cases hbang : Bytes.startsWith source "#!" = true
  case neg =>
    have hzero : hashbang source = 0 := if_neg hbang
    rw [hzero] at h hreached
    have hno := h.startsWith_without ho hlength hreads hdots hreached
      (fun k hk => absurd hk (Nat.not_lt_zero k)) fun _ => by simpa using hbang
    rw [hzero, hashbang, if_neg]
    rw [List.drop_zero] at hno
    simp [hno]
  obtain ⟨body, after, rfl, hbody, hline, hafter⟩ := exists_line source
  have hskipped : hashbang (body ++ after) = body.length := by rw [hashbang, if_pos hbang, hline]
  rw [hskipped] at hstart hwithout ⊢
  rw [List.take_left, List.drop_left] at hwithout
  rw [hwithout]
  refine hashbang_line hbang hbody hafter fun c hc => ?_
  -- no `debugger` stands where the line feed is
  cases after with
  | nil => cases hc
  | cons d after =>
    obtain rfl : d = '\n' := hafter d rfl
    have hfree : Span.covered o.debuggerSpans body.length = false := by
      rw [Bool.eq_false_iff]
      intro hcovered
      obtain ⟨hdebugger, hfirst⟩ := Outline.isDebugger_of_covered ho (Nat.zero_le _) rfl
        (fun k hk => absurd hk (Nat.not_lt_zero k)) hstart hcovered
      have hhead := Outline.head_of_debugger ho hdebugger
      rw [hfirst, List.drop_left] at hhead
      exact absurd (Option.some.inj hhead) (by decide)
    rw [Outline.head_without _ hfree] at hc
    exact (Option.some.inj hc).symm

/-- **The tokens of a text without its `debugger` words** are those that are to stay. -/
theorem Token.scan_without (ho : o.Lawful source) (hlength : source.length < 2 ^ 32)
    (hreads : o.ReadsAlike elements) (h : Token.scan elements source = .ok o.tokens.toList) :
    ∃ tokens, Token.scan elements (Bytes.without o.debuggerSpans 0 source) = .ok tokens ∧
      o.Thins 0 tokens := by
  rw [Token.scan_eq] at h
  have hreading := reading_of_scanFrom h
  have hreached : o.Reached source 0 (hashbang source) (source.drop (hashbang source))
      o.tokens.toList :=
    ⟨rfl, rfl, Nat.zero_le _, fun k hk => absurd hk (Nat.not_lt_zero k)⟩
  have hdots : ∀ k < o.size, (o.token k).text = "." → (o.token k).kind = .mark := by
    intro k hk
    refine hreading.kind_of_dot (o.token k) ?_
    exact Array.mem_toList_iff.mpr (Array.mem_of_getElem? (Outline.getElem_eq_token hk))
  have hstart := hreading.le_start ho hlength hreached
  obtain ⟨tokens, hscan, hthins⟩ := hreading.prune ho hlength hreads hdots hreached rfl
    (FramesAlike.refl []) rfl false (hashbang source)
  refine ⟨tokens, ?_, hthins⟩
  have hlength' : (source.take (hashbang source)).length = hashbang source :=
    List.length_take_of_le (hashbang_le source)
  rw [Token.scan_eq, hashbang_without ho hlength hreads hdots hreading hreached,
    without_hashbang ho hstart, List.drop_append_of_le_length (Nat.le_of_eq hlength'.symm),
    List.drop_eq_nil_of_le (Nat.le_of_eq hlength'), List.nil_append]
  exact hscan

end

end ScriptLint
