/-
What file name patterns match.

A pattern is read from left to right.  `**/` stands for any directories, possibly none, any other
`**` for any bytes, and a single `*` for any bytes of a name; so three stars are two stars and
one.  The expression of a pattern is well formed and matches just the texts that the pattern
describes in this way, for texts of one line:

* **`Glob.Matches`** — the texts that a pattern without sets of bytes describes;
* **`Glob.Sound`** — the expression of a pattern is read, and stands for these texts; it is shown
  for one form of a pattern after the other;
* **`Glob.expression_matches`** — so it is for every pattern without sets.
-/
import ScriptLint.Glob
import ScriptLint.Proofs.Expressions

namespace ScriptLint

namespace Glob

/-! ### Patterns and texts -/

/-- The pattern describes the text.  A text ends with a slash or is empty where it stands for
directories. -/
inductive Matches : Bytes → Bytes → Prop where
  | nil : Matches [] []
  | directories {glob way text : Bytes} (hway : way = [] ∨ way.getLast? = some '/'.toUInt8)
      (h : Matches glob text) : Matches ('*' :: '*' :: '/' :: glob) (way ++ text)
  | anything {glob text : Bytes} (way : Bytes) (hglob : glob.head? ≠ some '/'.toUInt8)
      (h : Matches glob text) : Matches ('*' :: '*' :: glob) (way ++ text)
  | inName {glob way text : Bytes} (hglob : glob.head? ≠ some '*'.toUInt8)
      (hway : '/'.toUInt8 ∉ way) (h : Matches glob text) : Matches ('*' :: glob) (way ++ text)
  | byteInName {glob text : Bytes} {b : UInt8} (hb : b ≠ '/') (h : Matches glob text) :
      Matches ('?' :: glob) (b :: text)
  | quoted {glob text : Bytes} (b : UInt8) (h : Matches glob text) :
      Matches ('\\' :: b :: glob) (b :: text)
  | backslash : Matches ['\\'] ['\\']
  | literal {glob text : Bytes} {b : UInt8} (hb : b ≠ '*' ∧ b ≠ '?' ∧ b ≠ '\\')
      (h : Matches glob text) : Matches (b :: glob) (b :: text)

/-- No byte ends a line. -/
def OneLine (text : Bytes) : Prop := '\n'.toUInt8 ∉ text ∧ '\r'.toUInt8 ∉ text

theorem OneLine.of_append {a b : Bytes} (h : OneLine (a ++ b)) : OneLine a ∧ OneLine b := by
  simp only [OneLine, List.mem_append, not_or] at h ⊢
  exact ⟨⟨h.1.1, h.2.1⟩, h.1.2, h.2.2⟩

variable {glob text : Bytes} {b : UInt8}

/-- The bytes that begin a form of a pattern are different ones. -/
theorem marks_ne : '*'.toUInt8 ≠ '?'.toUInt8 ∧ '*'.toUInt8 ≠ '\\'.toUInt8 ∧
    '?'.toUInt8 ≠ '\\'.toUInt8 ∧ '*'.toUInt8 ≠ '/'.toUInt8 := by decide

/-! One equation for each form of a pattern. -/

theorem matches_nil : Matches [] text ↔ text = [] := by
  constructor
  · intro h
    cases h
    rfl
  · rintro rfl
    exact .nil

theorem matches_directories : Matches ('*' :: '*' :: '/' :: glob) text ↔
    ∃ way more, text = way ++ more ∧ (way = [] ∨ way.getLast? = some '/'.toUInt8) ∧
      Matches glob more := by
  constructor
  · intro h
    generalize hpattern : '*'.toUInt8 :: '*'.toUInt8 :: '/'.toUInt8 :: glob = pattern at h
    cases h with
    | directories hway h =>
      simp only [List.cons.injEq, true_and] at hpattern
      exact ⟨_, _, rfl, hway, hpattern ▸ h⟩
    | _ => grind [marks_ne]
  · rintro ⟨way, more, rfl, hway, h⟩
    exact .directories hway h

theorem matches_anything (hglob : glob.head? ≠ some '/'.toUInt8) :
    Matches ('*' :: '*' :: glob) text ↔ ∃ way more, text = way ++ more ∧ Matches glob more := by
  constructor
  · intro h
    generalize hpattern : '*'.toUInt8 :: '*'.toUInt8 :: glob = pattern at h
    cases h with
    | anything way _ h =>
      simp only [List.cons.injEq, true_and] at hpattern
      exact ⟨_, _, rfl, hpattern ▸ h⟩
    | _ => grind [marks_ne]
  · rintro ⟨way, more, rfl, h⟩
    exact .anything way hglob h

theorem matches_inName (hglob : glob.head? ≠ some '*'.toUInt8) :
    Matches ('*' :: glob) text ↔
      ∃ way more, text = way ++ more ∧ '/'.toUInt8 ∉ way ∧ Matches glob more := by
  constructor
  · intro h
    generalize hpattern : '*'.toUInt8 :: glob = pattern at h
    cases h with
    | inName _ hway h =>
      simp only [List.cons.injEq, true_and] at hpattern
      exact ⟨_, _, rfl, hway, hpattern ▸ h⟩
    | _ => grind [marks_ne]
  · rintro ⟨way, more, rfl, hway, h⟩
    exact .inName hglob hway h

theorem matches_byteInName : Matches ('?' :: glob) text ↔
    ∃ b more, text = b :: more ∧ b ≠ '/' ∧ Matches glob more := by
  constructor
  · intro h
    generalize hpattern : '?'.toUInt8 :: glob = pattern at h
    cases h with
    | byteInName hb h =>
      simp only [List.cons.injEq, true_and] at hpattern
      exact ⟨_, _, rfl, hb, hpattern ▸ h⟩
    | _ => grind [marks_ne]
  · rintro ⟨b, more, rfl, hb, h⟩
    exact .byteInName hb h

theorem matches_quoted : Matches ('\\' :: b :: glob) text ↔
    ∃ more, text = b :: more ∧ Matches glob more := by
  constructor
  · intro h
    generalize hpattern : '\\'.toUInt8 :: b :: glob = pattern at h
    cases h with
    | quoted c h =>
      simp only [List.cons.injEq, true_and] at hpattern
      exact ⟨_, by rw [hpattern.1], hpattern.2 ▸ h⟩
    | _ => grind [marks_ne]
  · rintro ⟨more, rfl, h⟩
    exact .quoted b h

theorem matches_backslash : Matches ['\\'] text ↔
    ∃ more, text = '\\'.toUInt8 :: more ∧ Matches [] more := by
  constructor
  · intro h
    generalize hpattern : ['\\'.toUInt8] = pattern at h
    cases h with
    | backslash => exact ⟨[], rfl, .nil⟩
    | _ => grind [marks_ne]
  · rintro ⟨more, rfl, h⟩
    rw [matches_nil.mp h]
    exact .backslash

theorem matches_literal (hb : b ≠ '*' ∧ b ≠ '?' ∧ b ≠ '\\') : Matches (b :: glob) text ↔
    ∃ more, text = b :: more ∧ Matches glob more := by
  constructor
  · intro h
    generalize hpattern : b :: glob = pattern at h
    cases h with
    | literal _ h =>
      simp only [List.cons.injEq] at hpattern
      exact ⟨_, by rw [hpattern.1], hpattern.2 ▸ h⟩
    | _ => grind [marks_ne]
  · rintro ⟨more, rfl, h⟩
    exact .literal hb h

/-! ### Sets of bytes -/

/-- The set that stands for the bytes of a name. -/
def nameSet : ByteSet := { negated := true, bytes := ['/'] }

theorem has_nameSet : nameSet.has b = true ↔ b ≠ '/' := by
  simp [nameSet, ByteSet.has]

theorem has_inLine : ByteSet.inLine.has b = true ↔ b ≠ '\n' ∧ b ≠ '\r' := by
  simp [ByteSet.inLine, ByteSet.has]

theorem has_single {c : UInt8} : (ByteSet.single c).has b = true ↔ b = c := by
  simp [ByteSet.single, ByteSet.has]

theorem OneLine.has_inLine (h : OneLine text) : ∀ b ∈ text, ByteSet.inLine.has b = true := by
  intro b hb
  rw [Glob.has_inLine]
  exact ⟨fun hfeed => h.1 (hfeed ▸ hb), fun hreturn => h.2 (hreturn ▸ hb)⟩

theorem readSet_dot (rest : Bytes) : Regex.readSet ('.' :: rest) = .ok (.inLine, rest) := rfl

theorem readSet_name (rest : Bytes) :
    Regex.readSet ("[^/]" ++ rest) = .ok (nameSet, rest) := by
  have hclose : Regex.readMembers (']' :: rest) = .ok ([], rest) := by
    rw [Regex.readMembers.eq_def]
    exact if_pos rfl
  have hmembers : Regex.readMembers ('/' :: ']' :: rest) = .ok ([.byte '/'], rest) := by
    rw [Regex.readMembers, if_neg (by decide), if_neg (by decide), hclose]
    rfl
  have hset : Regex.addMembers none { negated := true } [.byte '/'] = .ok nameSet := by
    rw [Regex.addMembers, Regex.addMembers]
    rfl
  have hbracket : Regex.readBracket ('^' :: '/' :: ']' :: rest) = .ok (nameSet, rest) := by
    have hcaret : Bytes.startsWith ('^' :: '/' :: ']' :: rest) "^" = true := rfl
    simp only [Regex.readBracket, hcaret, if_true, List.drop_succ_cons, List.drop_zero, hmembers,
      bind, Except.bind, hset]
    rfl
  exact hbracket

theorem readSet_slash (rest : Bytes) : Regex.readSet ('/' :: rest) = .ok (.single '/', rest) := rfl

/-- A quoted byte stands for itself. -/
theorem readSet_quote (b : UInt8) (rest : Bytes) :
    Regex.readSet (quote b ++ rest) = .ok (.single b, rest) := by
  unfold quote
  cases hspecial : Regex.isSpecial b with
  | true => rfl
  | false =>
    have hne : b ≠ '[' ∧ b ≠ '.' ∧ b ≠ '\\' := by
      refine ⟨?_, ?_, ?_⟩ <;> rintro rfl <;> exact absurd hspecial (by decide)
    simp [Regex.readSet, hne, hspecial]

/-- A quoted byte does not look like the beginning of a group, its end or a star. -/
theorem exists_quote (b : UInt8) :
    ∃ c rest, quote b = c :: rest ∧ c ≠ '(' ∧ c ≠ ')' ∧ c ≠ '*' := by
  unfold quote
  cases hspecial : Regex.isSpecial b with
  | true => exact ⟨'\\', [b], rfl, by decide, by decide, by decide⟩
  | false =>
    refine ⟨b, [], rfl, ?_, ?_, ?_⟩ <;> rintro rfl <;> exact absurd hspecial (by decide)

/-! ### The expression of a pattern -/

theorem expression_of_parts {pattern : Bytes} (part : Part)
    (h : parts none pattern = part :: parts none glob) :
    expression pattern = part.expression ++ expression glob := by
  rw [expression, h, List.flatMap_cons, expression]

theorem expression_directories (glob : Bytes) :
    expression ('*' :: '*' :: '/' :: glob) = Part.directories.expression ++ expression glob :=
  expression_of_parts .directories rfl

theorem expression_anything (hglob : glob.head? ≠ some '/'.toUInt8) :
    expression ('*' :: '*' :: glob) = Part.anything.expression ++ expression glob := by
  refine expression_of_parts .anything ?_
  cases glob with
  | nil => rfl
  | cons d rest =>
    have hd : d ≠ '/' := fun heq => hglob (congrArg some heq)
    simp [parts, hd]

theorem expression_inName (hglob : glob.head? ≠ some '*'.toUInt8) :
    expression ('*' :: glob) = Part.inName.expression ++ expression glob := by
  refine expression_of_parts .inName ?_
  cases glob with
  | nil => rfl
  | cons c rest =>
    have hc : c ≠ '*' := fun heq => hglob (congrArg some heq)
    rw [parts.eq_def]
    simp [hc]

theorem expression_byteInName (glob : Bytes) :
    expression ('?' :: glob) = Part.byteInName.expression ++ expression glob := by
  refine expression_of_parts .byteInName ?_
  cases glob with
  | nil => rfl
  | cons c rest =>
    rw [parts.eq_def]
    simp [marks_ne.1.symm]

theorem expression_quoted (b : UInt8) (glob : Bytes) :
    expression ('\\' :: b :: glob) = quote b ++ expression glob := by
  refine expression_of_parts (.literal b) ?_
  have hset : '\\'.toUInt8 ≠ '['.toUInt8 := by decide
  rw [parts.eq_def]
  simp [marks_ne.2.1.symm, marks_ne.2.2.1.symm, hset]

theorem expression_backslash : expression ['\\'] = quote '\\' ++ expression [] :=
  expression_of_parts (.literal '\\') rfl

theorem expression_literal (hb : b ≠ '*' ∧ b ≠ '?' ∧ b ≠ '\\') (hset : b ≠ '[') (glob : Bytes) :
    expression (b :: glob) = quote b ++ expression glob := by
  refine expression_of_parts (.literal b) ?_
  cases glob with
  | nil => simp [parts, hb]
  | cons c rest =>
    rw [parts.eq_def]
    simp [hb, hset]

/-- The expression of a pattern does not repeat what is in front of it. -/
theorem head?_expression (glob : Bytes) : (expression glob).head? ≠ some '*'.toUInt8 := by
  rw [expression]
  cases parts none glob with
  | nil => simp
  | cons part rest =>
    rw [List.flatMap_cons]
    cases part with
    | literal b =>
      obtain ⟨c, more, hquote, -, -, hc⟩ := exists_quote b
      rw [Part.expression, hquote]
      exact fun hhead => hc (Option.some.inj hhead)
    | set negated bytes =>
      cases negated <;> exact fun hhead => absurd (Option.some.inj hhead) (by decide)
    | _ => exact fun hhead => absurd (Option.some.inj hhead) (by decide)

/-! ### Reading and matching the expression -/

/-- The expression of the pattern is read, and stands for the texts of one line that the pattern
describes.  The number bounds the number of forms. -/
def Sound (glob : Bytes) : Prop :=
  ∀ n, (expression glob).length < n → ∃ r, Regex.read n (expression glob) = .ok (r, []) ∧
    ∀ text, OneLine text → (r.Matches text ↔ Matches glob text)

theorem sound_nil : Sound [] := by
  intro n hn
  obtain ⟨m, rfl⟩ := Nat.exists_eq_add_of_lt hn
  exact ⟨.done, rfl, fun _ _ => matches_nil.symm⟩

/-- Directories end with a slash. -/
theorem matches_group (h : OneLine text) :
    (Regex.many .inLine (.one (.single '/') .done)).Matches text ↔
      text.getLast? = some '/'.toUInt8 := by
  constructor
  · rintro ⟨way, more, rfl, -, b, last, rfl, hb, rfl⟩
    rw [has_single] at hb
    rw [hb, List.getLast?_concat]
  · intro hlast
    obtain ⟨way, rfl⟩ := List.getLast?_eq_some_iff.mp hlast
    exact ⟨way, _, rfl, h.of_append.1.has_inLine, _, [], rfl, has_single.mpr rfl, rfl⟩

theorem sound_directories (h : Sound glob) : Sound ('*' :: '*' :: '/' :: glob) := by
  intro n hn
  rw [expression_directories] at hn ⊢
  have hlength : Part.directories.expression.length = 8 := by decide
  rw [List.length_append, hlength] at hn
  obtain ⟨m, rfl⟩ : ∃ m, n = m + 3 + 1 := ⟨n - 4, by omega⟩
  obtain ⟨r, hread, hmatches⟩ := h (m + 3) (by omega)
  have hgroup := Regex.read_many (b := '.') (by decide) (by decide)
    (readSet_dot ('*' :: '/' :: ')' :: '?' :: expression glob))
    (Regex.read_one (by decide) (by decide) (readSet_slash _) (by simp; decide)
      (Regex.read_close m ('?' :: expression glob)))
  refine ⟨_, Regex.read_maybe hgroup hread, fun text htext => ?_⟩
  rw [matches_directories]
  refine exists_congr fun way => exists_congr fun more => and_congr_right fun hcut => ?_
  rw [hcut] at htext
  exact and_congr (or_congr_right (matches_group htext.of_append.1))
    (hmatches more htext.of_append.2)

theorem sound_anything (hglob : glob.head? ≠ some '/'.toUInt8) (h : Sound glob) :
    Sound ('*' :: '*' :: glob) := by
  intro n hn
  rw [expression_anything hglob] at hn ⊢
  have hlength : Part.anything.expression.length = 2 := by decide
  rw [List.length_append, hlength] at hn
  obtain ⟨m, rfl⟩ : ∃ m, n = m + 1 := ⟨n - 1, by omega⟩
  obtain ⟨r, hread, hmatches⟩ := h m (by omega)
  refine ⟨_, Regex.read_many (by decide) (by decide) (readSet_dot _) hread, fun text htext => ?_⟩
  rw [matches_anything hglob]
  refine exists_congr fun way => exists_congr fun more => and_congr_right fun hcut => ?_
  rw [hcut] at htext
  rw [hmatches more htext.of_append.2]
  exact and_iff_right htext.of_append.1.has_inLine

theorem sound_inName (hglob : glob.head? ≠ some '*'.toUInt8) (h : Sound glob) :
    Sound ('*' :: glob) := by
  intro n hn
  rw [expression_inName hglob] at hn ⊢
  have hlength : Part.inName.expression.length = 5 := by decide
  rw [List.length_append, hlength] at hn
  obtain ⟨m, rfl⟩ : ∃ m, n = m + 1 := ⟨n - 1, by omega⟩
  obtain ⟨r, hread, hmatches⟩ := h m (by omega)
  refine ⟨_, Regex.read_many (by decide) (by decide) (readSet_name _) hread, fun text htext => ?_⟩
  rw [matches_inName hglob]
  refine exists_congr fun way => exists_congr fun more => and_congr_right fun hcut => ?_
  rw [hcut] at htext
  refine and_congr ?_ (hmatches more htext.of_append.2)
  simp only [has_nameSet]
  exact ⟨fun hway hslash => hway _ hslash rfl, fun hslash b hb heq => hslash (heq ▸ hb)⟩

theorem sound_byteInName (h : Sound glob) : Sound ('?' :: glob) := by
  intro n hn
  rw [expression_byteInName] at hn ⊢
  have hlength : Part.byteInName.expression.length = 4 := by decide
  rw [List.length_append, hlength] at hn
  obtain ⟨m, rfl⟩ : ∃ m, n = m + 1 := ⟨n - 1, by omega⟩
  obtain ⟨r, hread, hmatches⟩ := h m (by omega)
  refine ⟨_, Regex.read_one (by decide) (by decide) (readSet_name _) (head?_expression glob) hread,
    fun text htext => ?_⟩
  rw [matches_byteInName]
  refine exists_congr fun b => exists_congr fun more => and_congr_right fun hcut => ?_
  rw [hcut] at htext
  exact and_congr has_nameSet (hmatches more (OneLine.of_append (a := [b]) htext).2)

/-- A byte that stands for itself, whether it is quoted or not. -/
theorem sound_byte {pattern : Bytes} (hexpression : expression pattern = quote b ++ expression glob)
    (hpattern : ∀ text, Matches pattern text ↔ ∃ more, text = b :: more ∧ Matches glob more)
    (h : Sound glob) : Sound pattern := by
  intro n hn
  obtain ⟨c, rest, hquote, hopen, hclose, -⟩ := exists_quote b
  have hset := readSet_quote b (expression glob)
  rw [hexpression, hquote, List.cons_append] at hn ⊢
  rw [hquote, List.cons_append] at hset
  rw [List.length_cons, List.length_append] at hn
  obtain ⟨m, rfl⟩ : ∃ m, n = m + 1 := ⟨n - 1, by omega⟩
  obtain ⟨r, hread, hmatches⟩ := h m (by omega)
  refine ⟨_, Regex.read_one hopen hclose hset (head?_expression glob) hread, fun text htext => ?_⟩
  rw [hpattern]
  constructor
  · rintro ⟨d, more, rfl, hd, hmore⟩
    rw [has_single] at hd
    exact ⟨more, by rw [hd], (hmatches more (OneLine.of_append (a := [d]) htext).2).mp hmore⟩
  · rintro ⟨more, rfl, hmore⟩
    exact ⟨b, more, rfl, has_single.mpr rfl,
      (hmatches more (OneLine.of_append (a := [b]) htext).2).mpr hmore⟩

theorem sound_quoted (b : UInt8) (h : Sound glob) : Sound ('\\' :: b :: glob) :=
  sound_byte (expression_quoted b glob) (fun _ => matches_quoted) h

theorem sound_literal (hb : b ≠ '*' ∧ b ≠ '?' ∧ b ≠ '\\') (hset : b ≠ '[') (h : Sound glob) :
    Sound (b :: glob) :=
  sound_byte (expression_literal hb hset glob) (fun _ => matches_literal hb) h

/-- A pattern of one byte. -/
theorem sound_singleton (hset : b ≠ '[') : Sound [b] := by
  by_cases hstar : b = '*'
  · rw [hstar]
    exact sound_inName (by simp) sound_nil
  by_cases hmark : b = '?'
  · rw [hmark]
    exact sound_byteInName sound_nil
  by_cases hquote : b = '\\'
  · rw [hquote]
    exact sound_byte expression_backslash (fun _ => matches_backslash) sound_nil
  · exact sound_literal ⟨hstar, hmark, hquote⟩ hset sound_nil

/-- The pattern is taken apart as it is read, so that one form is left out at a time. -/
theorem sound_of_not_mem (hset : '['.toUInt8 ∉ glob) : Sound glob := by
  obtain ⟨state, hstate⟩ : ∃ state : Option (Bool × Bytes), state = none := ⟨none, rfl⟩
  induction state, glob using parts.induct with
  | case1 => exact sound_nil
  | case2 | case3 => cases hstate
  | case4 b => exact sound_singleton fun hb => hset (hb ▸ List.mem_cons_self)
  | case5 => exact sound_anything (by simp) sound_nil
  | case6 rest ih =>
    simp only [List.mem_cons, not_or] at hset
    exact sound_directories (ih hset.2.2.2 rfl)
  | case7 d rest hd ih =>
    have hrest := List.not_mem_of_not_mem_cons (List.not_mem_of_not_mem_cons hset)
    exact sound_anything (by simpa using hd) (ih hrest rfl)
  | case8 c rest hc ih =>
    exact sound_inName (by simpa using hc) (ih (List.not_mem_of_not_mem_cons hset) rfl)
  | case9 c rest _ ih => exact sound_byteInName (ih (List.not_mem_of_not_mem_cons hset) rfl)
  | case10 | case11 | case12 => exact absurd List.mem_cons_self hset
  | case13 c rest _ _ _ ih =>
    have hrest := List.not_mem_of_not_mem_cons (List.not_mem_of_not_mem_cons hset)
    exact sound_quoted c (ih hrest rfl)
  | case14 b c rest hstar hmark hopen hquote ih =>
    exact sound_literal ⟨hstar, hmark, hquote⟩ hopen (ih (List.not_mem_of_not_mem_cons hset) rfl)

/-- **The expression of a pattern matches the texts that the pattern describes.**  It is well
formed, whatever bytes are in the pattern besides the sets that are left out here. -/
theorem expression_matches (hset : '['.toUInt8 ∉ glob) :
    ∃ r, Regex.parse (expression glob) = .ok r ∧
      ∀ text, '\n'.toUInt8 ∉ text → '\r'.toUInt8 ∉ text →
        (r.matchesAll text = true ↔ Matches glob text) := by
  obtain ⟨r, hread, hmatches⟩ := sound_of_not_mem hset _ (Nat.lt_succ_self _)
  refine ⟨r, ?_, fun text hfeed hreturn => ?_⟩
  · rw [Regex.parse, hread]
    rfl
  · rw [Regex.matchesAll_iff]
    exact hmatches text ⟨hfeed, hreturn⟩

/-- Three stars, a quoted mark and a lone backslash: the first two stars go over slashes, and the
last one does not. -/
theorem expression_matches_stars :
    let glob : Bytes := "src/***/\\?*.j?\\"
    let text : Bytes := "src/a/b/c/?x.js\\"
    '['.toUInt8 ∉ glob ∧ '\n'.toUInt8 ∉ text ∧ '\r'.toUInt8 ∉ text ∧
      ∃ r, Regex.parse (expression glob) = .ok r ∧ r.matchesAll text = true ∧
        Matches glob text := by
  intro glob text
  have hset : '['.toUInt8 ∉ glob := by decide
  have hline : '\n'.toUInt8 ∉ text ∧ '\r'.toUInt8 ∉ text := by decide
  obtain ⟨r, hparse, hmatches⟩ := expression_matches hset
  have hall : (Regex.parse (expression glob)).toOption.all (·.matchesAll text) = true := by
    decide
  rw [hparse] at hall
  exact ⟨hset, hline.1, hline.2, r, hparse, hall, (hmatches text hline.1 hline.2).mp hall⟩

end Glob

end ScriptLint
