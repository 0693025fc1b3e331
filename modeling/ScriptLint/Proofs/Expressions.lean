/-
What regular expressions match.

Matching tries the forms of an expression one after the other on what is left of a text.  It
finds a match exactly if the text can be cut into pieces that the forms stand for:

* **`Regex.Matches`** — the texts that an expression stands for;
* **`Regex.accepts_iff`**, **`Regex.matchesAll_iff`** — what trying finds;
* **`Regex.read_one`**, **`Regex.read_many`**, **`Regex.read_maybe`** — reading an expression form
  by form.
-/
import ScriptLint.Regex

namespace ScriptLint

namespace Regex

/-! ### Matching -/

/-- The expression stands for the text. -/
def Matches : Regex → Bytes → Prop
  | .done, text => text = []
  | .one set rest, text => ∃ b more, text = b :: more ∧ set.has b = true ∧ rest.Matches more
  | .many set rest, text =>
    ∃ way more, text = way ++ more ∧ (∀ b ∈ way, set.has b = true) ∧ rest.Matches more
  | .maybe group rest, text =>
    ∃ way more, text = way ++ more ∧ (way = [] ∨ group.Matches way) ∧ rest.Matches more

theorem acceptsMany_iff {set : ByteSet} {next : Bytes → Bool} {text : Bytes} :
    acceptsMany set next text = true ↔
      ∃ way more, text = way ++ more ∧ (∀ b ∈ way, set.has b = true) ∧ next more = true := by
  induction text with
  | nil =>
    rw [acceptsMany]
    constructor
    · intro hnext
      exact ⟨[], [], rfl, by simp, hnext⟩
    · rintro ⟨way, more, htext, -, hnext⟩
      rwa [(List.append_eq_nil_iff.mp htext.symm).2] at hnext
  | cons b rest ih =>
    rw [acceptsMany, Bool.or_eq_true, Bool.and_eq_true, ih]
    constructor
    · rintro (hnext | ⟨hb, way, more, rfl, hway, hnext⟩)
      · exact ⟨[], b :: rest, rfl, by simp, hnext⟩
      · exact ⟨b :: way, more, rfl, List.forall_mem_cons.mpr ⟨hb, hway⟩, hnext⟩
    · rintro ⟨way, more, htext, hway, hnext⟩
      cases way with
      | nil =>
        obtain rfl : b :: rest = more := htext
        exact .inl hnext
      | cons c way =>
        obtain ⟨rfl, rfl⟩ := List.cons.inj htext
        exact .inr ⟨hway b List.mem_cons_self, way, more, rfl,
          fun x hx => hway x (List.mem_cons_of_mem _ hx), hnext⟩

/-- **Trying the forms** finds a piece at the front of the text, with a rest that is accepted, if
there is one. -/
theorem accepts_iff (r : Regex) {next : Bytes → Bool} {text : Bytes} :
    r.accepts next text = true ↔
      ∃ way more, text = way ++ more ∧ r.Matches way ∧ next more = true := by
  induction r generalizing next text with
  | done =>
    rw [accepts]
    constructor
    · intro hnext
      exact ⟨[], text, rfl, rfl, hnext⟩
    · rintro ⟨way, more, rfl, rfl, hnext⟩
      exact hnext
  | one set rest ih =>
    cases text with
    | nil =>
      rw [accepts]
      refine ⟨fun h => absurd h (by simp), ?_⟩
      rintro ⟨way, more, htext, ⟨b, tail, rfl, -⟩, -⟩
      exact absurd (List.append_eq_nil_iff.mp htext.symm).1 (List.cons_ne_nil b tail)
    | cons b text =>
      rw [accepts, Bool.and_eq_true, ih]
      constructor
      · rintro ⟨hb, way, more, rfl, hway, hnext⟩
        exact ⟨b :: way, more, rfl, ⟨b, way, rfl, hb, hway⟩, hnext⟩
      · rintro ⟨way, more, htext, ⟨c, tail, rfl, hc, htail⟩, hnext⟩
        obtain ⟨rfl, rfl⟩ := List.cons.inj htext
        exact ⟨hc, tail, more, rfl, htail, hnext⟩
  | many set rest ih =>
    simp only [accepts, acceptsMany_iff, ih]
    constructor
    · rintro ⟨way, -, rfl, hway, last, more, rfl, hlast, hnext⟩
      exact ⟨way ++ last, more, (List.append_assoc ..).symm, ⟨way, last, rfl, hway, hlast⟩, hnext⟩
    · rintro ⟨-, more, rfl, ⟨way, last, rfl, hway, hlast⟩, hnext⟩
      exact ⟨way, last ++ more, List.append_assoc .., hway, last, more, rfl, hlast, hnext⟩
  | maybe group rest ihGroup ihRest =>
    simp only [accepts, Bool.or_eq_true, ihGroup, ihRest]
    constructor
    · rintro (⟨way, -, rfl, hway, last, more, rfl, hlast, hnext⟩ | ⟨last, more, rfl, hlast, hnext⟩)
      · exact ⟨way ++ last, more, (List.append_assoc ..).symm,
          ⟨way, last, rfl, .inr hway, hlast⟩, hnext⟩
      · exact ⟨last, more, rfl, ⟨[], last, rfl, .inl rfl, hlast⟩, hnext⟩
    · rintro ⟨-, more, rfl, ⟨way, last, rfl, hway, hlast⟩, hnext⟩
      rcases hway with rfl | hway
      · exact .inr ⟨last, more, rfl, hlast, hnext⟩
      · exact .inl ⟨way, last ++ more, List.append_assoc .., hway, last, more, rfl, hlast, hnext⟩

/-- **An expression matches the texts that it stands for**, and no others. -/
theorem matchesAll_iff (r : Regex) {text : Bytes} : r.matchesAll text = true ↔ r.Matches text := by
  rw [matchesAll, accepts_iff]
  constructor
  · rintro ⟨way, more, rfl, hway, hmore⟩
    rw [List.isEmpty_iff] at hmore
    rwa [hmore, List.append_nil]
  · intro h
    exact ⟨text, [], (List.append_nil _).symm, h, rfl⟩

/-! ### Reading -/

section

variable {n : Nat} {b : UInt8} {text rest after : Bytes} {set : ByteSet} {r group : Regex}

theorem startsWith_singleton (text : Bytes) (c : UInt8) :
    Bytes.startsWith text [c] = true ↔ text.head? = some c := by
  cases text with
  | nil => simp [Bytes.startsWith]
  | cons b rest =>
    rw [Bytes.startsWith, List.isPrefixOf_cons_cons, List.isPrefixOf_nil_left, Bool.and_true,
      beq_iff_eq, List.head?_cons, Option.some_inj]
    exact eq_comm

/-- At the end of a group. -/
theorem read_close (n : Nat) (text : Bytes) : read (n + 1) (')' :: text) = .ok (.done, ')' :: text) :=
  rfl

theorem startsWith_group (hopen : b ≠ '(') : Bytes.startsWith (b :: text) "(?:" = false := by
  have hgroup : ("(?:" : Bytes) = '('.toUInt8 :: ['?'.toUInt8, ':'.toUInt8] := rfl
  rw [Bytes.startsWith, hgroup, List.isPrefixOf_cons_cons, beq_eq_false_iff_ne.mpr (Ne.symm hopen),
    Bool.false_and]

/-- A form that is not a group begins with a set. -/
theorem read_set (hopen : b ≠ '(') (hclose : b ≠ ')') :
    read (n + 1) (b :: text) = (do
      let (set, rest) ← readSet (b :: text)
      if Bytes.startsWith rest "*" then
        let (after, rest) ← read n (rest.drop 1)
        return (.many set after, rest)
      else
        let (after, rest) ← read n rest
        return (.one set after, rest)) := by
  have hend : ¬(b :: text = [] ∨ Bytes.startsWith (b :: text) ")" = true) := by
    rw [not_or]
    refine ⟨List.cons_ne_nil b text, fun hstart => hclose ?_⟩
    exact Option.some.inj ((startsWith_singleton (b :: text) ')').mp hstart)
  rw [read, if_neg hend, if_neg (by rw [startsWith_group hopen]; simp)]

/-- A set that is not repeated. -/
theorem read_one (hopen : b ≠ '(') (hclose : b ≠ ')') (hset : readSet (b :: text) = .ok (set, rest))
    (hstar : rest.head? ≠ some '*'.toUInt8) (hrest : read n rest = .ok (r, after)) :
    read (n + 1) (b :: text) = .ok (.one set r, after) := by
  have hnot : ¬Bytes.startsWith rest "*" = true := fun h => hstar ((startsWith_singleton rest '*').mp h)
  rw [read_set hopen hclose, hset]
  show (if Bytes.startsWith rest "*" = true then _ else _) = _
  rw [if_neg hnot, hrest]
  rfl

/-- A set that is repeated. -/
theorem read_many (hopen : b ≠ '(') (hclose : b ≠ ')')
    (hset : readSet (b :: text) = .ok (set, '*' :: rest)) (hrest : read n rest = .ok (r, after)) :
    read (n + 1) (b :: text) = .ok (.many set r, after) := by
  rw [read_set hopen hclose, hset]
  show (do let (after, rest) ← read n rest; return (Regex.many set after, rest)) = _
  rw [hrest]
  rfl

/-- An optional group. -/
theorem read_maybe (hgroup : read n text = .ok (group, ')' :: '?' :: rest))
    (hrest : read n rest = .ok (r, after)) :
    read (n + 1) ('(' :: '?' :: ':' :: text) = .ok (.maybe group r, after) := by
  show (do
    let (group, rest) ← read n text
    if Bytes.startsWith rest ")?" then
      let (after, rest) ← read n (rest.drop 2)
      return (Regex.maybe group after, rest)
    else .error .group) = _
  rw [hgroup]
  show (do let (after, rest) ← read n rest; return (Regex.maybe group after, rest)) = _
  rw [hrest]
  rfl

end

end Regex

end ScriptLint
