/-
Lists of names in braces.

A specifier list is read entry by entry, with commas between them.  The words of an entry are
its names, apart from `type` and `as`, and its inner name is no property and no key.

* **`Outline.Lists`** — a row of entries up to the closing brace;
* **`Outline.lists_of_specifiers`** — what is read as a list is such a row;
* **`Outline.Lists.covers`** — its words are the names of the entries;
* **`Outline.exportEntries`** — the entries of an export list.
-/
import ScriptLint.Proofs.Landing

namespace ScriptLint

namespace Outline

section

variable (o : Outline)

/-- The brace of the export list that begins at an index. -/
def exportBrace? (i : Nat) : Option Nat :=
  if o.is i "export" then
    if o.is (i + 1) "\x7b" then some (i + 1)
    else if o.is (i + 1) "type" && o.is (i + 2) "\x7b" then some (i + 2)
    else none
  else none

/-- The entries of the export list that begins at an index; no other statement has any. -/
def exportEntries (i : Nat) : List Specifier :=
  ((o.exportBrace? i).bind o.specifierList).getD []

end

variable {o : Outline} {i j k close : Nat}

/-! ### Words and literals -/

theorem getElem_eq_token (hk : k < o.size) : o.tokens[k]? = some (o.token k) := by
  rw [token, Array.getElem?_eq_getElem hk, Option.getD_some]

theorem kind_of_isWord (h : o.isWord k = true) : (o.token k).kind = .word := by
  simpa [isWord, getElem_eq_token (lt_of_isWord h)] using h

theorem kind_of_isString (h : o.isString k = true) : (o.token k).kind = .string := by
  simpa [isString, getElem_eq_token (lt_of_isString h)] using h

theorem isBindable_iff :
    o.isBindable k = true ↔ o.isWord k = true ∧ (o.token k).text ∉ Token.reserved := by
  constructor
  · intro h
    have hword := isWord_of_isBindable h
    simp only [isBindable, getElem_eq_token (lt_of_isWord hword), Option.any_some,
      Bool.and_eq_true, decide_eq_true_eq] at h
    exact ⟨hword, h.2⟩
  · rintro ⟨hword, hreserved⟩
    simp [isBindable, getElem_eq_token (lt_of_isWord hword), kind_of_isWord hword, hreserved]

theorem isBindable_of_is {text : Bytes} (h : o.is k text = true)
    (hreserved : text ∈ Token.reserved) : o.isBindable k = false := by
  rw [Bool.eq_false_iff]
  intro hword
  exact (isBindable_iff.mp hword).2 (text_of_is h ▸ hreserved)

theorem isBindable_of_mark {mark : Bytes} (ho : o.Worded) (h : o.is k mark = true)
    (hmark : mark.head?.any isWordStart = false) : o.isBindable k = false := by
  rw [Bool.eq_false_iff]
  intro hword
  rw [ho.is_eq_false (isWord_of_isBindable hword) hmark] at h
  cases h

/-! ### Entries of lists -/

/-- An entry that begins at `k` and is followed by the token at `next`. -/
structure Entry (o : Outline) (close k next : Nat) (e : Specifier) : Prop where
  name : e.name = k ∨ (e.name = k + 1 ∧ o.is k "type" = true)
  spelled : o.isSpelled e.name = true
  renamed : (e.renamed = none ∧ next = e.name + 1) ∨
    (e.renamed = some (e.name + 2) ∧ next = e.name + 3 ∧ o.is (e.name + 1) "as" = true ∧
      o.isSpelled (e.name + 2) = true)
  ended : close ≤ next ∨ o.is next "," = true

/-- The entries from an index up to the closing brace, with commas between them. -/
inductive Lists (o : Outline) (close : Nat) : Nat → List Specifier → Prop
  | done {k : Nat} : close ≤ k → Lists o close k []
  | comma {k : Nat} {entries : List Specifier} : k < close → o.is k "," = true →
      Lists o close (k + 1) entries → Lists o close k entries
  | entry {k next : Nat} {e : Specifier} {rest : List Specifier} : k < close →
      o.Entry close k next e → Lists o close next rest → Lists o close k (e :: rest)

/-- What is read as a specifier list. -/
theorem lists_of_specifiers {entries : List Specifier} (h : o.specifiers close k = some entries) :
    o.Lists close k entries := by
  induction hn : close - k using Nat.strongRecOn generalizing k entries with
  | _ n ih =>
    rw [specifiers] at h
    by_cases hk : k < close
    case neg =>
      rw [if_neg hk] at h
      obtain rfl := Option.some.inj h
      exact .done (Nat.le_of_not_lt hk)
    rw [if_pos hk] at h
    by_cases hcomma : o.is k "," = true
    · rw [if_pos hcomma] at h
      exact .comma hk hcomma (ih _ (by omega) h rfl)
    rw [if_neg hcomma] at h
    simp only at h
    -- where the name stands, behind `type` or not
    obtain ⟨name, typeOnly, hname, hat⟩ : ∃ name typeOnly,
        (if (o.is k "type" && o.isSpelled (k + 1) && !o.is (k + 1) "as") = true then k + 1
          else k) = name ∧ (name = k ∨ (name = k + 1 ∧ o.is k "type" = true)) ∧
        (o.is k "type" && o.isSpelled (k + 1) && !o.is (k + 1) "as") = typeOnly := by
      refine ⟨_, _, rfl, ?_, rfl⟩
      split
      case isTrue htype =>
        simp only [Bool.and_eq_true] at htype
        exact .inr ⟨rfl, htype.1.1⟩
      case isFalse => exact .inl rfl
    rw [hname, hat.2] at h
    by_cases hspelled : o.isSpelled name = true
    case neg => simp [hspelled] at h
    have hended {next : Nat} (hnext : ¬ (decide (next < close) && !o.is next ",") = true) :
        close ≤ next ∨ o.is next "," = true := by
      simpa [Nat.lt_or_ge, or_iff_not_imp_left] using hnext
    -- and what stands behind the name
    by_cases has : o.is (name + 1) "as" = true
    · simp only [hspelled, has, Bool.not_true, Bool.true_and, Bool.false_eq_true, if_false,
        if_true, Bool.not_eq_true'] at h
      split at h
      case isTrue => cases h
      case isFalse hrenamed =>
        split at h
        case isTrue => cases h
        case isFalse hnext =>
          obtain ⟨rest, hrest, h⟩ := Option.bind_eq_some_iff.mp h
          obtain rfl := Option.some.inj h
          exact .entry hk ⟨hat.1, hspelled, .inr ⟨rfl, rfl, has, by simpa using hrenamed⟩,
            hended hnext⟩ (ih _ (by dsimp only; omega) hrest rfl)
    · simp only [hspelled, has, Bool.not_true, Bool.false_and, Bool.false_eq_true, if_false]
        at h
      split at h
      case isTrue => cases h
      case isFalse hnext =>
        obtain ⟨rest, hrest, h⟩ := Option.bind_eq_some_iff.mp h
        obtain rfl := Option.some.inj h
        exact .entry hk ⟨hat.1, hspelled, .inl ⟨rfl, rfl⟩, hended hnext⟩
          (ih _ (by dsimp only; omega) hrest rfl)

/-- A word or literal is no mark. -/
theorem is_eq_false_of_isSpelled {mark : Bytes} (ho : o.Worded) (h : o.isSpelled k = true)
    (hmark : mark.head?.any isWordStart = false) : o.is k mark = false := by
  rcases Bool.or_eq_true_iff.mp h with hword | hstring
  · exact ho.is_eq_false hword hmark
  · exact is_eq_false_of_isString hstring

/-- A closing bracket spells nothing. -/
theorem isSpelled_of_closes (ho : o.Worded) (h : o.closes k = true) : o.isSpelled k = false := by
  obtain ⟨closer, hmem, hcloser⟩ := closes_iff.mp h
  have hmark : ∀ closer ∈ Token.closers, closer.head?.any isWordStart = false := by decide
  have hkind := ho.kind_of_is hcloser (hmark closer hmem)
  simp [isSpelled, isWord, isString, getElem_eq_token (lt_of_closes h), hkind]

namespace Entry

variable {next m : Nat} {e : Specifier}

/-- An entry takes the list ahead, and not behind the closing bracket. -/
theorem range (h : o.Entry close k next e) (ho : o.Worded) (hclose : o.closes close = true)
    (hk : k < close) : k ≤ e.name ∧ e.name < next ∧ next ≤ close := by
  have hne {i : Nat} (hi : o.isSpelled i = true) : i ≠ close := by
    rintro rfl
    rw [isSpelled_of_closes ho hclose] at hi
    cases hi
  have hname := hne h.spelled
  rcases h.renamed with ⟨_, hnext⟩ | ⟨_, hnext, has, hrenamed⟩
  · rcases h.name with hat | ⟨hat, _⟩ <;> omega
  · have hword : e.name + 1 ≠ close := by
      intro heq
      rw [heq, is_eq_false_of_closes hclose (by decide)] at has
      cases has
    have hrenamed := hne hrenamed
    rcases h.name with hat | ⟨hat, _⟩ <;> omega

/-- An entry begins with a word or a literal. -/
theorem noComma (h : o.Entry close k next e) (ho : o.Worded) : o.is k "," = false := by
  rcases h.name with hat | ⟨_, htype⟩
  · exact is_eq_false_of_isSpelled ho (hat ▸ h.spelled) (by decide)
  · exact is_eq_false htype (by decide)

/-- The words of an entry are its names, and `type` and `as`. -/
theorem covers (h : o.Entry close k next e) (hm : k ≤ m) (hlt : m < next)
    (hword : o.isBindable m = true) : e.name = m ∨ e.renamed = some m := by
  have hne {i : Nat} {text : Bytes} (hi : o.is i text = true) (hreserved : text ∈ Token.reserved) :
      m ≠ i := by
    rintro rfl
    rw [isBindable_of_is hi hreserved] at hword
    cases hword
  have hname : e.name ≤ m := by
    rcases h.name with hat | ⟨hat, htype⟩
    · omega
    · have := hne htype (by decide)
      omega
  rcases h.renamed with ⟨_, hnext⟩ | ⟨hrenamed, hnext, has, _⟩
  · exact .inl (by omega)
  · have := hne has (by decide)
    rcases Nat.lt_trichotomy m (e.name + 1) with hlt' | heq | hgt
    · exact .inl (by omega)
    · exact absurd heq this
    · exact .inr (by rw [hrenamed]; congr 1; omega)

end Entry

/-- **The words between the braces** that may name a binding are the names of the entries. -/
theorem Lists.covers {entries : List Specifier} {m : Nat} (h : o.Lists close k entries)
    (ho : o.Worded) (hm : k ≤ m) (hlt : m < close) (hword : o.isBindable m = true) :
    ∃ e ∈ entries, e.name = m ∨ e.renamed = some m := by
  induction h with
  | done hk => omega
  | comma hk hcomma _ ih =>
    rcases Nat.eq_or_lt_of_le hm with rfl | hm
    · rw [isBindable_of_mark ho hcomma (by decide)] at hword
      cases hword
    · exact ih hm
  | @entry k next e rest hk he _ ih =>
    rcases Nat.lt_or_ge m next with hnext | hnext
    · exact ⟨e, List.mem_cons_self, he.covers hm hnext hword⟩
    · obtain ⟨e', he', hnames⟩ := ih hnext
      exact ⟨e', List.mem_cons_of_mem _ he', hnames⟩

/-- The inner name of an entry follows a brace, a comma or `type`, and no colon follows it; the
outer one follows `as`. -/
structure Stands (o : Outline) (e : Specifier) : Prop where
  spelled : o.isSpelled e.name = true
  before : o.is (e.name - 1) "\x7b" = true ∨ o.is (e.name - 1) "," = true ∨
    o.is (e.name - 1) "type" = true
  after : o.is (e.name + 1) ":" = false
  renamed : ∀ outer ∈ e.renamed, o.is (outer - 1) "as" = true

namespace Stands

variable {e : Specifier}

/-- The inner name is no property. -/
theorem noProperty (h : o.Stands e) : o.followsDot e.name = false := by
  have hbefore : o.is (e.name - 1) "." = false := by
    rcases h.before with hmark | hmark | hmark <;> exact is_eq_false hmark (by decide)
  simp [followsDot, hbefore]

/-- The inner name is no key. -/
theorem noKey (h : o.Stands e) : o.isKey e.name = false := by
  simp [isKey, h.after]

/-- The inner name of an entry is the outer name of none. -/
theorem ne_renamed {e' : Specifier} (h : o.Stands e) (h' : o.Stands e') :
    e'.renamed ≠ some e.name := by
  intro hrenamed
  have has := h'.renamed _ hrenamed
  have hnot : o.is (e.name - 1) "as" = false := by
    rcases h.before with hmark | hmark | hmark <;> exact is_eq_false hmark (by decide)
  rw [hnot] at has
  cases has

end Stands

theorem Entry.stands {next : Nat} {e : Specifier} (h : o.Entry close k next e) (ho : o.Worded)
    (hclose : o.closes close = true) (hk : k < close)
    (hbefore : o.is (k - 1) "\x7b" = true ∨ o.is (k - 1) "," = true) : o.Stands e := by
  have hnext := (h.range ho hclose hk).2.2
  refine ⟨h.spelled, ?_, ?_, fun outer houter => ?_⟩
  · rcases h.name with hat | ⟨hat, htype⟩
    · rw [hat]
      exact hbefore.imp_right .inl
    · rw [hat]
      exact .inr (.inr htype)
  · rcases h.renamed with ⟨_, hat⟩ | ⟨_, _, has, _⟩
    · rw [← hat]
      rcases h.ended with hend | hcomma
      · obtain rfl : next = close := by omega
        exact is_eq_false_of_closes hclose (by decide)
      · exact is_eq_false hcomma (by decide)
    · exact is_eq_false has (by decide)
  · rcases h.renamed with ⟨hnone, _⟩ | ⟨hsome, _, has, _⟩
    · rw [hnone] at houter
      cases houter
    · obtain rfl := Option.some.inj (hsome.symm.trans houter)
      exact has

/-- The entries of a list, if one may begin at the index. -/
theorem Lists.stands {entries : List Specifier} (h : o.Lists close k entries) (ho : o.Worded)
    (hclose : o.closes close = true)
    (hbefore : close ≤ k ∨ o.is k "," = true ∨ o.is (k - 1) "\x7b" = true ∨
      o.is (k - 1) "," = true) :
    ∀ e ∈ entries, k ≤ e.name ∧ e.name < close ∧ o.Stands e := by
  induction h with
  | done => simp
  | comma _ hcomma _ ih =>
    intro e he
    obtain ⟨hle, hrest⟩ := ih (.inr (.inr (.inr hcomma))) e he
    exact ⟨by omega, hrest⟩
  | @entry k next e rest hk he _ ih =>
    obtain ⟨hle, hlt, hnext⟩ := he.range ho hclose hk
    refine List.forall_mem_cons.mpr ⟨⟨hle, by omega, ?_⟩, fun e' he' => ?_⟩
    · refine he.stands ho hclose hk ?_
      rcases hbefore with hend | hmark | hbefore
      · omega
      · rw [he.noComma ho] at hmark
        cases hmark
      · exact hbefore
    · obtain ⟨hle', hrest⟩ := ih (he.ended.imp_right .inl) e' he'
      exact ⟨by omega, hrest⟩

/-- Every entry has a local name. -/
theorem Lists.spelled {entries : List Specifier} (h : o.Lists close k entries) :
    ∀ e ∈ entries, o.isSpelled (e.renamed.getD e.name) = true := by
  induction h with
  | done => simp
  | comma _ _ _ ih => exact ih
  | entry _ he _ ih =>
    refine List.forall_mem_cons.mpr ⟨?_, ih⟩
    rcases he.renamed with ⟨hnone, _⟩ | ⟨hsome, _, _, hspelled⟩
    · simpa [hnone] using he.spelled
    · simpa [hsome] using hspelled

/-! ### Export lists -/

theorem exportEntries_eq_nil (h : o.exportBrace? i = none) : o.exportEntries i = [] := by
  simp [exportEntries, h]

theorem exportBrace_eq_none (h : o.is i "export" = false) : o.exportBrace? i = none := by
  simp [exportBrace?, h]

/-- The brace of an export list follows `export` or `export type`. -/
theorem exportBrace_eq_some (h : o.exportBrace? i = some j) :
    o.is i "export" = true ∧ o.is j "\x7b" = true ∧
      (j = i + 1 ∨ (j = i + 2 ∧ o.is (i + 1) "type" = true)) := by
  unfold exportBrace? at h
  split at h
  case isFalse => cases h
  case isTrue hexport =>
    split at h
    case isTrue hbrace =>
      obtain rfl := Option.some.inj h
      exact ⟨hexport, hbrace, .inl rfl⟩
    case isFalse =>
      split at h
      case isTrue htype =>
        obtain ⟨htype, hbrace⟩ := Bool.and_eq_true_iff.mp htype
        obtain rfl := Option.some.inj h
        exact ⟨hexport, hbrace, .inr ⟨rfl, htype⟩⟩
      case isFalse => cases h

end Outline

end ScriptLint
