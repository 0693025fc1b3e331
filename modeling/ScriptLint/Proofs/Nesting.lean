/-
How deep tokens are nested in brackets.

The depth of an index is the number of brackets that are open before it.  In an outline
every bracket has its partner: a reader that jumps over a group leaves off behind the
closing bracket, as deep as it was before the opening one.

* **`Outline.depth`** — the number of brackets open before an index;
* **`Outline.Nested`** — every group ends as deep as it begins, and so does the whole;
* **`Outline.nested_ofTokens`** — brackets that can be paired are nested.
-/
import ScriptLint.Outline
import ScriptLint.Proofs.Scanning

namespace ScriptLint

namespace Outline

variable {o : Outline} {i j k : Nat}

/-! ### The token at an index -/

theorem is_iff {text : Bytes} :
    o.is i text = true ↔ ∃ t, o.tokens[i]? = some t ∧ t.isText text = true := by
  simp [is, Option.any_eq_true]

theorem text_of_is {text : Bytes} (h : o.is i text = true) : (o.token i).text = text := by
  obtain ⟨t, ht, htext⟩ := is_iff.mp h
  simp only [Token.isText, Bool.and_eq_true, beq_iff_eq] at htext
  simpa [token, ht] using htext.2

/-- The token at an index is one text only. -/
theorem eq_of_is {a b : Bytes} (ha : o.is i a = true) (hb : o.is i b = true) : a = b :=
  (text_of_is ha).symm.trans (text_of_is hb)

theorem is_eq_false {a b : Bytes} (ha : o.is i a = true) (hne : a ≠ b) : o.is i b = false := by
  cases hb : o.is i b with
  | false => rfl
  | true => exact absurd (eq_of_is ha hb) hne

theorem lt_of_is {text : Bytes} (h : o.is i text = true) : i < o.size := by
  obtain ⟨t, ht, _⟩ := is_iff.mp h
  exact (Array.getElem?_eq_some_iff.mp ht).1

/-- The token at an index is one of several words or marks. -/
theorem any_isText_iff {texts : List Bytes} :
    o.tokens[i]?.any (fun t => texts.any t.isText) = true ↔
      ∃ text ∈ texts, o.is i text = true := by
  simp only [Option.any_eq_true, List.any_eq_true, is_iff]
  constructor
  · rintro ⟨t, ht, text, hmem, htext⟩
    exact ⟨text, hmem, t, ht, htext⟩
  · rintro ⟨text, hmem, t, ht, htext⟩
    exact ⟨t, ht, text, hmem, htext⟩

theorem opens_iff : o.opens i = true ↔ ∃ text ∈ Token.openers, o.is i text = true :=
  any_isText_iff

theorem closes_iff : o.closes i = true ↔ ∃ text ∈ Token.closers, o.is i text = true :=
  any_isText_iff

theorem opens_eq_false {text : Bytes} (h : o.is i text = true) (hne : text ∉ Token.openers) :
    o.opens i = false := by
  rw [Bool.eq_false_iff]
  intro hopens
  obtain ⟨opener, hmem, hi⟩ := opens_iff.mp hopens
  exact hne (eq_of_is hi h ▸ hmem)

theorem closes_eq_false {text : Bytes} (h : o.is i text = true) (hne : text ∉ Token.closers) :
    o.closes i = false := by
  rw [Bool.eq_false_iff]
  intro hcloses
  obtain ⟨closer, hmem, hi⟩ := closes_iff.mp hcloses
  exact hne (eq_of_is hi h ▸ hmem)

/-- A closing bracket is nothing else. -/
theorem is_eq_false_of_closes {text : Bytes} (h : o.closes i = true)
    (hne : text ∉ Token.closers) : o.is i text = false := by
  obtain ⟨closer, hmem, hi⟩ := closes_iff.mp h
  exact is_eq_false hi fun heq => hne (heq ▸ hmem)

/-- A string literal is no word or mark. -/
theorem is_eq_false_of_isString {text : Bytes} (h : o.isString i = true) :
    o.is i text = false := by
  cases hi : o.is i text with
  | false => rfl
  | true =>
    obtain ⟨t, ht, hi⟩ := is_iff.mp hi
    simp only [isString, ht, Option.any_some, decide_eq_true_eq] at h
    simp [Token.isText, h] at hi

theorem opens_of_brace (h : o.is k "\x7b" = true) : o.opens k = true :=
  opens_iff.mpr ⟨_, by decide, h⟩

theorem lt_of_opens (h : o.opens k = true) : k < o.size := by
  obtain ⟨opener, _, hk⟩ := opens_iff.mp h
  exact lt_of_is hk

theorem lt_of_closes (h : o.closes k = true) : k < o.size := by
  obtain ⟨closer, _, hk⟩ := closes_iff.mp h
  exact lt_of_is hk

theorem closes_eq_false_of_opens (h : o.opens k = true) : o.closes k = false := by
  obtain ⟨opener, hmem, hk⟩ := opens_iff.mp h
  have hne : ∀ text ∈ Token.openers, text ∉ Token.closers := by decide
  exact closes_eq_false hk (hne opener hmem)

theorem opens_eq_false_of_closes (h : o.closes k = true) : o.opens k = false := by
  cases hopens : o.opens k with
  | false => rfl
  | true => exact absurd h (by simp [closes_eq_false_of_opens hopens])

/-! ### Depth -/

/-- The number of brackets that are open before an index. -/
def depth (o : Outline) : Nat → Nat
  | 0 => 0
  | i + 1 => if o.opens i then depth o i + 1 else if o.closes i then depth o i - 1 else depth o i

theorem depth_of_opens (h : o.opens i = true) : o.depth (i + 1) = o.depth i + 1 := by
  simp [depth, h]

theorem depth_of_closes (h : o.closes i = true) : o.depth (i + 1) = o.depth i - 1 := by
  simp [depth, opens_eq_false_of_closes h, h]

/-- Only brackets change the depth. -/
theorem depth_succ (hopens : o.opens i = false) (hcloses : o.closes i = false) :
    o.depth (i + 1) = o.depth i := by
  simp [depth, hopens, hcloses]

/-- The bracket at an index has a partner behind it, which closes what it opens: everything
between them is deeper. -/
def Closed (o : Outline) (k : Nat) : Prop :=
  ∃ m, o.partner[k]? = some (some m) ∧ k < m ∧ o.closes m = true ∧
    o.depth (m + 1) = o.depth k ∧ ∀ j, k < j → j ≤ m → o.depth k < o.depth j

/-- The brackets are well nested. -/
structure Nested (o : Outline) : Prop where
  closed : ∀ k, o.opens k = true → o.Closed k
  inside : ∀ k, o.closes k = true → 0 < o.depth k
  whole : o.depth o.size = 0

/-! ### Groups -/

namespace Nested

/-- An opening bracket knows its partner. -/
theorem partner_eq (ho : o.Nested) (h : o.opens k = true) :
    o.partner[k]? = some (some (o.partnerOf k)) := by
  obtain ⟨m, hm, _⟩ := ho.closed k h
  simp [partnerOf, hm]

theorem lt_partnerOf (ho : o.Nested) (h : o.opens k = true) : k < o.partnerOf k := by
  obtain ⟨m, hm, hlt, _⟩ := ho.closed k h
  simpa [partnerOf, hm] using hlt

theorem closes_partnerOf (ho : o.Nested) (h : o.opens k = true) :
    o.closes (o.partnerOf k) = true := by
  obtain ⟨m, hm, _, hcloses, _⟩ := ho.closed k h
  simpa [partnerOf, hm] using hcloses

/-- A reader that jumps over a group leaves off behind the partner. -/
theorem afterGroup_eq (ho : o.Nested) (h : o.opens k = true) :
    o.afterGroup k = o.partnerOf k + 1 := by
  rw [afterGroup, Nat.max_eq_left (Nat.le_of_lt (ho.lt_partnerOf h))]

theorem afterGroup_le (ho : o.Nested) (h : o.opens k = true) : o.afterGroup k ≤ o.size := by
  rw [ho.afterGroup_eq h]
  exact lt_of_closes (ho.closes_partnerOf h)

/-- **Behind a group** the depth is the one before it. -/
theorem depth_afterGroup (ho : o.Nested) (h : o.opens k = true) :
    o.depth (o.afterGroup k) = o.depth k := by
  obtain ⟨m, hm, _, _, hdepth, _⟩ := ho.closed k h
  have hpartner : o.partnerOf k = m := by simp [partnerOf, hm]
  rw [ho.afterGroup_eq h, hpartner, hdepth]

/-- The partner is the first bracket behind which the depth is the one before the group. -/
theorem partnerOf_eq {m : Nat} (ho : o.Nested) (h : o.opens k = true) (hkm : k < m)
    (hdepth : o.depth (m + 1) = o.depth k)
    (hinside : ∀ j, k < j → j ≤ m → o.depth k < o.depth j) : o.partnerOf k = m := by
  obtain ⟨m', hm', hlt, _, hdepth', hinside'⟩ := ho.closed k h
  have hpartner : o.partnerOf k = m' := by simp [partnerOf, hm']
  rw [hpartner]
  rcases Nat.lt_trichotomy m' m with hlt' | heq | hgt
  · have := hinside (m' + 1) (by omega) hlt'
    omega
  · exact heq
  · have := hinside' (m + 1) (by omega) hgt
    omega

/-- No group ends where none is open. -/
theorem closes_eq_false (ho : o.Nested) (h : o.depth k = 0) : o.closes k = false := by
  cases hcloses : o.closes k with
  | false => rfl
  | true => exact absurd (ho.inside k hcloses) (by omega)

end Nested

/-! ### Pairing the brackets -/

/-- The outline in which the brackets at two indices are each other's partners. -/
def join (o : Outline) (j i : Nat) : Outline :=
  ⟨o.tokens, (o.partner.setIfInBounds j (some i)).setIfInBounds i (some j)⟩

@[simp] theorem size_join (j i : Nat) : (o.join j i).size = o.size := rfl

@[simp] theorem opens_join (j i k : Nat) : (o.join j i).opens k = o.opens k := rfl

@[simp] theorem closes_join (j i k : Nat) : (o.join j i).closes k = o.closes k := rfl

@[simp] theorem depth_join (j i k : Nat) : (o.join j i).depth k = o.depth k := by
  induction k with
  | zero => rfl
  | succ k ih => simp only [depth, ih, opens_join, closes_join]

/-- The partners of the brackets before the closing one. -/
theorem partner_join (hsize : o.partner.size = o.size) (hi : i < o.size) (hk : k < i) :
    (o.join j i).partner[k]? = if k = j then some (some i) else o.partner[k]? := by
  rw [join, Array.getElem?_setIfInBounds_ne (by omega), Array.getElem?_setIfInBounds]
  by_cases hkj : k = j
  · have hj : j < o.partner.size := by omega
    simp [hkj, hj]
  · simp [hkj, Ne.symm hkj]

/-- While brackets are paired: the open ones form a ladder, each as deep as there are open
ones below it, and the others are closed. -/
structure Pairing (o : Outline) (opened : List (Nat × Token)) (i : Nat) : Prop where
  known : o.partner.size = o.size
  reach : i ≤ o.size
  height : o.depth i = opened.length
  ladder : ∀ e below, e :: below <:+ opened → e.1 < i ∧ o.depth e.1 = below.length
  above : ∀ e ∈ opened, ∀ j, e.1 < j → j ≤ i → o.depth e.1 < o.depth j
  passed : ∀ k < i, o.opens k = true → k ∈ opened.map Prod.fst ∨ o.Closed k
  inside : ∀ k < i, o.closes k = true → 0 < o.depth k

variable {opened : List (Nat × Token)} {partner partner' : Array (Option Nat)}
  {tokens : List Token}

theorem Pairing.start (tokens : List Token) :
    Pairing ⟨tokens.toArray, Array.replicate tokens.length none⟩ [] 0 := by
  refine ⟨by simp [size], Nat.zero_le _, rfl, fun e below h => ?_, by simp, by simp, by simp⟩
  exact absurd (List.suffix_nil.mp h) (List.cons_ne_nil _ _)

/-- An open bracket is behind, and less deep than what follows. -/
theorem Pairing.of_mem {e : Nat × Token} (h : Pairing o opened i) (he : e ∈ opened) :
    e.1 < i ∧ o.depth e.1 < opened.length := by
  obtain ⟨above, below, rfl⟩ := List.append_of_mem he
  obtain ⟨hlt, hdepth⟩ := h.ladder e below (List.suffix_append _ _)
  refine ⟨hlt, ?_⟩
  rw [hdepth, List.length_append, List.length_cons]
  omega

/-- What follows the open brackets stays deeper while the depth is not that of one of them. -/
theorem Pairing.above_succ {opened' : List (Nat × Token)} (h : Pairing o opened i)
    (hsub : ∀ e ∈ opened', e ∈ opened ∧ o.depth e.1 < o.depth (i + 1)) :
    ∀ e ∈ opened', ∀ j, e.1 < j → j ≤ i + 1 → o.depth e.1 < o.depth j := by
  intro e he j hlt hj
  rcases Nat.lt_or_ge i j with hij | hij
  · obtain rfl : j = i + 1 := by omega
    exact (hsub e he).2
  · exact h.above e (hsub e he).1 j hlt hij

/-- An opening bracket is open from then on. -/
theorem Pairing.open (h : Pairing o opened i) (hopens : o.opens i = true) (t : Token) :
    Pairing o ((i, t) :: opened) (i + 1) := by
  have hcloses := closes_eq_false_of_opens hopens
  refine ⟨h.known, lt_of_opens hopens, ?_, fun e below he => ?_,
    List.forall_mem_cons.mpr ⟨fun j hlt hj => ?_, h.above_succ fun e he => ⟨he, ?_⟩⟩,
    fun k hk hopen => ?_, fun k hk hclose => ?_⟩
  · rw [depth_of_opens hopens, h.height, List.length_cons]
  · rcases List.suffix_cons_iff.mp he with heq | he
    · obtain ⟨rfl, rfl⟩ := List.cons.inj heq
      exact ⟨Nat.lt_succ_self _, h.height⟩
    · have := h.ladder e below he
      exact ⟨Nat.lt_succ_of_lt this.1, this.2⟩
  · -- only the next index lies behind the new bracket
    obtain rfl : j = i + 1 := by
      have : i < j := hlt
      omega
    rw [depth_of_opens hopens]
    exact Nat.lt_succ_self _
  · have := (h.of_mem he).2
    rw [depth_of_opens hopens, h.height]
    omega
  · rcases Nat.lt_succ_iff_lt_or_eq.mp hk with hk | rfl
    · exact (h.passed k hk hopen).imp_left (List.mem_cons_of_mem _)
    · exact .inl List.mem_cons_self
  · rcases Nat.lt_succ_iff_lt_or_eq.mp hk with hk | rfl
    · exact h.inside k hk hclose
    · simp [hcloses] at hclose

/-- What is no bracket can be passed. -/
theorem Pairing.pass (h : Pairing o opened i) (hi : i < o.size) (hopens : o.opens i = false)
    (hcloses : o.closes i = false) : Pairing o opened (i + 1) := by
  refine ⟨h.known, hi, by rw [depth_succ hopens hcloses, h.height], fun e below he => ?_,
    h.above_succ fun e he => ⟨he, ?_⟩, fun k hk hopen => ?_, fun k hk hclose => ?_⟩
  · have := h.ladder e below he
    exact ⟨Nat.lt_succ_of_lt this.1, this.2⟩
  · rw [depth_succ hopens hcloses, h.height]
    exact (h.of_mem he).2
  · rcases Nat.lt_succ_iff_lt_or_eq.mp hk with hk | rfl
    · exact h.passed k hk hopen
    · simp [hopens] at hopen
  · rcases Nat.lt_succ_iff_lt_or_eq.mp hk with hk | rfl
    · exact h.inside k hk hclose
    · simp [hcloses] at hclose

/-- A closing bracket is the partner of the innermost open one. -/
theorem Pairing.close {t : Token} (h : Pairing o ((j, t) :: opened) i)
    (hcloses : o.closes i = true) : Pairing (o.join j i) opened (i + 1) := by
  obtain ⟨hj, hdepth⟩ : j < i ∧ o.depth j = opened.length := h.ladder _ _ (List.suffix_refl _)
  have hi := lt_of_closes hcloses
  have hafter : o.depth (i + 1) = opened.length := by
    rw [depth_of_closes hcloses, h.height, List.length_cons, Nat.add_sub_cancel]
  have hknown : (o.join j i).partner.size = o.size := by simpa [join] using h.known
  refine ⟨hknown, hi, by rw [depth_join, hafter], fun e below he => ?_,
    ?_, fun k hk hopen => ?_, fun k hk hclose => ?_⟩
  · have := h.ladder e below (List.suffix_cons_iff.mpr (.inr he))
    rw [depth_join]
    exact ⟨Nat.lt_succ_of_lt this.1, this.2⟩
  · simp only [depth_join]
    refine h.above_succ fun e he => ⟨List.mem_cons_of_mem _ he, ?_⟩
    -- a bracket that stays open has fewer below it than were open before the closed one
    obtain ⟨above, below, rfl⟩ := List.append_of_mem he
    have := (h.ladder e below (List.suffix_append ((j, t) :: above) _)).2
    rw [hafter, this, List.length_append, List.length_cons]
    omega
  · rw [opens_join] at hopen
    -- the closing bracket itself opens nothing
    have hk : k < i := by
      refine (Nat.lt_succ_iff_lt_or_eq.mp hk).resolve_right ?_
      rintro rfl
      simp [opens_eq_false_of_closes hcloses] at hopen
    by_cases hkj : k = j
    · -- the bracket that is closed here
      refine .inr ⟨i, by rw [partner_join h.known hi hk, if_pos hkj], hk, hcloses, ?_, ?_⟩
      · rw [depth_join, depth_join, hafter, hkj, hdepth]
      · simp only [depth_join, hkj]
        exact h.above _ List.mem_cons_self
    · rcases h.passed k hk hopen with hmem | ⟨m, hm, hlt, hclose, hend, hdeeper⟩
      · exact .inl ((List.mem_cons.mp hmem).resolve_left hkj)
      · refine .inr ⟨m, by rw [partner_join h.known hi hk, if_neg hkj, hm], hlt, hclose, ?_, ?_⟩
        · rw [depth_join, depth_join, hend]
        · simpa only [depth_join] using hdeeper
  · rw [depth_join]
    rcases Nat.lt_succ_iff_lt_or_eq.mp hk with hk | rfl
    · exact h.inside k hk hclose
    · rw [h.height, List.length_cons]
      exact Nat.succ_pos _

/-- What is no bracket is passed. -/
theorem pairFrom_pass {t : Token} (hopens : t.opens = false) (hcloses : t.closes = false) :
    pairFrom partner opened i (t :: tokens) = pairFrom partner opened (i + 1) tokens := by
  cases opened <;> simp [pairFrom, hopens, hcloses]

/-- **When all tokens are passed** the brackets are nested. -/
theorem Pairing.nested {rest : List Token} (h : Pairing ⟨tokens.toArray, partner⟩ opened i)
    (hrest : tokens.drop i = rest) (hpair : pairFrom partner opened i rest = .ok partner') :
    Nested ⟨tokens.toArray, partner'⟩ := by
  induction rest generalizing partner opened i with
  | nil =>
    -- pairing ends well only if no bracket is left open
    cases opened with
    | cons e opened => simp [pairFrom] at hpair
    | nil =>
      obtain rfl := Except.ok.inj hpair
      obtain rfl : i = size ⟨tokens.toArray, partner⟩ := by
        have hlength := List.drop_eq_nil_iff.mp hrest
        have hreach := h.reach
        simp only [size, List.size_toArray] at hreach ⊢
        omega
      exact ⟨fun k hk => (h.passed k (lt_of_opens hk) hk).resolve_left List.not_mem_nil,
        fun k hk => h.inside k (lt_of_closes hk) hk, h.height⟩
  | cons t rest ih =>
    have hi : tokens[i]? = some t := by
      have := congrArg List.head? hrest
      rwa [List.head?_drop] at this
    have hrest' : tokens.drop (i + 1) = rest := by
      rw [← List.drop_drop, hrest]
      rfl
    have hopens : opens ⟨tokens.toArray, partner⟩ i = t.opens := by simp [opens, hi]
    have hcloses : closes ⟨tokens.toArray, partner⟩ i = t.closes := by simp [closes, hi]
    unfold pairFrom at hpair
    split at hpair
    case isTrue hopen => exact ih (h.open (hopens.trans hopen) t) hrest' hpair
    case isFalse hopen =>
      split at hpair
      case isFalse hclose =>
        have hlt : i < size ⟨tokens.toArray, partner⟩ := by
          simpa [size] using (List.getElem?_eq_some_iff.mp hi).1
        exact ih (h.pass hlt (by simpa [hopens] using hopen) (by simpa [hcloses] using hclose))
          hrest' hpair
      case isTrue hclose =>
        cases opened with
        | nil => simp at hpair
        | cons e opened =>
          simp only at hpair
          split at hpair
          case isFalse => simp at hpair
          case isTrue => exact ih (h.close (hcloses.trans hclose)) hrest' hpair

/-- **The brackets of an outline are nested.** -/
theorem nested_ofTokens (h : ofTokens tokens = .ok o) : o.Nested := by
  obtain ⟨partner, hpartner, ho⟩ := bind_ok h
  obtain rfl := Except.ok.inj ho
  exact (Pairing.start tokens).nested rfl hpartner

theorem tokens_ofTokens (h : ofTokens tokens = .ok o) : o.tokens = tokens.toArray := by
  obtain ⟨partner, _, ho⟩ := bind_ok h
  obtain rfl := Except.ok.inj ho
  rfl

end Outline

end ScriptLint
