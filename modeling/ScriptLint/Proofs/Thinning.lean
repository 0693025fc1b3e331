/-
Outlines without the `debugger` words.

No bracket is among the tokens that are left out, so the others are nested as before, and
each is as deep as it was.  Where no token is left out, both outlines show the same.

* **`Outline.exists_thinned`** — the tokens that stay have an outline;
* **`Outline.Keeps`** — an index of the one outline stands for an index of the other one;
* **`Outline.Alike`** — two indices show the same token;
* **`Outline.exists_keeps`** — every index of the outline without the words stands for one.
-/
import ScriptLint.Proofs.Pruning

namespace ScriptLint

namespace Outline

variable {o o' : Outline} {i i' k n : Nat} {tokens : List Token}

/-! ### Brackets -/

/-- What is left out is no bracket. -/
theorem passes_of_not_isSpared (h : o.isSpared i = false) :
    o.opens i = false ∧ o.closes i = false := by
  obtain ⟨text, htext, hopens, hcloses⟩ : ∃ text, o.is i text = true ∧ text ∉ Token.openers ∧
      text ∉ Token.closers := by
    simp only [isSpared, Bool.and_eq_false_iff, Bool.not_eq_false', Bool.and_eq_true] at h
    rcases h with hdebugger | htrails
    · exact ⟨"debugger", (Bool.and_eq_true_iff.mp hdebugger).1, by decide, by decide⟩
    · exact ⟨";", htrails.1.2, by decide, by decide⟩
  exact ⟨opens_eq_false htext hopens, closes_eq_false htext hcloses⟩

theorem opens_eq (hi : i < o.size) : o.opens i = (o.token i).opens := by
  rw [opens, getElem_eq_token hi, Option.any_some]

theorem closes_eq (hi : i < o.size) : o.closes i = (o.token i).closes := by
  rw [closes, getElem_eq_token hi, Option.any_some]

theorem drop_eq_cons (hi : i < o.size) :
    o.tokens.toList.drop i = o.token i :: o.tokens.toList.drop (i + 1) := by
  have hlt : i < o.tokens.toList.length := by rwa [Array.length_toList]
  rw [List.drop_eq_getElem_cons hlt]
  congr 1
  rw [Array.getElem_toList, token, Array.getElem?_eq_getElem, Option.getD_some]

theorem isText_congr {t t' : Token} (hkind : t'.kind = t.kind) (htext : t'.text = t.text)
    (text : Bytes) : t'.isText text = t.isText text := by
  rw [Token.isText, Token.isText, hkind, htext]

theorem opens_congr {t t' : Token} (hkind : t'.kind = t.kind) (htext : t'.text = t.text) :
    t'.opens = t.opens :=
  congrArg Token.openers.any (funext fun text => isText_congr hkind htext text)

theorem closes_congr {t t' : Token} (hkind : t'.kind = t.kind) (htext : t'.text = t.text) :
    t'.closes = t.closes :=
  congrArg Token.closers.any (funext fun text => isText_congr hkind htext text)

/-- If the brackets of all tokens can be paired, so can those of the ones that stay. -/
theorem Thins.pairFrom (h : o.Thins i tokens) {partner partner' : Array (Option Nat)}
    {opened opened' : List (Nat × Token)} {paired : Array (Option Nat)}
    (hopened : List.Forall₂ (fun e e' => e'.2.text = e.2.text) opened opened')
    (hpair : Outline.pairFrom partner opened i (o.tokens.toList.drop i) = .ok paired) (i' : Nat) :
    ∃ paired', Outline.pairFrom partner' opened' i' tokens = .ok paired' := by
  induction h generalizing partner partner' opened opened' i' with
  | done =>
    rw [List.drop_eq_nil_of_le (by rw [Array.length_toList]; exact Nat.le_refl _)] at hpair
    cases hopened with
    | nil => exact ⟨partner', rfl⟩
    | cons => simp [Outline.pairFrom] at hpair
  | @drop i tokens hi hspared _ ih =>
    obtain ⟨hopens, hcloses⟩ := passes_of_not_isSpared hspared
    rw [opens_eq hi] at hopens
    rw [closes_eq hi] at hcloses
    rw [drop_eq_cons hi] at hpair
    unfold Outline.pairFrom at hpair
    rw [hopens, hcloses] at hpair
    exact ih hopened hpair i'
  | @keep i t tokens hi _ hkind htext _ ih =>
    rw [drop_eq_cons hi] at hpair
    unfold Outline.pairFrom at hpair ⊢
    rw [opens_congr hkind htext, closes_congr hkind htext]
    split at hpair
    case isTrue hopens =>
      have hopened : List.Forall₂ (fun e e' : Nat × Token => e'.2.text = e.2.text)
          ((i, o.token i) :: opened) ((i', t) :: opened') := .cons htext hopened
      rw [if_pos hopens]
      exact ih hopened hpair _
    rename_i hopens
    rw [if_neg hopens]
    split at hpair
    case isFalse hcloses =>
      rw [if_neg hcloses]
      exact ih hopened hpair _
    rename_i hcloses
    rw [if_pos hcloses]
    cases hopened with
    | nil => simp at hpair
    | @cons e e' opened opened' he hopened =>
      -- both are closed by the same bracket
      simp only at hpair ⊢
      rw [htext, he]
      split at hpair
      case isTrue hcloser =>
        rw [if_pos hcloser]
        exact ih hopened hpair _
      case isFalse => simp at hpair

/-- **The tokens that stay** have an outline. -/
theorem exists_thinned (ho : ofTokens o.tokens.toList = .ok o) (h : o.Thins 0 tokens) :
    ∃ o', ofTokens tokens = .ok o' := by
  obtain ⟨paired, hpair, _⟩ := bind_ok ho
  obtain ⟨paired', hpair'⟩ := h.pairFrom .nil hpair 0
  exact ⟨⟨tokens.toArray, paired'⟩, by rw [ofTokens, hpair']; rfl⟩

theorem Thins.of_drop (h : o.Thins i tokens) (hi : i < o.size) (hspared : o.isSpared i = false) :
    o.Thins (i + 1) tokens := by
  cases h with
  | done => exact absurd hi (Nat.lt_irrefl _)
  | drop _ _ h => exact h
  | keep _ hkept => simp [hspared] at hkept

theorem Thins.of_keep (h : o.Thins i tokens) (hi : i < o.size) (hspared : o.isSpared i = true) :
    ∃ t rest, tokens = t :: rest ∧ t.kind = (o.token i).kind ∧ t.text = (o.token i).text ∧
      o.Thins (i + 1) rest := by
  cases h with
  | done => exact absurd hi (Nat.lt_irrefl _)
  | drop _ hleft => simp [hspared] at hleft
  | keep _ _ hkind htext h => exact ⟨_, _, rfl, hkind, htext, h⟩

/-! ### Indices that stand for each other -/

/-- Two indices show the same token, in kind and text. -/
def Alike (o o' : Outline) (i i' : Nat) : Prop :=
  ∃ t t', o.tokens[i]? = some t ∧ o'.tokens[i']? = some t' ∧ t'.kind = t.kind ∧ t'.text = t.text

namespace Alike

theorem is (h : o.Alike o' i i') (text : Bytes) : o'.is i' text = o.is i text := by
  obtain ⟨t, t', ht, ht', hkind, htext⟩ := h
  simp only [Outline.is, ht, ht', Option.any_some, isText_congr hkind htext]

theorem isWord (h : o.Alike o' i i') : o'.isWord i' = o.isWord i := by
  obtain ⟨t, t', ht, ht', hkind, htext⟩ := h
  simp only [Outline.isWord, ht, ht', Option.any_some, hkind]

theorem isString (h : o.Alike o' i i') : o'.isString i' = o.isString i := by
  obtain ⟨t, t', ht, ht', hkind, htext⟩ := h
  simp only [Outline.isString, ht, ht', Option.any_some, hkind]

theorem isSpelled (h : o.Alike o' i i') : o'.isSpelled i' = o.isSpelled i := by
  rw [Outline.isSpelled, Outline.isSpelled, h.isWord, h.isString]

theorem isBindable (h : o.Alike o' i i') : o'.isBindable i' = o.isBindable i := by
  obtain ⟨t, t', ht, ht', hkind, htext⟩ := h
  simp only [Outline.isBindable, ht, ht', Option.any_some, hkind, htext]

theorem opens (h : o.Alike o' i i') : o'.opens i' = o.opens i := by
  obtain ⟨t, t', ht, ht', hkind, htext⟩ := h
  simp only [Outline.opens, ht, ht', Option.any_some, opens_congr hkind htext]

theorem closes (h : o.Alike o' i i') : o'.closes i' = o.closes i := by
  obtain ⟨t, t', ht, ht', hkind, htext⟩ := h
  simp only [Outline.closes, ht, ht', Option.any_some, closes_congr hkind htext]

/-- The depth changes alike. -/
theorem depth_succ (h : o.Alike o' i i') (hdepth : o'.depth i' = o.depth i) :
    o'.depth (i' + 1) = o.depth (i + 1) := by
  rw [depth, depth, h.opens, h.closes, hdepth]

end Alike

/-- The tokens from an index on, without those that are left out, are the tokens of the other
outline from an index on, and are as deep. -/
structure Keeps (o o' : Outline) (i i' : Nat) : Prop where
  thins : o.Thins i (o'.tokens.toList.drop i')
  depth : o'.depth i' = o.depth i

namespace Keeps

theorem start (h : o.Thins 0 o'.tokens.toList) : o.Keeps o' 0 0 := ⟨h, rfl⟩

/-- A token that is left out is passed. -/
theorem skip (h : o.Keeps o' i i') (hi : i < o.size) (hspared : o.isSpared i = false) :
    o.Keeps o' (i + 1) i' := by
  obtain ⟨hthins, hdepth⟩ := h
  obtain ⟨hopens, hcloses⟩ := passes_of_not_isSpared hspared
  exact ⟨hthins.of_drop hi hspared, hdepth.trans (Outline.depth_succ hopens hcloses).symm⟩

/-- A token that stays is shown by both outlines. -/
theorem keep (h : o.Keeps o' i i') (hi : i < o.size) (hspared : o.isSpared i = true) :
    o.Alike o' i i' ∧ o.Keeps o' (i + 1) (i' + 1) := by
  obtain ⟨t, rest, hrest, hkind, htext, hthins⟩ := h.thins.of_keep hi hspared
  have hget : o'.tokens[i']? = some t := by
    have := congrArg List.head? hrest
    rwa [List.head?_drop, Array.getElem?_toList] at this
  have halike : o.Alike o' i i' := ⟨_, t, getElem_eq_token hi, hget, hkind, htext⟩
  have hnext := congrArg List.tail hrest
  rw [List.tail_drop] at hnext
  refine ⟨halike, ?_, halike.depth_succ h.depth⟩
  rw [hnext]
  exact hthins

theorem lt_size (h : o.Keeps o' i i') (hi' : i' < o'.size) : i < o.size := by
  have hrest := drop_eq_cons hi'
  have hthins := h.thins
  rw [hrest] at hthins
  cases hthins with
  | drop hi => exact hi
  | keep hi => exact hi

/-- The next token that stays. -/
theorem settle (h : o.Keeps o' i i') (hi' : i' < o'.size) : ∃ j < o.size, i ≤ j ∧
    o.isSpared j = true ∧ o.Keeps o' j i' ∧ ∀ k, i ≤ k → k < j → o.isSpared k = false := by
  induction hn : o.size - i generalizing i with
  | zero =>
    have := h.lt_size hi'
    omega
  | succ n ih =>
    have hi := h.lt_size hi'
    by_cases hspared : o.isSpared i = true
    · exact ⟨i, hi, Nat.le_refl i, hspared, h, fun k hk hlt => absurd hlt (Nat.not_lt.mpr hk)⟩
    · have hleft : o.isSpared i = false := by simpa using hspared
      obtain ⟨j, hj, hij, hstays, hkeeps, hothers⟩ := ih (h.skip hi hleft) (by omega)
      refine ⟨j, hj, by omega, hstays, hkeeps, fun k hk hlt => ?_⟩
      rcases Nat.eq_or_lt_of_le hk with rfl | hk
      · exact hleft
      · exact hothers k hk hlt

/-- Where every token stays, the indices run alike. -/
theorem window (h : o.Keeps o' i i') (hn : i + n ≤ o.size)
    (hspared : ∀ k, i ≤ k → k < i + n → o.isSpared k = true) : o.Keeps o' (i + n) (i' + n) := by
  induction n with
  | zero => exact h
  | succ n ih =>
    have hkeeps := ih (by omega) fun k hk hlt => hspared k hk (by omega)
    exact (hkeeps.keep (by omega) (hspared (i + n) (by omega) (by omega))).2

end Keeps

/-- **Every index** of the outline without the words stands for a token that stays; if the
one before it stays too, both stand next to each other. -/
theorem exists_keeps (h : o.Thins 0 o'.tokens.toList) (hi' : i' < o'.size) :
    ∃ i < o.size, o.isSpared i = true ∧ o.Keeps o' i i' ∧
      (0 < i → o.isSpared (i - 1) = true → 0 < i' ∧ o.Keeps o' (i - 1) (i' - 1)) := by
  induction i' with
  | zero =>
    obtain ⟨j, hj, _, hspared, hkeeps, hothers⟩ := (Keeps.start h).settle hi'
    refine ⟨j, hj, hspared, hkeeps, fun hpos hbefore => ?_⟩
    rw [hothers (j - 1) (Nat.zero_le _) (by omega)] at hbefore
    cases hbefore
  | succ i' ih =>
    obtain ⟨i, hi, hspared, hkeeps, _⟩ := ih (by omega)
    obtain ⟨j, hj, hij, hspared', hkeeps', hothers⟩ :=
      (hkeeps.keep hi hspared).2.settle hi'
    refine ⟨j, hj, hspared', hkeeps', fun _ hbefore => ⟨Nat.succ_pos _, ?_⟩⟩
    -- the token before it stays only if it is the last one that did
    rcases Nat.eq_or_lt_of_le hij with rfl | hlt
    · exact hkeeps
    · rw [hothers (j - 1) (by omega) (by omega)] at hbefore
      cases hbefore

/-- **No `debugger`** is left. -/
theorem isDebugger_thinned (h : o.Thins 0 o'.tokens.toList) (i' : Nat) :
    o'.isDebugger i' = false := by
  rw [Bool.eq_false_iff]
  intro hdebugger
  obtain ⟨hword, hfirst⟩ := Bool.and_eq_true_iff.mp hdebugger
  obtain ⟨i, hi, hspared, hkeeps, hbefore⟩ := exists_keeps h (lt_of_is hword)
  -- the word stays only behind a dot, which stays too
  rw [(hkeeps.keep hi hspared).1.is] at hword
  have hdot := isDebugger_of_isSpared hspared
  rw [isDebugger, hword, Bool.true_and, Bool.not_eq_false', followsDot, Bool.and_eq_true,
    decide_eq_true_eq] at hdot
  obtain ⟨hpos, hdot⟩ := hdot
  have hspared' : o.isSpared (i - 1) = true := by
    have hdebugger : o.isDebugger (i - 1) = false := by
      simp [isDebugger, is_eq_false hdot (show Bytes.ofString "." ≠ "debugger" by decide)]
    have htrails : o.trails (i - 1) = false := by
      simp [trails, is_eq_false hdot (show Bytes.ofString "." ≠ ";" by decide)]
    rw [isSpared_eq, hdebugger, htrails]
    rfl
  obtain ⟨hpos', hkeeps'⟩ := hbefore hpos hspared'
  have hdot' := hdot
  rw [← (hkeeps'.keep (lt_of_is hdot) hspared').1.is] at hdot'
  simp [followsDot, hpos', hdot'] at hfirst

end Outline

end ScriptLint
