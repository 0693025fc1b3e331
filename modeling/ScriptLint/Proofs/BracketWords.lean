/-
Brackets as words of a grammar.

The brackets of a token sequence form a word.  They can be paired exactly if it is one of the
grammar of well-nested brackets, each side of a kind with the other side of the same kind.
What can be said of the tokens read so far is which brackets they leave open, and that the
others are paired around words of the grammar; so a bracket that cannot be paired is the first
one that no open bracket allows, or the innermost one left open at the end.

* **`Dyck`** — the grammar of well-nested brackets;
* **`Token.LeavesOpen`** — which brackets a token sequence leaves open;
* **`Outline.Paired`** — what pairing has done so far, kept by every step
  (`Outline.Paired.run`);
* **`Outline.ofTokens_pairs`** — which token sequences have outlines, what the partners in
  them are, and which bracket is to blame otherwise.
-/
import Mathlib.Data.List.Forall2
import ScriptLint.Proofs.Nesting

namespace ScriptLint

/-! ### Words of brackets -/

/-- The kinds of brackets. -/
inductive Bracket.Kind where
  | round | square | curly
  deriving DecidableEq, Repr

/-- One side of a bracket. -/
inductive Bracket where
  | opening (kind : Bracket.Kind)
  | closing (kind : Bracket.Kind)
  deriving DecidableEq, Repr

namespace Bracket

/-- How a side of a bracket is written. -/
def text : Bracket → Bytes
  | .opening .round => "("
  | .opening .square => "["
  | .opening .curly => "\x7b"
  | .closing .round => ")"
  | .closing .square => "]"
  | .closing .curly => "\x7d"

/-- All sides of brackets. -/
def all : List Bracket :=
  [.opening .round, .opening .square, .opening .curly, .closing .round, .closing .square,
    .closing .curly]

theorem mem_all (b : Bracket) : b ∈ all := by
  rcases b with kind | kind <;> cases kind <;> decide

theorem text_injective {a b : Bracket} (h : a.text = b.text) : a = b := by
  have hall : ∀ a ∈ all, ∀ b ∈ all, a.text = b.text → a = b := by decide
  exact hall a (mem_all a) b (mem_all b) h

end Bracket

/-- **Words of well-nested brackets**: nothing, or a bracket around such a word, before
another one. -/
inductive Dyck : List Bracket → Prop
  | nil : Dyck []
  | wrap {kind : Bracket.Kind} {inner rest : List Bracket} : Dyck inner → Dyck rest →
      Dyck (.opening kind :: (inner ++ .closing kind :: rest))

theorem Dyck.append {a b : List Bracket} (ha : Dyck a) (hb : Dyck b) : Dyck (a ++ b) := by
  induction ha with
  | nil => exact hb
  | @wrap kind inner rest hinner _ _ ih =>
    have happend : .opening kind :: (inner ++ .closing kind :: rest) ++ b =
        .opening kind :: (inner ++ .closing kind :: (rest ++ b)) := by simp
    rw [happend]
    exact .wrap hinner ih

namespace Token

/-- The side of a bracket that a token is. -/
def bracket? (t : Token) : Option Bracket := Bracket.all.find? fun b => t.isText b.text

/-- The brackets among tokens. -/
def brackets (tokens : List Token) : List Bracket := tokens.filterMap bracket?

variable {t o c : Token} {tokens before after within : List Token} {b : Bracket}
  {kind kind' : Bracket.Kind}

theorem isText_iff {text : Bytes} :
    t.isText text = true ↔ (t.kind = .word ∨ t.kind = .mark) ∧ t.text = text := by
  simp [isText]

theorem isText_of_bracket (h : t.bracket? = some b) : t.isText b.text = true := by
  rw [bracket?, List.find?_eq_some_iff_append] at h
  exact h.1

theorem bracket?_eq_some : t.bracket? = some b ↔ t.isText b.text = true := by
  refine ⟨isText_of_bracket, fun h => ?_⟩
  cases hfind : t.bracket? with
  | none => exact absurd h (List.find?_eq_none.mp hfind b (Bracket.mem_all b))
  | some a =>
    have ha := (isText_iff.mp (isText_of_bracket hfind)).2
    exact congrArg some (Bracket.text_injective (ha.symm.trans (isText_iff.mp h).2))

/-- The text of a bracket. -/
theorem text_of_bracket (h : t.bracket? = some b) : t.text = b.text :=
  (isText_iff.mp (bracket?_eq_some.mp h)).2

theorem opens_iff_bracket : t.opens = true ↔ ∃ kind, t.bracket? = some (.opening kind) := by
  simp only [bracket?_eq_some, opens, openers, List.any_cons, List.any_nil, Bool.or_eq_true,
    Bool.or_false]
  constructor
  · rintro (h | h | h)
    · exact ⟨.round, h⟩
    · exact ⟨.square, h⟩
    · exact ⟨.curly, h⟩
  · rintro ⟨_ | _ | _, h⟩
    · exact .inl h
    · exact .inr (.inl h)
    · exact .inr (.inr h)

theorem closes_iff_bracket : t.closes = true ↔ ∃ kind, t.bracket? = some (.closing kind) := by
  simp only [bracket?_eq_some, closes, closers, List.any_cons, List.any_nil, Bool.or_eq_true,
    Bool.or_false]
  constructor
  · rintro (h | h | h)
    · exact ⟨.round, h⟩
    · exact ⟨.square, h⟩
    · exact ⟨.curly, h⟩
  · rintro ⟨_ | _ | _, h⟩
    · exact .inl h
    · exact .inr (.inl h)
    · exact .inr (.inr h)

/-- A token is a bracket that opens, one that closes, or no bracket. -/
theorem bracket_cases (t : Token) : (∃ kind, t.bracket? = some (.opening kind)) ∨
    (∃ kind, t.bracket? = some (.closing kind)) ∨ t.bracket? = none := by
  rcases h : t.bracket? with _ | (kind | kind)
  · exact .inr (.inr rfl)
  · exact .inl ⟨kind, rfl⟩
  · exact .inr (.inl ⟨kind, rfl⟩)

theorem opens_eq_false_of_bracket (h : ∀ kind, t.bracket? ≠ some (.opening kind)) :
    t.opens = false := by
  rw [Bool.eq_false_iff, ne_eq, opens_iff_bracket]
  exact fun ⟨kind, hkind⟩ => h kind hkind

theorem closes_eq_false_of_bracket (h : ∀ kind, t.bracket? ≠ some (.closing kind)) :
    t.closes = false := by
  rw [Bool.eq_false_iff, ne_eq, closes_iff_bracket]
  exact fun ⟨kind, hkind⟩ => h kind hkind

/-- The closing side of a bracket is written as the opening side wants it. -/
theorem text_eq_closerOf_iff (ho : o.bracket? = some (.opening kind))
    (hc : c.bracket? = some (.closing kind')) :
    c.text = [closerOf (o.text.headD 0)] ↔ kind' = kind := by
  rw [text_of_bracket ho, text_of_bracket hc]
  cases kind <;> cases kind' <;> decide

/-- Tokens of a scan are brackets only as marks. -/
theorem mark_of_bracket {place : Nat × Nat} {text : Bytes} (h : t.StandsAt text place)
    (hb : t.bracket? = some b) : t.kind = .mark := by
  have hisText := isText_iff.mp (bracket?_eq_some.mp hb)
  refine hisText.1.resolve_left fun hword => ?_
  have hstart := h.word hword
  have hmark : ∀ b ∈ Bracket.all, b.text.head?.any isWordStart = false := by decide
  rw [hisText.2, hmark b (Bracket.mem_all b)] at hstart
  cases hstart

@[simp] theorem brackets_append : brackets (before ++ after) = brackets before ++ brackets after :=
  List.filterMap_append

theorem brackets_cons_some (h : t.bracket? = some b) :
    brackets (t :: tokens) = b :: brackets tokens :=
  List.filterMap_cons_some h

theorem brackets_cons_none (h : t.bracket? = none) : brackets (t :: tokens) = brackets tokens :=
  List.filterMap_cons_none h

/-! ### Brackets left open -/

/-- The tokens leave brackets open, listed with their indices and the innermost first: behind
each of them, and before the first one, the brackets are well nested. -/
inductive LeavesOpen : List Token → List (Nat × Token) → Prop
  | nested {tokens : List Token} : Dyck (brackets tokens) → LeavesOpen tokens []
  | opened {before within : List Token} {opened : List (Nat × Token)} {o : Token}
      {kind : Bracket.Kind} : LeavesOpen before opened → o.bracket? = some (.opening kind) →
      Dyck (brackets within) →
      LeavesOpen (before ++ o :: within) ((before.length, o) :: opened)

variable {opened : List (Nat × Token)} {j : Nat}

namespace LeavesOpen

/-- An open bracket stands among the tokens. -/
theorem lt_length (h : LeavesOpen tokens opened) : ∀ e ∈ opened, e.1 < tokens.length := by
  induction h with
  | nested => simp
  | @opened before within opened o kind _ _ _ ih =>
    refine List.forall_mem_cons.mpr ⟨by simp, fun e he => ?_⟩
    have := ih e he
    rw [List.length_append]
    omega

/-- Open brackets stand before the ones inside of them. -/
theorem lt_of_mem (h : LeavesOpen tokens ((j, o) :: opened)) : ∀ e ∈ opened, e.1 < j := by
  cases h with
  | opened h _ _ => exact h.lt_length

/-- Behind well-nested brackets the same ones are open. -/
theorem append (h : LeavesOpen tokens opened) (hafter : Dyck (brackets after)) :
    LeavesOpen (tokens ++ after) opened := by
  cases h with
  | nested h => exact .nested (by simpa using h.append hafter)
  | opened h ho hwithin =>
    rw [List.append_assoc, List.cons_append]
    exact .opened h ho (by simpa using hwithin.append hafter)

theorem pass (h : LeavesOpen tokens opened) (ht : t.bracket? = none) :
    LeavesOpen (tokens ++ [t]) opened :=
  h.append (by rw [brackets_cons_none ht]; exact .nil)

theorem push (h : LeavesOpen tokens opened) (ht : t.bracket? = some (.opening kind)) :
    LeavesOpen (tokens ++ [t]) ((tokens.length, t) :: opened) :=
  .opened h ht .nil

/-- The bracket closed by a token, and what stands between the two. -/
theorem pop (h : LeavesOpen tokens ((j, o) :: opened)) (ho : o.bracket? = some (.opening kind))
    (ht : t.bracket? = some (.closing kind)) : LeavesOpen (tokens ++ [t]) opened := by
  cases h with
  | @opened before within _ _ _ h _ hwithin =>
    rw [List.append_assoc, List.cons_append]
    refine h.append ?_
    rw [brackets_cons_some ho, brackets_append, brackets_cons_some ht]
    exact .wrap hwithin .nil

/-- Tokens that leave no bracket open are well nested. -/
theorem dyck (h : LeavesOpen tokens []) : Dyck (brackets tokens) := by
  cases h with
  | nested h => exact h

theorem opening (h : LeavesOpen tokens ((j, o) :: opened)) :
    ∃ kind, o.bracket? = some (.opening kind) := by
  cases h with
  | opened _ ho _ => exact ⟨_, ho⟩

end LeavesOpen

/-- The bracket to blame for tokens that are not well nested: the first one that closes what
is not open, or what the innermost open bracket does not want closed; and otherwise, at the
end, the innermost one that is open. -/
inductive Blames (tokens : List Token) : Failure → Prop
  | unexpected {before after : List Token} {t : Token} {kind : Bracket.Kind} :
      tokens = before ++ t :: after → LeavesOpen before [] →
      t.bracket? = some (.closing kind) → Blames tokens ⟨.unexpected t.text, t.span⟩
  | mismatched {before after : List Token} {opened : List (Nat × Token)} {j : Nat} {o t : Token}
      {kind kind' : Bracket.Kind} :
      tokens = before ++ t :: after → LeavesOpen before ((j, o) :: opened) →
      o.bracket? = some (.opening kind) → t.bracket? = some (.closing kind') → kind' ≠ kind →
      Blames tokens ⟨.mismatched (t.text.headD 0) (closerOf (o.text.headD 0)), t.span⟩
  | unclosed {opened : List (Nat × Token)} {j : Nat} {o : Token} :
      LeavesOpen tokens ((j, o) :: opened) → Blames tokens ⟨.unclosed o.text, o.span⟩

end Token

namespace Outline

open Token (brackets LeavesOpen Blames)

variable {partner partner' : Array (Option Nat)} {opened : List (Nat × Token)}
  {tokens before rest within : List Token} {t o : Token} {f : Failure} {a b i j : Nat}
  {kind kind' : Bracket.Kind}

/-! ### Steps of the pairing -/

theorem pairFrom_skip (ht : t.bracket? = none) :
    pairFrom partner opened i (t :: rest) = pairFrom partner opened (i + 1) rest :=
  pairFrom_pass (Token.opens_eq_false_of_bracket (by simp [ht]))
    (Token.closes_eq_false_of_bracket (by simp [ht]))

theorem pairFrom_push (ht : t.bracket? = some (.opening kind)) :
    pairFrom partner opened i (t :: rest) = pairFrom partner ((i, t) :: opened) (i + 1) rest := by
  have hopens : t.opens = true := Token.opens_iff_bracket.mpr ⟨kind, ht⟩
  cases opened <;> simp [pairFrom, hopens]

theorem pairFrom_closing (ht : t.bracket? = some (.closing kind)) :
    pairFrom partner opened i (t :: rest) =
      match opened with
      | [] => .error ⟨.unexpected t.text, t.span⟩
      | (j, o) :: opened =>
        if t.text = [closerOf (o.text.headD 0)] then
          pairFrom ((partner.setIfInBounds j (some i)).setIfInBounds i (some j)) opened (i + 1) rest
        else .error ⟨.mismatched (t.text.headD 0) (closerOf (o.text.headD 0)), t.span⟩ := by
  have hopens : t.opens = false := Token.opens_eq_false_of_bracket (by simp [ht])
  have hcloses : t.closes = true := Token.closes_iff_bracket.mpr ⟨kind, ht⟩
  cases opened <;> simp [pairFrom, hopens, hcloses]

theorem pairFrom_pop (ho : o.bracket? = some (.opening kind))
    (ht : t.bracket? = some (.closing kind)) :
    pairFrom partner ((j, o) :: opened) i (t :: rest) =
      pairFrom ((partner.setIfInBounds j (some i)).setIfInBounds i (some j)) opened (i + 1)
        rest := by
  rw [pairFrom_closing ht]
  exact if_pos ((Token.text_eq_closerOf_iff ho ht).mpr rfl)

/-- Tokens without brackets are passed. -/
theorem pairFrom_passes (h : ∀ t ∈ within, t.bracket? = none) :
    pairFrom partner opened i (within ++ rest) =
      pairFrom partner opened (i + within.length) rest := by
  induction within generalizing i with
  | nil => rfl
  | cons t within ih =>
    obtain ⟨ht, hwithin⟩ := List.forall_mem_cons.mp h
    rw [List.cons_append, pairFrom_skip ht, ih hwithin, List.length_cons, Nat.add_right_comm,
      Nat.add_assoc]

/-- **Well-nested brackets** are passed, whatever is open before them. -/
theorem pairFrom_dyck {word : List Bracket} (hword : Dyck word) (h : brackets within = word)
    (partner : Array (Option Nat)) (opened : List (Nat × Token)) (i : Nat) (rest : List Token) :
    ∃ partner', pairFrom partner opened i (within ++ rest) =
      pairFrom partner' opened (i + within.length) rest := by
  induction hword generalizing within partner opened i rest with
  | nil => exact ⟨partner, pairFrom_passes (List.filterMap_eq_nil_iff.mp h)⟩
  | wrap hinner hafter ihinner ihafter =>
    -- the tokens before the bracket, the bracket, and the tokens in it and behind it
    obtain ⟨plain, o, after, rfl, hplain, ho, h⟩ := List.filterMap_eq_cons_iff.mp h
    obtain ⟨inner, after, rfl, hinside, h⟩ := List.filterMap_eq_append_iff.mp h
    obtain ⟨plain', c, after, rfl, hplain', hc, h⟩ := List.filterMap_eq_cons_iff.mp h
    obtain ⟨first, hfirst⟩ := ihinner hinside partner ((i + plain.length, o) :: opened)
      (i + plain.length + 1) (plain' ++ c :: (after ++ rest))
    obtain ⟨second, hsecond⟩ := ihafter h
      ((first.setIfInBounds (i + plain.length)
        (some (i + plain.length + 1 + inner.length + plain'.length))).setIfInBounds
        (i + plain.length + 1 + inner.length + plain'.length) (some (i + plain.length)))
      opened (i + plain.length + 1 + inner.length + plain'.length + 1) rest
    refine ⟨second, ?_⟩
    simp only [List.append_assoc, List.cons_append]
    rw [pairFrom_passes hplain, pairFrom_push ho, hfirst, pairFrom_passes hplain',
      pairFrom_pop ho hc, hsecond]
    congr 1
    simp only [List.length_append, List.length_cons]
    omega

/-- So are tokens that leave brackets open. -/
theorem pairFrom_leavesOpen (h : LeavesOpen before opened) (partner : Array (Option Nat))
    (rest : List Token) : ∃ partner', pairFrom partner [] 0 (before ++ rest) =
      pairFrom partner' opened before.length rest := by
  induction h generalizing rest with
  | nested h => simpa using pairFrom_dyck h rfl partner [] 0 rest
  | @opened before within opened o kind _ ho hwithin ih =>
    obtain ⟨first, hfirst⟩ := ih (o :: (within ++ rest))
    obtain ⟨second, hsecond⟩ := pairFrom_dyck hwithin rfl first ((before.length, o) :: opened)
      (before.length + 1) rest
    refine ⟨second, ?_⟩
    rw [List.append_assoc, List.cons_append, hfirst, pairFrom_push ho, hsecond]
    congr 1
    simp only [List.length_append, List.length_cons]
    omega

/-- Whatever pairing comes to is the outline. -/
theorem ofTokens_eq (tokens : List Token) : ofTokens tokens =
    (pairFrom (Array.replicate tokens.length none) [] 0 tokens).map fun partner =>
      ⟨tokens.toArray, partner⟩ := by
  rw [ofTokens]
  cases pairFrom (Array.replicate tokens.length none) [] 0 tokens <;> rfl

theorem exists_outline_of_dyck (h : Dyck (brackets tokens)) : ∃ o, ofTokens tokens = .ok o := by
  obtain ⟨partner, hpartner⟩ := pairFrom_dyck h rfl (Array.replicate tokens.length none) [] 0 []
  rw [List.append_nil] at hpartner
  exact ⟨⟨tokens.toArray, partner⟩, by rw [ofTokens_eq, hpartner]; rfl⟩

theorem error_of_blames (h : Blames tokens f) : ofTokens tokens = .error f := by
  rw [ofTokens_eq]
  cases h with
  | unexpected heq hleaves ht =>
    obtain ⟨partner, hpartner⟩ := pairFrom_leavesOpen hleaves
      (Array.replicate tokens.length none) (_ :: _)
    rw [heq] at hpartner ⊢
    rw [hpartner, pairFrom_closing ht]
    rfl
  | mismatched heq hleaves ho ht hne =>
    obtain ⟨partner, hpartner⟩ := pairFrom_leavesOpen hleaves
      (Array.replicate tokens.length none) (_ :: _)
    rw [heq] at hpartner ⊢
    rw [hpartner, pairFrom_closing ht]
    simp only [Token.text_eq_closerOf_iff ho ht, hne, if_false]
    rfl
  | unclosed hleaves =>
    obtain ⟨partner, hpartner⟩ := pairFrom_leavesOpen hleaves
      (Array.replicate tokens.length none) []
    rw [List.append_nil] at hpartner
    rw [hpartner]
    rfl

/-! ### What pairing has done -/

/-- The index is paired with another one. -/
def Pairs (partner : Array (Option Nat)) (a b : Nat) : Prop := partner[a]? = some (some b)

/-- The tokens at two indices are the two sides of a bracket around well-nested ones. -/
def Bracketed (tokens : List Token) (a b : Nat) : Prop :=
  ∃ (before within after : List Token) (o c : Token) (kind : Bracket.Kind),
    tokens = before ++ o :: (within ++ c :: after) ∧
      a = before.length ∧ b = before.length + 1 + within.length ∧
      o.bracket? = some (.opening kind) ∧ c.bracket? = some (.closing kind) ∧
      Dyck (brackets within)

theorem Bracketed.lt (h : Bracketed tokens a b) : a < b ∧ b < tokens.length := by
  obtain ⟨before, within, after, o, c, kind, rfl, rfl, rfl, _⟩ := h
  simp only [List.length_append, List.length_cons]
  omega

theorem Bracketed.snoc (h : Bracketed tokens a b) (t : Token) : Bracketed (tokens ++ [t]) a b := by
  obtain ⟨before, within, after, o, c, kind, rfl, ha, hb, hgroup⟩ := h
  exact ⟨before, within, after ++ [t], o, c, kind, by simp, ha, hb, hgroup⟩

/-- The tokens at the ends of a group are brackets. -/
theorem Bracketed.bracket (h : Bracketed tokens a b) :
    (∃ t, tokens[a]? = some t ∧ t.bracket? ≠ none) ∧
      ∃ t, tokens[b]? = some t ∧ t.bracket? ≠ none := by
  obtain ⟨before, within, after, o, c, kind, rfl, rfl, rfl, ho, hc, _⟩ := h
  refine ⟨⟨o, by simp, by simp [ho]⟩, ⟨c, ?_, by simp [hc]⟩⟩
  rw [List.getElem?_append_right (by omega),
    show before.length + 1 + within.length - before.length = within.length + 1 by omega,
    List.getElem?_cons_succ, List.getElem?_append_right (Nat.le_refl _)]
  simp

/-- While brackets are paired: those that are not open are partners of each other around
well-nested ones, the groups lie apart or one inside another, and none of them reaches over an
open bracket. -/
structure Paired (before : List Token) (partner : Array (Option Nat))
    (opened : List (Nat × Token)) : Prop where
  leaves : LeavesOpen before opened
  group : ∀ a b, Pairs partner a b → a < b → Bracketed before a b
  symm : ∀ a b, Pairs partner a b → a ≠ b ∧ Pairs partner b a
  nested : ∀ a b c d, Pairs partner a b → Pairs partner c d → a < b → c < d → a < c →
    b < c ∨ d < b
  fresh : ∀ e ∈ opened, ∀ b, ¬ Pairs partner e.1 b
  clear : ∀ e ∈ opened, ∀ a b, Pairs partner a b → a < b → b < e.1 ∨ e.1 < a
  known : ∀ i t, before[i]? = some t → t.bracket? ≠ none →
    i ∈ opened.map Prod.fst ∨ ∃ b, Pairs partner i b

namespace Paired

theorem start (n : Nat) : Paired [] (Array.replicate n none) [] := by
  have hnone (a b : Nat) : ¬ Pairs (Array.replicate n none) a b := by
    simp [Pairs, Array.getElem?_replicate]
  exact ⟨.nested .nil, fun a b h => absurd h (hnone a b), fun a b h => absurd h (hnone a b),
    fun a b _ _ h => absurd h (hnone a b), by simp, by simp, by simp⟩

/-- Partners stand among the tokens that are read. -/
theorem lt_length (h : Paired before partner opened) (hab : Pairs partner a b) :
    a < before.length ∧ b < before.length := by
  obtain ⟨hne, hba⟩ := h.symm a b hab
  rcases Nat.lt_or_gt_of_ne hne with hlt | hlt
  · have := (h.group a b hab hlt).lt
    omega
  · have := (h.group b a hba hlt).lt
    omega

/-- What is known of the tokens read, when one more is read that is no new partner. -/
theorem known_snoc (h : Paired before partner opened) {opened' : List (Nat × Token)}
    (hsub : opened.map Prod.fst ⊆ opened'.map Prod.fst)
    (ht : t.bracket? ≠ none → before.length ∈ opened'.map Prod.fst) :
    ∀ i t', (before ++ [t])[i]? = some t' → t'.bracket? ≠ none →
      i ∈ opened'.map Prod.fst ∨ ∃ b, Pairs partner i b := by
  intro i t' hi hbracket
  rcases Nat.lt_or_ge i before.length with hlt | hge
  · rw [List.getElem?_append_left hlt] at hi
    exact (h.known i t' hi hbracket).imp_left (@hsub i)
  · rw [List.getElem?_append_right hge, List.getElem?_singleton] at hi
    split at hi
    case isTrue hzero =>
      obtain rfl := Option.some.inj hi
      obtain rfl : i = before.length := by omega
      exact .inl (ht hbracket)
    case isFalse => cases hi

theorem pass (h : Paired before partner opened) (ht : t.bracket? = none) :
    Paired (before ++ [t]) partner opened :=
  ⟨h.leaves.pass ht, fun a b hab hlt => (h.group a b hab hlt).snoc t, h.symm, h.nested, h.fresh,
    h.clear, h.known_snoc (fun _ h => h) (absurd ht)⟩

theorem push (h : Paired before partner opened) (ht : t.bracket? = some (.opening kind)) :
    Paired (before ++ [t]) partner ((before.length, t) :: opened) := by
  refine ⟨h.leaves.push ht, fun a b hab hlt => (h.group a b hab hlt).snoc t, h.symm, h.nested,
    List.forall_mem_cons.mpr ⟨fun b hb => ?_, h.fresh⟩,
    List.forall_mem_cons.mpr ⟨fun a b hab _ => .inl (h.lt_length hab).2, h.clear⟩,
    h.known_snoc (by simp) (by simp)⟩
  exact absurd (h.lt_length hb).1 (Nat.lt_irrefl _)

/-- Which indices are partners after two more are joined. -/
theorem pairs_join (hj : j < partner.size) (hi : i < partner.size) (hne : j ≠ i) :
    Pairs ((partner.setIfInBounds j (some i)).setIfInBounds i (some j)) a b ↔
      (a = j ∧ b = i) ∨ (a = i ∧ b = j) ∨ (a ≠ j ∧ a ≠ i ∧ Pairs partner a b) := by
  simp only [Pairs, Array.getElem?_setIfInBounds, Array.size_setIfInBounds, hj, hi, if_true]
  by_cases hai : i = a
  · subst hai
    simp [hne.symm, eq_comm]
  · by_cases haj : j = a
    · subst haj
      simp [hai, Ne.symm hai, eq_comm]
    · simp [hai, haj, Ne.symm hai, Ne.symm haj]

theorem pop (h : Paired before partner ((j, o) :: opened)) (hsize : before.length < partner.size)
    (ho : o.bracket? = some (.opening kind)) (ht : t.bracket? = some (.closing kind)) :
    Paired (before ++ [t])
      ((partner.setIfInBounds j (some before.length)).setIfInBounds before.length (some j))
      opened := by
  have hj : j < before.length := h.leaves.lt_length (j, o) List.mem_cons_self
  have hfresh (b : Nat) : ¬ Pairs partner j b := h.fresh (j, o) List.mem_cons_self b
  have hclear (a b : Nat) := h.clear (j, o) List.mem_cons_self a b
  have hjoin (a b : Nat) := pairs_join (a := a) (b := b) (Nat.lt_trans hj hsize) hsize
    (Nat.ne_of_lt hj)
  have hbelow := h.leaves.lt_of_mem
  -- the new group is the open bracket, what stands behind it, and the token
  have hgroup : Bracketed (before ++ [t]) j before.length := by
    cases h.leaves with
    | @opened front within _ _ _ _ _ hwithin =>
      refine ⟨front, within, [], o, t, kind, by simp, rfl, ?_, ho, ht, hwithin⟩
      simp only [List.length_append, List.length_cons]
      omega
  refine ⟨h.leaves.pop ho ht, ?group, ?symm, ?laminar, ?fresh, ?clear, ?known⟩
  case group =>
    intro a b hab hlt
    rcases (hjoin a b).mp hab with ⟨rfl, rfl⟩ | ⟨rfl, rfl⟩ | ⟨_, _, hab⟩
    · exact hgroup
    · omega
    · exact (h.group a b hab hlt).snoc t
  case symm =>
    intro a b hab
    rcases (hjoin a b).mp hab with ⟨rfl, rfl⟩ | ⟨rfl, rfl⟩ | ⟨_, _, hab⟩
    · exact ⟨Nat.ne_of_lt hj, (hjoin _ _).mpr (.inr (.inl ⟨rfl, rfl⟩))⟩
    · exact ⟨Nat.ne_of_gt hj, (hjoin _ _).mpr (.inl ⟨rfl, rfl⟩)⟩
    · obtain ⟨hne, hba⟩ := h.symm a b hab
      refine ⟨hne, (hjoin b a).mpr (.inr (.inr ⟨?_, Nat.ne_of_lt (h.lt_length hab).2, hba⟩))⟩
      rintro rfl
      exact hfresh a hba
  case laminar =>
    intro a b c d hab hcd hlt hlt' hac
    rcases (hjoin a b).mp hab with ⟨rfl, rfl⟩ | ⟨rfl, rfl⟩ | ⟨_, _, hab⟩
    · -- what begins inside of the new group was read before it ends
      rcases (hjoin c d).mp hcd with ⟨rfl, rfl⟩ | ⟨rfl, rfl⟩ | ⟨_, _, hcd⟩
      · omega
      · omega
      · exact .inr (h.lt_length hcd).2
    · omega
    · rcases (hjoin c d).mp hcd with ⟨hc, _⟩ | ⟨hc, hd⟩ | ⟨_, _, hcd⟩
      · have := hclear a b hab hlt
        omega
      · omega
      · exact h.nested a b c d hab hcd hlt hlt' hac
  case fresh =>
    intro e he b hb
    have := hbelow e he
    rcases (hjoin e.1 b).mp hb with ⟨heq, _⟩ | ⟨heq, _⟩ | ⟨_, _, hb⟩
    · omega
    · omega
    · exact h.fresh e (List.mem_cons_of_mem _ he) b hb
  case clear =>
    intro e he a b hab hlt
    have := hbelow e he
    rcases (hjoin a b).mp hab with ⟨rfl, rfl⟩ | ⟨rfl, rfl⟩ | ⟨_, _, hab⟩
    · exact .inr this
    · omega
    · exact h.clear e (List.mem_cons_of_mem _ he) a b hab hlt
  case known =>
    intro i t' hi hbracket
    by_cases hij : i = j
    · exact .inr ⟨_, (hjoin i _).mpr (.inl ⟨hij, rfl⟩)⟩
    by_cases hilast : i = before.length
    · exact .inr ⟨_, (hjoin i _).mpr (.inr (.inl ⟨hilast, rfl⟩))⟩
    have hlt : i < before.length := by
      have := (List.getElem?_eq_some_iff.mp hi).1
      rw [List.length_append, List.length_singleton] at this
      omega
    rw [List.getElem?_append_left hlt] at hi
    rcases h.known i t' hi hbracket with hmem | ⟨b, hb⟩
    · exact .inl ((List.mem_cons.mp hmem).resolve_left hij)
    · exact .inr ⟨b, (hjoin i b).mpr (.inr (.inr ⟨hij, hilast, hb⟩))⟩

/-- **Pairing the rest of the tokens** leaves nothing open, or ends at the bracket to blame. -/
theorem run (h : Paired before partner opened) (rest : List Token)
    (hsize : before.length + rest.length = partner.size) :
    match pairFrom partner opened before.length rest with
    | .ok partner' => Paired (before ++ rest) partner' [] ∧ partner'.size = partner.size
    | .error f => Blames (before ++ rest) f := by
  induction rest generalizing before partner opened with
  | nil =>
    rw [List.append_nil]
    cases opened with
    | nil => exact ⟨h, rfl⟩
    | cons e opened => exact .unclosed h.leaves
  | cons t rest ih =>
    have hnext : (before ++ [t]).length + rest.length = partner.size := by
      simp only [List.length_append, List.length_cons, List.length_nil] at hsize ⊢
      omega
    have hlength : (before ++ [t]).length = before.length + 1 := by simp
    have happend : before ++ t :: rest = before ++ [t] ++ rest := by simp
    rcases t.bracket_cases with ⟨kind, ht⟩ | ⟨kind, ht⟩ | ht
    · rw [pairFrom_push ht, happend, ← hlength]
      exact ih (h.push ht) hnext
    · cases opened with
      | nil =>
        rw [pairFrom_closing ht]
        exact .unexpected rfl h.leaves ht
      | cons e opened =>
        obtain ⟨kind', ho⟩ := h.leaves.opening
        by_cases hkind : kind = kind'
        · subst hkind
          have hlt : before.length < partner.size := by
            rw [← hsize, List.length_cons]
            omega
          have hpop := ih (h.pop hlt ho ht) (by simpa using hnext)
          rw [pairFrom_pop ho ht, happend, ← hlength]
          simpa using hpop
        · rw [pairFrom_closing ht]
          simp only [Token.text_eq_closerOf_iff ho ht, hkind, if_false]
          exact .mismatched rfl h.leaves ho ht hkind
    · rw [pairFrom_skip ht, happend, ← hlength]
      exact ih (h.pass ht) hnext

end Paired

/-! ### Outlines -/

/-- The partners in an outline of the tokens: each bracket has one, which has it in turn and
stands at the other end of a group; the groups are nested, and nothing else has a partner. -/
structure Matched (tokens : List Token) (o : Outline) : Prop where
  tokens_eq : o.tokens = tokens.toArray
  size_partner : o.partner.size = tokens.length
  iff_bracket : ∀ i t, tokens[i]? = some t → ((∃ b, Pairs o.partner i b) ↔ t.bracket? ≠ none)
  symm : ∀ a b, Pairs o.partner a b → a ≠ b ∧ Pairs o.partner b a
  group : ∀ a b, Pairs o.partner a b → a < b → Bracketed tokens a b
  nested : ∀ a b c d, Pairs o.partner a b → Pairs o.partner c d → a < b → c < d → a < c →
    b < c ∨ d < b

/-- Partners are brackets. -/
theorem Paired.bracket (h : Paired before partner opened) (hab : Pairs partner a b) :
    ∃ t, before[a]? = some t ∧ t.bracket? ≠ none := by
  obtain ⟨hne, hba⟩ := h.symm a b hab
  rcases Nat.lt_or_gt_of_ne hne with hlt | hlt
  · exact (h.group a b hab hlt).bracket.1
  · exact (h.group b a hba hlt).bracket.2

/-- Once nothing is open, the partners are those of an outline. -/
theorem Paired.matched (h : Paired tokens partner []) (hsize : partner.size = tokens.length) :
    Matched tokens ⟨tokens.toArray, partner⟩ := by
  refine ⟨rfl, hsize, ?_, h.symm, h.group, h.nested⟩
  intro i t ht
  constructor
  · rintro ⟨b, hb⟩
    obtain ⟨t', ht', hbracket⟩ := h.bracket hb
    obtain rfl := Option.some.inj (ht'.symm.trans ht)
    exact hbracket
  · intro hbracket
    exact (h.known i t ht hbracket).resolve_left (by simp)

/-- What becomes of the tokens: an outline whose partners match, for well-nested ones, or a
fault at the bracket to blame. -/
theorem ofTokens_cases (tokens : List Token) :
    (∃ o, ofTokens tokens = .ok o ∧ Dyck (brackets tokens) ∧ Matched tokens o) ∨
      ∃ f, ofTokens tokens = .error f ∧ Blames tokens f := by
  have hrun := (Paired.start tokens.length).run tokens (by simp)
  rw [List.length_nil, List.nil_append] at hrun
  rw [ofTokens_eq]
  cases hpair : pairFrom (Array.replicate tokens.length none) [] 0 tokens with
  | error f =>
    rw [hpair] at hrun
    exact .inr ⟨f, rfl, hrun⟩
  | ok partner =>
    rw [hpair] at hrun
    obtain ⟨hpaired, hsize⟩ := hrun
    rw [Array.size_replicate] at hsize
    exact .inl ⟨_, rfl, hpaired.leaves.dyck, hpaired.matched hsize⟩

/-- **Which token sequences have outlines.**  There is an outline exactly if the brackets are
well nested, and then each of them is matched with the other side of its group and nothing
else is.  Otherwise the fault is at the bracket to blame.  In the tokens of a text the brackets
are marks. -/
theorem ofTokens_pairs (tokens : List Token) :
    ((∃ o, ofTokens tokens = .ok o) ↔ Dyck (brackets tokens)) ∧
      (∀ o, ofTokens tokens = .ok o → Matched tokens o) ∧
      (∀ f, ofTokens tokens = .error f ↔ Blames tokens f) ∧
      ∀ elements text, Token.scan elements text = .ok tokens →
        ∀ t ∈ tokens, ∀ b, t.bracket? = some b ↔ t.kind = .mark ∧ t.text = b.text := by
  refine ⟨⟨?nested, exists_outline_of_dyck⟩, ?matched, fun f => ⟨?blamed, error_of_blames⟩,
    ?marks⟩
  case nested =>
    rintro ⟨o, ho⟩
    rcases ofTokens_cases tokens with ⟨_, _, hdyck, _⟩ | ⟨f, hf, _⟩
    · exact hdyck
    · rw [ho] at hf
      cases hf
  case matched =>
    intro o ho
    rcases ofTokens_cases tokens with ⟨o', ho', _, hmatched⟩ | ⟨f, hf, _⟩
    · obtain rfl := Except.ok.inj (ho'.symm.trans ho)
      exact hmatched
    · rw [ho] at hf
      cases hf
  case blamed =>
    intro hf
    rcases ofTokens_cases tokens with ⟨o, ho, _⟩ | ⟨f', hf', hblames⟩
    · rw [hf] at ho
      cases ho
    · obtain rfl := Except.error.inj (hf'.symm.trans hf)
      exact hblames
  case marks =>
    intro elements text hscan t ht b
    obtain ⟨places, hplaces, _⟩ := Token.scan_placed hscan
    obtain ⟨hsize, hstands⟩ := List.forall₂_iff_get.mp hplaces
    obtain ⟨k, hk, rfl⟩ := List.mem_iff_getElem.mp ht
    have hplace := hstands k (hsize ▸ hk) hk
    constructor
    · intro hb
      exact ⟨Token.mark_of_bracket hplace hb, Token.text_of_bracket hb⟩
    · rintro ⟨hkind, htext⟩
      exact Token.bracket?_eq_some.mpr (Token.isText_iff.mpr ⟨.inr hkind, htext⟩)

end Outline

end ScriptLint
