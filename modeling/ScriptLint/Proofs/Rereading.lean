/-
Statements without the `debugger` words.

Only imports and exports can be malformed.  If no `debugger` stands in one of them, those of
the outline without the words can be read, and so can all its statements:

* **`Outline.KeepsClauses`** — no `debugger` stands in an import or export;
* **`Outline.exists_body_thinned`** — then the statements can be read without the words.
-/
import ScriptLint.Proofs.Surviving

namespace ScriptLint

namespace Outline

section

variable (o : Outline)

/-- No `debugger` stands among the tokens from `start` up to `stop`. -/
def isFree (start stop : Nat) : Bool := (indices start stop).all fun k => !o.isDebugger k

/-- If an import or export may begin at the index, it can be read, and no `debugger` stands
among the tokens that decide how. -/
def keepsClause (i : Nat) : Bool :=
  if o.is i "import" && !o.is (i + 1) "(" && !o.is (i + 1) "." then
    (o.importing i).toOption.any fun read => o.isFree (i + 1) read.2
  else if o.is i "export" then
    (o.exporting i).toOption.any fun read =>
      o.isFree (i + 1) (if o.listsNames i then read.2 else i + 3)
  else true

/-- No `debugger` stands in an import or export. -/
def KeepsClauses : Prop := ∀ i < o.size, o.depth i = 0 → o.keepsClause i = true

instance : Decidable o.KeepsClauses :=
  inferInstanceAs (Decidable (∀ i < o.size, o.depth i = 0 → o.keepsClause i = true))

end

variable {o o' : Outline} {i i' k stop : Nat}

/-! ### Tokens around one that stays -/

theorem isFree_iff {start : Nat} :
    o.isFree start stop = true ↔ ∀ k, start ≤ k → k < stop → o.isDebugger k = false := by
  simp only [isFree, List.all_eq_true, Guarded.mem_indices, Bool.not_eq_true', and_imp]

/-- Behind a token that stays all tokens do where no `debugger` is among them. -/
theorem isSpared_of_isFree (hspared : o.isSpared i = true) (hfree : o.isFree (i + 1) stop = true)
    (hik : i ≤ k) (hk : k < stop) : o.isSpared k = true := by
  have hfree := isFree_iff.mp hfree
  rcases Nat.eq_or_lt_of_le hik with rfl | hlt
  · exact hspared
  have hbefore : o.isDebugger (k - 1) = false := by
    rcases Nat.eq_or_lt_of_le (Nat.le_sub_one_of_lt hlt) with heq | hlt
    · exact heq ▸ isDebugger_of_isSpared hspared
    · exact hfree (k - 1) hlt (by omega)
  simp [isSpared_eq, trails, hfree k hlt hk, hbefore]

namespace Keeps

variable {text : Bytes}

/-- What is neither a `debugger` nor a semicolon is shown by the other outline. -/
theorem is_of_is (h : o.Keeps o' i i') (hi : o.is i text = true)
    (hne : text ∉ [Bytes.ofString "debugger", ";"]) : o'.is i' text = true := by
  simp only [List.mem_cons, List.not_mem_nil, or_false, not_or] at hne
  have hspared : o.isSpared i = true := by
    simp [isSpared_eq, isDebugger, trails, is_eq_false hi hne.1, is_eq_false hi hne.2]
  rw [(h.keep (lt_of_is hi) hspared).1.is, hi]

/-- What the other outline shows is the token itself, if that stays. -/
theorem is_of_is' (h : o.Keeps o' i i') (hi' : o'.is i' text = true)
    (hspared : o.isSpared i = true) : o.is i text = true := by
  rw [← (h.keep (h.lt_size (lt_of_is hi')) hspared).1.is, hi']

end Keeps

theorem listsNames_iff : o.listsNames i = true ↔
    ∃ d, (d = 1 ∨ d = 2 ∧ o.is (i + 1) "type" = true) ∧
      (o.is (i + d) "*" = true ∨ o.is (i + d) "\x7b" = true) := by
  refine ⟨exists_of_listsNames, ?_⟩
  rintro ⟨d, rfl | ⟨rfl, htype⟩, hmark⟩
  · simp only [listsNames, Bool.or_eq_true]
    exact .inl hmark
  · simp only [listsNames, Bool.or_eq_true, Bool.and_eq_true]
    exact .inr ⟨htype, hmark.symm⟩

/-- No list comes about where none was. -/
theorem listsNames_thinned (h : o.Keeps o' i i') (hi : i < o.size)
    (hspared : ∀ k, i ≤ k → k < i + 3 → o.isSpared k = true) (h' : o'.listsNames i' = true) :
    o.listsNames i = true := by
  have hnext := (h.keep hi (hspared i (Nat.le_refl i) (by omega))).2
  have hfirst := hspared (i + 1) (by omega) (by omega)
  obtain ⟨d, rfl | ⟨rfl, htype⟩, hmark⟩ := listsNames_iff.mp h'
  · exact listsNames_iff.mpr ⟨1, .inl rfl, hmark.imp (hnext.is_of_is' · hfirst)
      (hnext.is_of_is' · hfirst)⟩
  · have htype := hnext.is_of_is' htype hfirst
    have hnext := (hnext.keep (lt_of_is htype) hfirst).2
    have hsecond := hspared (i + 2) (by omega) (by omega)
    exact listsNames_iff.mpr ⟨2, .inr ⟨rfl, htype⟩, hmark.imp (hnext.is_of_is' · hsecond)
      (hnext.is_of_is' · hsecond)⟩

/-! ### Statements -/

/-- An import of the outline without the words. -/
theorem exists_importing_thinned (h : o.Keeps o' i i') (ho : o.Regular) (ho' : o'.Nested)
    (htop : o.AtTop i) (hspared : o.isSpared i = true) (himport : o.is i "import" = true)
    (hclause : (o.importing i).toOption.any (fun read => o.isFree (i + 1) read.2) = true) :
    ∃ read, o'.importing i' = .ok read := by
  cases hs : o.importing i with
  | error =>
    rw [hs] at hclause
    cases hclause
  | ok read =>
    rw [hs] at hclause
    have hreach := (covers_importing ho htop himport hs).reach
    have hsize := (covers_importing ho htop himport hs).top.le
    have hshows : o.Shows o' i i' (read.2 - i) := h.shows (by omega) fun k hik hk =>
      isSpared_of_isFree hspared hclause hik (by omega)
    exact hshows.importing ho ho' htop himport hs (by omega)

/-- An export of the outline without the words. -/
theorem exists_exporting_thinned (h : o.Keeps o' i i') (ho : o.Regular) (ho' : o'.Nested)
    (htop : o.AtTop i) (hspared : o.isSpared i = true) (hexport : o.is i "export" = true)
    (hclause : (o.exporting i).toOption.any (fun read =>
      o.isFree (i + 1) (if o.listsNames i then read.2 else i + 3)) = true) :
    ∃ read, o'.exporting i' = .ok read := by
  by_cases hlists : o.listsNames i = true
  case neg =>
    refine exists_exporting (Bool.eq_false_iff.mpr fun hlists' => hlists ?_)
    refine listsNames_thinned h (lt_of_is hexport) (fun k hik hk => ?_) hlists'
    obtain ⟨read, _, hfree⟩ := (Option.any_eq_true _ _).mp hclause
    rw [if_neg hlists] at hfree
    exact isSpared_of_isFree hspared hfree hik hk
  cases hs : o.exporting i with
  | error =>
    rw [hs] at hclause
    cases hclause
  | ok read =>
    simp only [hs, if_pos hlists] at hclause
    have hreach := (covers_exporting ho htop hexport hs).reach
    have hsize := (covers_exporting ho htop hexport hs).top.le
    have hshows : o.Shows o' i i' (read.2 - i) := h.shows (by omega) fun k hik hk =>
      isSpared_of_isFree hspared hclause hik (by omega)
    exact hshows.exporting ho ho' hlists hs (by omega)

/-- Every statement that begins outside of brackets can be read without the words. -/
theorem exists_statement_thinned (h : o.Thins 0 o'.tokens.toList) (ho : o.Regular) (ho' : o'.Regular)
    (hclauses : o.KeepsClauses) (htop' : o'.AtTop i') (hi' : i' < o'.size) :
    ∃ read, o'.statement i' = .ok read := by
  obtain ⟨i, hi, hspared, hkeeps, _⟩ := exists_keeps h hi'
  obtain ⟨halike, hnext⟩ := hkeeps.keep hi hspared
  have htop : o.AtTop i := ⟨Nat.le_of_lt hi, hkeeps.depth.symm.trans htop'.depth⟩
  have hclause := hclauses i hi htop.depth
  unfold statement
  split
  case isTrue himport' =>
    -- what would make it no import would stay
    have himport : (o.is i "import" && !o.is (i + 1) "(" && !o.is (i + 1) ".") = true := by
      simp only [Bool.and_eq_true, Bool.not_eq_true', Bool.eq_false_iff] at himport' ⊢
      obtain ⟨⟨hword, hparen⟩, hdot⟩ := himport'
      exact ⟨⟨halike.is _ ▸ hword, fun h => hparen (hnext.is_of_is h (by decide))⟩,
        fun h => hdot (hnext.is_of_is h (by decide))⟩
    rw [keepsClause, if_pos himport] at hclause
    simp only [Bool.and_eq_true] at himport
    obtain ⟨read, hread⟩ :=
      exists_importing_thinned hkeeps ho ho'.nested htop hspared himport.1.1 hclause
    rw [hread]
    exact ⟨_, rfl⟩
  case isFalse =>
    split
    case isTrue hexport' =>
      have hexport : o.is i "export" = true := halike.is _ ▸ hexport'
      have himport : o.is i "import" = false := is_eq_false hexport (by decide)
      rw [keepsClause, himport] at hclause
      simp only [Bool.false_and, Bool.false_eq_true, if_false, if_pos hexport] at hclause
      obtain ⟨read, hread⟩ :=
        exists_exporting_thinned hkeeps ho ho'.nested htop hspared hexport hclause
      rw [hread]
      exact ⟨_, rfl⟩
    case isFalse =>
      split
      · exact ⟨_, rfl⟩
      · exact ⟨_, rfl⟩

/-- The statements from an index on. -/
theorem exists_bodyFrom_thinned (h : o.Thins 0 o'.tokens.toList) (ho : o.Regular) (ho' : o'.Regular)
    (hclauses : o.KeepsClauses) (htop' : o'.AtTop i') :
    ∃ body, o'.bodyFrom i' = .ok body := by
  fun_induction bodyFrom o' i' with
  | case1 i' hi' hmark ih => exact ih (htop'.mark ho'.nested hmark (by decide))
  | case2 i' hi' hmark ih =>
    obtain ⟨⟨statements, stop⟩, hread⟩ := exists_statement_thinned h ho ho' hclauses htop' hi'
    obtain ⟨_, _, _, hcovers, _⟩ := covers_statement ho' htop' hi' hread
    have hnext := ih stop
    rw [Nat.max_eq_left hcovers.reach] at hnext
    obtain ⟨rest, hrest⟩ := hnext hcovers.top
    refine ⟨statements ++ rest, ?_⟩
    simp only [hread, bind, Except.bind, Nat.max_eq_left hcovers.reach, hrest]
    rfl
  | case3 i' hi' => exact ⟨[], rfl⟩

/-- **The statements** can be read without the `debugger` words. -/
theorem exists_body_thinned (h : o.Thins 0 o'.tokens.toList) (ho : o.Regular) (ho' : o'.Regular)
    (hclauses : o.KeepsClauses) : ∃ body, o'.body = .ok body :=
  exists_bodyFrom_thinned h ho ho' hclauses (.start o')

end Outline

end ScriptLint
