/-
Lexemes and the text behind them.

How far a lexeme reaches is decided within its own bytes, or by the byte behind it: a word, a
number and a regular expression must not be continued, and a slash or a dot must not become
part of a longer mark.  So the text behind a lexeme can be exchanged for another one, if that
begins alike where it matters.

* **`Exchange`** — the text behind a lexeme can take the place of another one;
* **`Piece.first_exchange`** — the same lexeme is read with either;
* **`Piece.head_of_open`** — what follows a word, a number or a regular expression.
-/
import Mathlib.Data.List.Forall2
import ScriptLint.Proofs.ClauseTokens

namespace ScriptLint

variable {rest rest' : Bytes}

/-! ### Extents -/

theorem head?_append_congr (tail : Bytes) (h : rest'.head? = rest.head?) :
    (tail ++ rest').head? = (tail ++ rest).head? := by
  rw [List.head?_append, List.head?_append, h]

/-- A run of bytes that ends with some bytes ends with them before any text that begins
alike. -/
theorem takeWhile_exchange {p : UInt8 → Bool} {tail : Bytes}
    (h : ((tail ++ rest).takeWhile p).length = tail.length) (hhead : rest'.head? = rest.head?) :
    ((tail ++ rest').takeWhile p).length = tail.length := by
  induction tail with
  | nil =>
    cases rest with
    | nil =>
      cases rest' with
      | nil => rfl
      | cons => cases hhead
    | cons b rest =>
      cases rest' with
      | nil => cases hhead
      | cons c rest' =>
        obtain rfl : c = b := Option.some.inj hhead
        by_cases hc : p c = true
        · simp [hc] at h
        · simp [hc]
  | cons b tail ih =>
    by_cases hb : p b = true
    · simp only [List.cons_append, List.takeWhile_cons, hb, if_true, List.length_cons,
        Nat.add_right_cancel_iff] at h ⊢
      exact ih h
    · simp [hb] at h

theorem numberExtent_exchange {hex : Bool} {before : UInt8} {tail : Bytes}
    (h : numberExtent hex before (tail ++ rest) = tail.length)
    (hhead : rest'.head? = rest.head?) :
    numberExtent hex before (tail ++ rest') = tail.length := by
  induction tail generalizing before with
  | nil =>
    cases rest with
    | nil =>
      cases rest' with
      | nil => rfl
      | cons => cases hhead
    | cons b rest =>
      cases rest' with
      | nil => cases hhead
      | cons c rest' =>
        obtain rfl : c = b := Option.some.inj hhead
        simp only [List.nil_append, numberExtent, List.length_nil] at h ⊢
        split at h
        · omega
        · rename_i hpart
          split at h
          · omega
          · rename_i hsign
            rw [if_neg hpart, if_neg hsign]
  | cons b tail ih =>
    simp only [List.cons_append, numberExtent, List.length_cons] at h ⊢
    split at h
    · rename_i hpart
      rw [if_pos hpart, ih (by omega), Nat.add_comm]
    · rename_i hpart
      rw [if_neg hpart]
      split at h
      · rename_i hsign
        rw [if_pos hsign, ih (by omega), Nat.add_comm]
      · omega

/-- A string, a part of a template and a regular expression have an end. -/
theorem stringExtent_pos {quote : UInt8} {text : Bytes} {n : Nat}
    (h : stringExtent quote text = .ok n) : 0 < n := by
  fun_induction stringExtent quote text generalizing n <;> grind [past_ok]

theorem templateExtent_pos {text : Bytes} {n : Nat} {opens : Bool}
    (h : templateExtent text = some (n, opens)) : 0 < n := by
  fun_induction templateExtent text generalizing n with
  | case4 c rest _ =>
    obtain ⟨j, _, rfl⟩ := map_grown h
    omega
  | case7 b c rest _ _ _ _ =>
    obtain ⟨j, _, rfl⟩ := map_grown h
    omega
  | _ => simp_all <;> omega

theorem patternExtent_pos {bracketed : Bool} {text : Bytes} {n : Nat}
    (h : patternExtent bracketed text = .ok n) : 0 < n := by
  fun_induction patternExtent bracketed text generalizing n <;> grind [past_ok]

/-- The text behind a string does not matter. -/
theorem stringExtent_exchange {quote : UInt8} {tail : Bytes}
    (h : stringExtent quote (tail ++ rest) = .ok tail.length) :
    stringExtent quote (tail ++ rest') = .ok tail.length := by
  induction hn : tail.length using Nat.strongRecOn generalizing tail with
  | _ n ih =>
    rcases tail with _ | ⟨b, _ | ⟨c, tail⟩⟩
    · exact absurd (stringExtent_pos h) (Nat.lt_irrefl 0)
    · -- the one byte is the quote
      have hb : b ≠ '\\' ∧ b ≠ '\n' ∧ b = quote := by
        have hpast {c : UInt8} {more : Bytes} :
            past 1 (stringExtent quote (c :: more)) ≠ .ok 1 := by
          intro h
          obtain ⟨j, hj, hlength⟩ := past_ok h
          have := stringExtent_pos hj
          omega
        cases rest <;> grind [stringExtent, past_ok]
      subst hn
      cases rest' <;> simp [stringExtent, hb.1, hb.2.1, ← hb.2.2]
    · subst hn
      simp only [List.cons_append, stringExtent, List.length_cons] at h ⊢
      split at h
      · rename_i hback
        obtain ⟨j, hj, hlength⟩ := past_ok h
        obtain rfl : j = tail.length := by omega
        rw [if_pos hback, ih _ (by simp only [List.length_cons]; omega) hj rfl]
        rfl
      rename_i hback
      split at h
      · cases h
      rename_i hfeed
      split at h
      · cases h
      rename_i hquote
      obtain ⟨j, hj, hlength⟩ := past_ok h
      obtain rfl : j = tail.length + 1 := by omega
      rw [if_neg hback, if_neg hfeed, if_neg hquote]
      have hrest := @ih _ (by simp only [List.length_cons]; omega) (c :: tail) hj rfl
      rw [← List.cons_append, hrest]
      rfl

/-- The text behind a part of a template does not matter. -/
theorem templateExtent_exchange {tail : Bytes} {opens : Bool}
    (h : templateExtent (tail ++ rest) = some (tail.length, opens)) :
    templateExtent (tail ++ rest') = some (tail.length, opens) := by
  induction hn : tail.length using Nat.strongRecOn generalizing tail with
  | _ n ih =>
    rcases tail with _ | ⟨b, _ | ⟨c, tail⟩⟩
    · exact absurd (templateExtent_pos h) (Nat.lt_irrefl 0)
    · -- the one byte is the closing backtick
      obtain ⟨hb, rfl⟩ : b = 0x60 ∧ opens = false := by
        cases rest with
        | nil => simpa [templateExtent] using h
        | cons c rest =>
          simp only [List.cons_append, List.nil_append, templateExtent] at h
          split at h
          · obtain ⟨j, _, hlength⟩ := map_grown h
            simp at hlength
          split at h
          · rename_i hb
            simp only [Option.some.injEq, Prod.mk.injEq] at h
            exact ⟨hb, h.2.symm⟩
          split at h
          · simp at h
          · obtain ⟨j, hj, hlength⟩ := map_grown h
            have := templateExtent_pos hj
            simp only [List.length_cons, List.length_nil] at hlength
            omega
      subst hn hb
      cases rest' with
      | nil => rfl
      | cons c rest' =>
        rw [List.cons_append, List.nil_append, templateExtent, if_neg (by decide), if_pos rfl]
        rfl
    · subst hn
      simp only [List.cons_append, templateExtent, List.length_cons] at h ⊢
      split at h
      · rename_i hback
        obtain ⟨j, hj, hlength⟩ := map_grown h
        obtain rfl : j = tail.length := by omega
        rw [if_pos hback, ih _ (by simp only [List.length_cons]; omega) hj rfl]
        rfl
      rename_i hback
      split at h
      · simp at h
      rename_i htick
      split at h
      · rename_i hdollar
        simp only [Option.some.injEq, Prod.mk.injEq] at h
        rw [if_neg hback, if_neg htick, if_pos hdollar, ← h.2, h.1]
      rename_i hdollar
      obtain ⟨j, hj, hlength⟩ := map_grown h
      obtain rfl : j = tail.length + 1 := by omega
      rw [if_neg hback, if_neg htick, if_neg hdollar]
      have hrest := @ih _ (by simp only [List.length_cons]; omega) (c :: tail) hj rfl
      rw [← List.cons_append, hrest]
      rfl

/-- A regular expression ends with its flags, which must not be continued. -/
theorem patternExtent_exchange {bracketed : Bool} {tail : Bytes}
    (h : patternExtent bracketed (tail ++ rest) = .ok tail.length)
    (hhead : rest'.head? = rest.head?) :
    patternExtent bracketed (tail ++ rest') = .ok tail.length := by
  induction hn : tail.length using Nat.strongRecOn generalizing bracketed tail with
  | _ n ih =>
    subst hn
    cases tail with
    | nil => exact absurd (patternExtent_pos h) (Nat.lt_irrefl 0)
    | cons b tail =>
      have hnext {bracketed : Bool}
          (h : past 1 (patternExtent bracketed (tail ++ rest)) = .ok (tail.length + 1)) :
          past 1 (patternExtent bracketed (tail ++ rest')) = .ok (tail.length + 1) := by
        obtain ⟨j, hj, hlength⟩ := past_ok h
        obtain rfl : j = tail.length := by omega
        rw [ih tail.length (Nat.lt_succ_self _) hj rfl]
        rfl
      have hflags (h : 1 + ((tail ++ rest).takeWhile isWordPart).length = tail.length + 1) :
          1 + ((tail ++ rest').takeWhile isWordPart).length = tail.length + 1 := by
        rw [takeWhile_exchange (by omega) hhead, Nat.add_comm]
      -- the byte behind the first one is the same, or there is none
      cases hmore : tail ++ rest with
      | nil =>
        obtain ⟨rfl, rfl⟩ := List.append_eq_nil_iff.mp hmore
        obtain rfl : rest' = [] := List.head?_eq_none_iff.mp hhead
        exact h
      | cons c more =>
        obtain ⟨more', hmore'⟩ : ∃ more', tail ++ rest' = c :: more' := by
          rw [← List.head?_eq_some_iff, head?_append_congr tail hhead, hmore]
          rfl
        have hescaped (h : past 2 (patternExtent bracketed more) = .ok (tail.length + 1)) :
            past 2 (patternExtent bracketed more') = .ok (tail.length + 1) := by
          obtain ⟨j, hj, hlength⟩ := past_ok h
          cases tail with
          | nil => simp at hlength
          | cons c' tail =>
            obtain ⟨rfl, rfl⟩ := List.cons.inj hmore
            obtain ⟨-, rfl⟩ := List.cons.inj hmore'
            obtain rfl : j = tail.length := by simpa using hlength.symm
            have hrest : patternExtent bracketed (tail ++ rest') = .ok tail.length :=
              ih tail.length (by simp only [List.length_cons]; omega) hj rfl
            exact congrArg (past 2) hrest
        simp only [List.cons_append, hmore, hmore', patternExtent, List.length_cons]
          at h hnext hflags ⊢
        split_ifs at h ⊢ with hback hfeed hopen hclose hslash
        · exact hescaped h
        · exact hnext h
        · exact hnext h
        · exact congrArg _ (hflags (Except.ok.inj h))
        · exact hnext h

/-! ### Where open extents stop -/

theorem takeWhile_stops {p : UInt8 → Bool} {text : Bytes} {c : UInt8}
    (hc : c ∈ (text.drop (text.takeWhile p).length).head?) : p c = false := by
  induction text with
  | nil => cases hc
  | cons b text ih =>
    by_cases hb : p b = true
    · simp only [List.takeWhile_cons, hb, if_true, List.length_cons, List.drop_succ_cons] at hc
      exact ih hc
    · simp only [List.takeWhile_cons, hb, Bool.false_eq_true, if_false, List.length_nil,
        List.drop_zero, List.head?_cons, Option.mem_def, Option.some.injEq] at hc
      rw [← hc, Bool.eq_false_iff]
      exact hb

theorem numberExtent_stops {hex : Bool} {before c : UInt8} {text : Bytes}
    (hc : c ∈ (text.drop (numberExtent hex before text)).head?) : isWordPart c = false := by
  induction text generalizing before with
  | nil => cases hc
  | cons b text ih =>
    unfold numberExtent at hc
    split at hc
    · rw [Nat.add_comm, List.drop_succ_cons] at hc
      exact ih hc
    rename_i hpart
    split at hc
    · rw [Nat.add_comm, List.drop_succ_cons] at hc
      exact ih hc
    · obtain rfl : b = c := Option.some.inj hc
      simp only [Bool.or_eq_true, not_or, Bool.not_eq_true] at hpart
      exact hpart.1

theorem patternExtent_stops {bracketed : Bool} {c : UInt8} {text : Bytes} {n : Nat}
    (h : patternExtent bracketed text = .ok n) (hc : c ∈ (text.drop n).head?) :
    isWordPart c = false := by
  fun_induction patternExtent bracketed text generalizing n with
  | case3 bracketed b _ _ =>
    obtain rfl := Except.ok.inj h
    cases hc
  | case5 bracketed b rest ih | case7 bracketed b rest _ _ ih | case8 bracketed b rest _ _ _ ih
  | case10 bracketed a b rest _ _ _ _ _ ih =>
    obtain ⟨j, hj, rfl⟩ := past_ok h
    exact ih hj hc
  | case9 bracketed a b rest =>
    obtain rfl := Except.ok.inj h
    rw [Nat.add_comm, List.drop_succ_cons] at hc
    exact takeWhile_stops hc
  | _ => cases h

/-! ### Frames -/

/-- Frames of one kind: blocks, or substitutions of any template parts. -/
def Frame.Alike : Frame → Frame → Prop
  | .block, .block | .substitution _, .substitution _ => True
  | _, _ => False

/-- Open braces of the same kinds. -/
def FramesAlike : List Frame → List Frame → Prop := List.Forall₂ Frame.Alike

theorem FramesAlike.refl (frames : List Frame) : FramesAlike frames frames := by
  refine List.forall₂_same.mpr fun f _ => ?_
  cases f <;> trivial

theorem FramesAlike.symm {frames frames' : List Frame} (h : FramesAlike frames frames') :
    FramesAlike frames' frames := by
  refine List.Forall₂.flip (h.imp fun f f' hf => ?_)
  cases f <;> cases f' <;> exact hf

theorem FramesAlike.tail {frames frames' : List Frame} (h : FramesAlike frames frames') :
    FramesAlike frames.tail frames'.tail := by
  cases h with
  | nil => exact .nil
  | cons _ h => exact h

theorem FramesAlike.block {frames frames' : List Frame} (h : FramesAlike frames frames')
    (hblock : ∀ f ∈ frames, f = .block) : ∀ f ∈ frames', f = .block := by
  induction h with
  | nil => exact List.forall_mem_nil _
  | @cons f f' _ _ hf _ ih =>
    obtain ⟨rfl, hbelow⟩ := List.forall_mem_cons.mp hblock
    refine List.forall_mem_cons.mpr ⟨?_, ih hbelow⟩
    cases f' with
    | block => rfl
    | substitution _ => exact hf.elim

/-- A mark changes alike frames alike. -/
theorem FramesAlike.framesAfter {frames frames' : List Frame} (h : FramesAlike frames frames')
    (b : UInt8) : FramesAlike (framesAfter b frames) (framesAfter b frames') := by
  unfold ScriptLint.framesAfter
  split
  · exact .cons trivial h
  · split
    · exact h.tail
    · exact h

/-- A part of a template leaves alike frames alike, if it opens a substitution or not. -/
theorem FramesAlike.opened {frames frames' : List Frame} (h : FramesAlike frames frames')
    (opens : Bool) (pos pos' : Nat) :
    FramesAlike (if opens then .substitution pos :: frames else frames)
      (if opens then .substitution pos' :: frames' else frames') := by
  cases opens with
  | true => exact .cons trivial h
  | false => exact h

/-- A substitution is alike a substitution. -/
theorem FramesAlike.exists_substitution {part : Nat} {below frames' : List Frame}
    (h : FramesAlike (.substitution part :: below) frames') :
    ∃ part' below', frames' = .substitution part' :: below' ∧ FramesAlike below below' := by
  cases h with
  | @cons _ f' _ below' hf hbelow =>
    cases f' with
    | block => exact hf.elim
    | substitution part' => exact ⟨part', below', rfl, hbelow⟩

/-! ### Lexemes -/

/-- The text behind a lexeme can be exchanged: it begins alike, where what follows could
continue the lexeme or turn it into a longer one. -/
structure Exchange (kind : Token.Kind) (text rest rest' : Bytes) : Prop where
  head : kind ∈ [.word, .number, .pattern] ∨ text = ['/'] ∨ text = ['.'] → rest'.head? = rest.head?
  dots : text = ['.'] → Bytes.startsWith rest' ".." = Bytes.startsWith rest ".."

/-- The byte behind the first one of a lexeme. -/
theorem Exchange.head_tail {kind : Token.Kind} {b : UInt8} {tail : Bytes}
    (h : Exchange kind (b :: tail) rest rest') (hb : b = '/' ∨ b = '.') :
    (tail ++ rest').head? = (tail ++ rest).head? := by
  cases tail with
  | cons c tail => rfl
  | nil =>
    refine head?_append_congr [] (h.head (.inr ?_))
    rcases hb with rfl | rfl
    · exact .inl rfl
    · exact .inr rfl

/-- **The same lexeme is read** with another text behind it, after another token that decides
alike on a slash, and within alike frames. -/
theorem Piece.first_exchange {elements : Bool} {last last' : Option Token}
    {frames frames' after : List Frame} {pos : Nat} (pos' : Nat) {b : UInt8} {tail : Bytes}
    {kind : Token.Kind}
    (h : Piece.first elements last frames pos b (tail ++ rest) =
      .ok (.lexeme kind tail.length after))
    (hlast : b = '/' →
      last'.all (Token.allowsPattern elements) = last.all (Token.allowsPattern elements))
    (hframes : FramesAlike frames frames') (hrest : Exchange kind (b :: tail) rest rest') :
    ∃ after', Piece.first elements last' frames' pos' b (tail ++ rest') =
      .ok (.lexeme kind tail.length after') ∧ FramesAlike after after' := by
  generalize hn : tail.length = n at h
  cases lexes_of_first h with
  -- strings and templates end themselves
  | string hquote hextent =>
    subst hn
    exact ⟨_, (Lexes.string hquote (stringExtent_exchange hextent)).first, hframes⟩
  | @template _ opens htick hextent =>
    subst hn
    exact ⟨_, (Lexes.template htick (templateExtent_exchange hextent)).first,
      hframes.opened opens pos pos'⟩
  | @resumed _ _ opens _ hbrace hbelow hextent =>
    subst hn hbelow
    obtain ⟨part', below', rfl, hbelow⟩ := hframes.exists_substitution
    exact ⟨_, (Lexes.resumed hbrace rfl (templateExtent_exchange hextent)).first,
      hbelow.opened opens pos pos'⟩
  -- a word, a number and a regular expression must not be continued
  | word hword =>
    have hextent := takeWhile_exchange hn.symm (hrest.head (.inl (by decide)))
    rw [← hn, ← hextent]
    exact ⟨_, (Lexes.word hword).first, hframes⟩
  | number hnumber =>
    have hhead := hrest.head (.inl (by decide))
    have hextent := numberExtent_exchange hn.symm hhead
    rw [← head?_append_congr tail hhead] at hnumber hextent
    rw [← hn, ← hextent]
    exact ⟨_, (Lexes.number hnumber).first, hframes⟩
  | pattern hslash hline hblock hallows hextent =>
    subst hn
    have hhead := hrest.head (.inl (by decide))
    rw [← head?_append_congr tail hhead] at hline hblock
    rw [← hlast hslash] at hallows
    exact ⟨_, (Lexes.pattern hslash hline hblock hallows
      (patternExtent_exchange hextent hhead)).first, hframes⟩
  -- a mark must not become a longer one
  | dots hdot hstart =>
    obtain ⟨c, d, rfl⟩ := List.length_eq_two.mp hn
    have hstart' : Bytes.startsWith ([c, d] ++ rest') ".." = true := hstart
    exact ⟨_, (Lexes.dots hdot hstart').first, hframes⟩
  | mark hfeed hblank hquote htick hword hdigit hslash hdot hbrace =>
    obtain rfl := List.eq_nil_of_length_eq_zero hn
    refine ⟨_, (Lexes.mark hfeed hblank hquote htick hword hdigit (fun hb => ?_) (fun hb => ?_)
      fun hb part' below' heq => ?_).first, hframes.framesAfter b⟩
    · rw [hrest.head_tail (.inl hb), hlast hb]
      exact hslash hb
    · rw [hrest.head_tail (.inr hb)]
      subst hb
      exact ⟨(hdot rfl).1, (hrest.dots rfl).trans (hdot rfl).2⟩
    · rw [heq] at hframes
      obtain ⟨part, below, hopen, -⟩ := hframes.symm.exists_substitution
      exact hbrace hb part below hopen

/-- **Behind a word, a number or a regular expression** stands no byte that could belong to a
word. -/
theorem Piece.head_of_open {elements : Bool} {last : Option Token} {frames after : List Frame}
    {pos : Nat} {b c : UInt8} {tail : Bytes} {kind : Token.Kind}
    (h : Piece.first elements last frames pos b (tail ++ rest) =
      .ok (.lexeme kind tail.length after))
    (hkind : kind ∈ [.word, .number, .pattern]) (hc : c ∈ rest.head?) : isWordPart c = false := by
  generalize hn : tail.length = n at h
  rw [show rest = (tail ++ rest).drop n from hn ▸ List.drop_left.symm] at hc
  cases lexes_of_first h with
  | word => exact takeWhile_stops hc
  | number => exact numberExtent_stops hc
  | pattern _ _ _ _ hextent => exact patternExtent_stops hextent hc
  | string | template | resumed | dots | mark => exact absurd hkind (by decide)

end ScriptLint
