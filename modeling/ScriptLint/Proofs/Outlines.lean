/-
Places of tokens and ends of statements.

The tokens of a segment are pieces of its text, one behind the other, and its brackets are
paired.  No statement leaves off in the middle of a property access:

* **`Segment.placed_outline`** — the tokens of a segment have places in its text;
* **`Segment.lawful_outline`** — in a text that is not too long their spans say where;
* **`Outline.Fresh`** — a `debugger` at the index does not follow a dot;
* **`Outline.fresh_next`** — a statement leaves off at such an index.
-/
import Mathlib.Data.List.Forall2
import ScriptLint.Proofs.Nesting
import ScriptLint.Segment

namespace ScriptLint

namespace Outline

variable {o : Outline} {i j k : Nat}

/-! ### Outlines of texts -/

/-- A word begins as words do. -/
def Worded (o : Outline) : Prop :=
  ∀ i < o.size, (o.token i).kind = .word → (o.token i).text.head?.any isWordStart = true

/-- The tokens are pieces of the text at the given places, one behind the other. -/
structure Placed (o : Outline) (text : Bytes) (place : Nat → Nat × Nat) : Prop where
  stands : ∀ i < o.size, (o.token i).StandsAt text (place i)
  ordered : ∀ i j, i < j → j < o.size → (place i).2 ≤ (place j).1

/-- The outline of a text: its tokens stand in it, in order, and are well nested. -/
structure Lawful (o : Outline) (text : Bytes) : Prop where
  stands : ∀ i < o.size, (o.token i).Stands text
  ordered : ∀ i j, i < j → j < o.size → (o.token i).Precedes (o.token j)
  nested : o.Nested

theorem Placed.worded {text : Bytes} {place : Nat → Nat × Nat} (h : o.Placed text place) :
    o.Worded :=
  fun i hi => (h.stands i hi).word

theorem Lawful.worded {text : Bytes} (h : o.Lawful text) : o.Worded :=
  fun i hi => (h.stands i hi).word

end Outline

/-- The tokens of a segment with their brackets paired. -/
def Segment.outline (s : Segment) : Except Failure Outline := do
  let tokens ← Token.scan s.dialect.elements s.text
  Outline.ofTokens tokens

/-- The tokens of a segment have places in its text. -/
theorem Segment.placed_outline {o : Outline} {s : Segment} (h : s.outline = .ok o) :
    ∃ place, o.Placed s.text place := by
  obtain ⟨tokens, hscan, h⟩ := bind_ok h
  obtain ⟨places, hstands, hordered⟩ := Token.scan_placed hscan
  obtain ⟨hlength, hstands⟩ := List.forall₂_iff_get.mp hstands
  have hsize : o.size = tokens.length := by
    rw [Outline.size, Outline.tokens_ofTokens h, List.size_toArray]
  have htoken (i : Nat) (hi : i < tokens.length) : o.token i = tokens[i] := by
    simp [Outline.token, Outline.tokens_ofTokens h, hi]
  have hplace (i : Nat) (hi : i < places.length) : places[i]?.getD (0, 0) = places[i] := by
    simp [hi]
  refine ⟨fun i => places[i]?.getD (0, 0), fun i hi => ?_, fun i j hij hj => ?_⟩
  · have hi' : i < places.length := by omega
    rw [htoken i (hsize ▸ hi), hplace i hi']
    exact hstands i hi' (hsize ▸ hi)
  · have hj' : j < places.length := by omega
    simp only [hplace i (Nat.lt_trans hij hj'), hplace j hj']
    exact List.pairwise_iff_getElem.mp hordered i j _ hj' hij

/-- **The outline of a segment** is one of its text. -/
theorem Segment.lawful_outline {o : Outline} {s : Segment} (hlength : s.text.length < 2 ^ 32)
    (h : s.outline = .ok o) : o.Lawful s.text := by
  obtain ⟨place, hplace⟩ := placed_outline h
  obtain ⟨tokens, _, hnested⟩ := bind_ok h
  refine ⟨fun i hi => (hplace.stands i hi).stands hlength, fun i j hij hj => ?_,
    Outline.nested_ofTokens hnested⟩
  have hi := (hplace.stands i (Nat.lt_trans hij hj)).toNat_span hlength
  have hj' := (hplace.stands j hj).toNat_span hlength
  rw [Token.Precedes, hi.2, hj'.1]
  exact hplace.ordered i j hij hj

namespace Outline

variable {o : Outline} {i j k : Nat} {source : Bytes}

/-- Every token starts before any later one stops. -/
theorem Lawful.start_lt_stop (ho : o.Lawful source) (hij : i ≤ j) (hj : j < o.size) :
    (o.token i).span.start.toNat < (o.token j).span.stop.toNat := by
  have hnonempty := (ho.stands j hj).nonempty
  rcases Nat.eq_or_lt_of_le hij with rfl | hlt
  · exact hnonempty
  · have hfirst := (ho.stands i (Nat.lt_trans hlt hj)).nonempty
    have hordered := ho.ordered i j hlt hj
    simp only [Token.Precedes] at hordered
    omega

/-! ### Ends of statements -/

/-- A mark is no word. -/
theorem Worded.kind_of_is {mark : Bytes} (ho : o.Worded) (h : o.is i mark = true)
    (hmark : mark.head?.any isWordStart = false) : (o.token i).kind = .mark := by
  obtain ⟨t, ht, htext⟩ := is_iff.mp h
  have htoken : o.token i = t := by simp [token, ht]
  simp only [Token.isText, Bool.and_eq_true, Bool.or_eq_true, decide_eq_true_eq,
    beq_iff_eq] at htext
  rw [htoken]
  refine htext.1.resolve_left fun hword => ?_
  have hstart := ho i (lt_of_is h) (htoken ▸ hword)
  rw [htoken, htext.2, hmark] at hstart
  cases hstart

/-- No line breaks before a semicolon. -/
theorem breaksBefore_eq_false (ho : o.Worded) (h : o.is i ";" = true) :
    o.breaksBefore i = false := by
  simp [breaksBefore, Token.startsStatement, ho.kind_of_is h (by decide)]

/-- A `debugger` at the index does not follow a dot. -/
def Fresh (o : Outline) (i : Nat) : Prop := o.is i "debugger" = true → o.followsDot i = false

theorem fresh_of_before (h : o.is (i - 1) "." = false) : o.Fresh i := by
  intro _
  simp [followsDot, h]

theorem fresh_of_size_le (h : o.size ≤ i) : o.Fresh i := by
  intro hi
  exact absurd (lt_of_is hi) (Nat.not_lt.mpr h)

theorem fresh_of_closes (h : o.closes i = true) : o.Fresh i := by
  intro hi
  rw [is_eq_false_of_closes h (by decide)] at hi
  cases hi

/-- What follows a word or mark other than a dot. -/
theorem fresh_after {text : Bytes} (h : o.is i text = true) (hne : text ≠ ".") :
    o.Fresh (i + 1) :=
  fresh_of_before (is_eq_false h hne)

/-- What follows the end of an expression. -/
theorem fresh_of_breaksBefore (ho : o.Lawful source)
    (h : o.breaksBefore i = true) : o.Fresh i := by
  refine fresh_of_before ?_
  cases hdot : o.is (i - 1) "." with
  | false => rfl
  | true =>
    have hends : (o.token (i - 1)).endsExpression = true := by
      simp only [breaksBefore, Bool.and_eq_true] at h
      exact h.1.2
    simp only [Token.endsExpression, ho.worded.kind_of_is hdot (by decide), text_of_is hdot] at hends
    exact absurd hends (by decide)

/-- What follows a group. -/
theorem is_dot_afterGroup (ho : o.Lawful source) (h : o.opens k = true) :
    o.is (o.afterGroup k - 1) "." = false := by
  rw [ho.nested.afterGroup_eq h, Nat.add_sub_cancel]
  exact is_eq_false_of_closes (ho.nested.closes_partnerOf h) (by decide)

theorem fresh_statementEndFrom (ho : o.Lawful source) (start i : Nat) :
    o.Fresh (o.statementEndFrom start i) := by
  fun_induction statementEndFrom o start i with
  | case1 i hi hbreak =>
    exact fresh_of_breaksBefore ho (Bool.and_eq_true_iff.mp hbreak).2
  | case2 i hi hbreak hopens ih => exact ih
  | case3 i hi hbreak hopens hmark => exact fresh_after hmark (by decide)
  | case4 i hi hbreak hopens hmark hcloses => exact fresh_of_closes hcloses
  | case5 i hi hbreak hopens hmark hcloses ih => exact ih
  | case6 i hi => exact fresh_of_size_le (Nat.le_refl _)

/-- A statement reaches over the tokens where its end is looked for. -/
theorem le_statementEndFrom (start i : Nat) :
    min i o.size ≤ o.statementEndFrom start i := by
  fun_induction statementEndFrom o start i with
  | case2 i hi hbreak hopens ih =>
    have := o.lt_afterGroup i
    omega
  | _ => omega

theorem statementEndFrom_le (start i : Nat) : o.statementEndFrom start i ≤ o.size := by
  fun_induction statementEndFrom o start i <;> omega

/-- The end of a statement that begins with neither a bracket nor a semicolon is looked
for behind its first token. -/
theorem statementEnd_eq {text : Bytes} (h : o.is i text = true)
    (hne : text ∉ Bytes.ofString ";" :: (Token.openers ++ Token.closers)) :
    o.statementEnd i = o.statementEndFrom i (i + 1) := by
  simp only [List.mem_cons, List.mem_append, not_or] at hne
  rw [statementEnd, statementEndFrom]
  simp [lt_of_is h, opens_eq_false h hne.2.1, closes_eq_false h hne.2.2, is_eq_false h hne.1]

theorem fresh_functionEnd (ho : o.Lawful source) (k : Nat) : o.Fresh (o.functionEnd k) := by
  fun_induction functionEnd o k with
  | case1 k hk hbrace => exact fresh_of_before (is_dot_afterGroup ho (opens_of_brace hbrace))
  | case2 k hk hbrace hopens ih => exact ih
  | case3 k hk hbrace hopens hmark => exact fresh_after hmark (by decide)
  | case4 k hk hbrace hopens hmark ih => exact ih
  | case5 k hk => exact fresh_of_size_le (Nat.le_refl _)

theorem fresh_classEnd (ho : o.Lawful source) (k : Nat) : o.Fresh (o.classEnd k) := by
  fun_induction classEnd o k with
  | case1 k hk hbody =>
    simp only [opensClassBody, Bool.and_eq_true] at hbody
    exact fresh_of_before (is_dot_afterGroup ho (opens_of_brace hbody.1.1.1))
  | case2 k hk hbody hopens ih => exact ih
  | case3 k hk hbody hopens ih => exact ih
  | case4 k hk => exact fresh_of_size_le (Nat.le_refl _)

/-- What follows a semicolon that may be there. -/
theorem fresh_semicolon (h : o.is (j - 1) "." = false) :
    o.Fresh (if o.is j ";" then j + 1 else j) := by
  split
  case isTrue hmark => exact fresh_after hmark (by decide)
  case isFalse => exact fresh_of_before h

theorem fresh_moduleEnd (ho : o.Lawful source) (h : o.isString j = true) :
    o.Fresh (o.moduleEnd (j + 1)) := by
  refine fresh_semicolon ?_
  split
  case isTrue hattributes =>
    simp only [Bool.and_eq_true] at hattributes
    exact is_dot_afterGroup ho (opens_of_brace hattributes.1.2)
  case isFalse => exact is_eq_false_of_isString h

/-- What a statement other than `debugger` is like: of another kind, and followed by no
property. -/
def Leaves (o : Outline) (kind : Statement.Kind) (stop : Nat) : Prop :=
  kind ≠ .debugger ∧ o.Fresh stop

theorem leaves_declaration {d : Declaration} (ho : o.Lawful source)
    (h : o.declaration? i = some d) : o.Leaves d.kind d.stop := by
  unfold declaration? at h
  split at h
  · obtain rfl := Option.some.inj h
    exact ⟨by simp [functionDeclaration], fresh_functionEnd ho _⟩
  split at h
  · obtain rfl := Option.some.inj h
    exact ⟨by simp [classDeclaration], fresh_classEnd ho _⟩
  split at h
  · obtain rfl := Option.some.inj h
    exact ⟨by simp [variableDeclaration], fresh_statementEndFrom ho _ _⟩
  · cases h

/-! ### Statements and what follows them -/

variable {s : Statement} {stop : Nat}

/-- A literal follows the clause of an import. -/
theorem isString_of_importClause {typeOnly : Bool} {bindings : List Binding}
    (h : o.importClause typeOnly j = .ok (bindings, k)) : o.isString (k + 1) = true := by
  obtain ⟨⟨first, j'⟩, _, h⟩ := bind_ok h
  obtain ⟨⟨others, j''⟩, _, h⟩ := bind_ok h
  simp only at h
  split at h
  case isTrue hfrom =>
    obtain rfl : j'' = k := congrArg Prod.snd (Except.ok.inj h)
    exact (Bool.and_eq_true_iff.mp hfrom).2
  case isFalse => cases h

theorem leaves_importing (ho : o.Lawful source)
    (h : o.importing i = .ok (s, stop)) : o.Leaves s.kind stop := by
  unfold importing at h
  simp only at h
  generalize (if o.importsTypes (i + 1) then i + 2 else i + 1) = j at h
  split at h
  · rename_i hstring
    cases h
    exact ⟨by simp, fresh_moduleEnd ho hstring⟩
  split at h
  · cases h
    exact ⟨by simp, fresh_statementEndFrom ho _ _⟩
  split at h
  · cases h
  · rename_i hclause
    cases h
    exact ⟨by simp, fresh_moduleEnd ho (isString_of_importClause hclause)⟩

theorem leaves_starExport {typeOnly : Bool} (ho : o.Lawful source)
    (h : o.starExport i typeOnly j = .ok (s, stop)) : o.Leaves s.kind stop := by
  unfold starExport at h
  simp only at h
  generalize (if o.is (j + 1) "as" && o.isSpelled (j + 2) then j + 3 else j + 1) = k at h
  split at h
  case isTrue hfrom =>
    cases h
    exact ⟨by simp, fresh_moduleEnd ho (Bool.and_eq_true_iff.mp hfrom).2⟩
  case isFalse => cases h

theorem leaves_listExport {typeOnly : Bool} (ho : o.Lawful source) (hbrace : o.is j "\x7b" = true)
    (h : o.listExport i typeOnly j = .ok (s, stop)) : o.Leaves s.kind stop := by
  unfold listExport at h
  split at h
  · cases h
  simp only at h
  split at h
  case isTrue hfrom =>
    cases h
    exact ⟨by simp, fresh_moduleEnd ho (Bool.and_eq_true_iff.mp hfrom).2⟩
  case isFalse =>
    cases h
    exact ⟨by simp, fresh_semicolon (is_dot_afterGroup ho (opens_of_brace hbrace))⟩

theorem leaves_defaultExport (ho : o.Lawful source) :
    o.Leaves (o.defaultExport i j).1.kind (o.defaultExport i j).2 := by
  refine ⟨by simp [defaultExport], ?_⟩
  unfold defaultExport
  simp only
  split
  case h_1 d hd => exact (leaves_declaration ho (Option.filter_eq_some_iff.mp hd).1).2
  case h_2 => exact fresh_statementEndFrom ho _ _

theorem leaves_exporting (ho : o.Lawful source)
    (h : o.exporting i = .ok (s, stop)) : o.Leaves s.kind stop := by
  unfold exporting at h
  simp only at h
  generalize (o.is (i + 1) "type" && (o.is (i + 2) "\x7b" || o.is (i + 2) "*")) = typeOnly at h
  generalize (if typeOnly then i + 2 else i + 1) = j at h
  split at h
  · exact leaves_starExport ho h
  split at h
  · rename_i hbrace
    exact leaves_listExport ho hbrace h
  split at h
  · have hleaves : o.Leaves (o.defaultExport i j).1.kind (o.defaultExport i j).2 :=
      leaves_defaultExport ho
    rwa [Except.ok.inj h] at hleaves
  split at h
  · rename_i hd
    cases h
    exact ⟨by simp, (leaves_declaration ho hd).2⟩
  · cases h
    exact ⟨by simp, fresh_statementEndFrom ho _ _⟩

theorem leaves_plain (ho : o.Lawful source) : o.Leaves (o.plain i).1.kind (o.plain i).2 := by
  unfold plain
  split
  case h_1 d hd => exact leaves_declaration ho hd
  case h_2 => exact ⟨by simp, fresh_statementEndFrom ho _ _⟩

/-- A statement leaves off where no property of it goes on. -/
theorem fresh_statement {statements : List Statement} (ho : o.Lawful source)
    (h : o.statement i = .ok (statements, stop)) : o.Fresh stop := by
  unfold statement at h
  split at h
  · obtain ⟨⟨s, stop'⟩, himport, h⟩ := bind_ok h
    cases h
    exact (leaves_importing ho himport).2
  split at h
  · obtain ⟨⟨s, stop'⟩, hexport, h⟩ := bind_ok h
    cases h
    exact (leaves_exporting ho hexport).2
  split at h
  · cases h
    exact fresh_statementEndFrom ho _ _
  · cases h
    exact (leaves_plain ho).2

/-- A statement that begins with a dot reaches behind it. -/
theorem lt_stop_of_dot {statements : List Statement} (hdot : o.is i "." = true)
    (h : o.statement i = .ok (statements, stop)) : i < stop := by
  have hother : ∀ text ∈ ["import", "export", "debugger", "function", "async", "class", "abstract",
      "var", "const", "let"].map Bytes.ofString, o.is i text = false := by
    have hne : ∀ text ∈ ["import", "export", "debugger", "function", "async", "class", "abstract",
      "var", "const", "let"].map Bytes.ofString, ("." : Bytes) ≠ text := by decide
    exact fun text hmem => is_eq_false hdot (hne text hmem)
  simp only [List.map_cons, List.map_nil, List.forall_mem_cons] at hother
  simp only [statement, plain, declaration?, hother, Bool.false_and, Bool.or_self,
    Bool.false_eq_true, if_false, Except.ok.injEq, Prod.mk.injEq] at h
  have hsize := lt_of_is hdot
  have hle := o.le_statementEndFrom i (i + 1)
  rw [← statementEnd_eq hdot (by decide), h.2] at hle
  omega

/-- **The next statement** does not begin with a property of the one before. -/
theorem fresh_next {statements : List Statement} (ho : o.Lawful source)
    (h : o.statement i = .ok (statements, stop)) : o.Fresh (max stop (i + 1)) := by
  rcases Nat.lt_or_ge i stop with hle | hlt
  · rw [Nat.max_eq_left hle]
    exact fresh_statement ho h
  · rw [Nat.max_eq_right (Nat.le_succ_of_le hlt)]
    refine fresh_of_before ?_
    cases hdot : o.is i "." with
    | false => exact hdot
    | true => exact absurd (lt_stop_of_dot hdot h) (by omega)

end Outline

end ScriptLint
