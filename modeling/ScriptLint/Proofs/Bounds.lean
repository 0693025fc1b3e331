/-
Places inside of their texts.

What is said about a segment is said about a range of its bytes.  The range of a fault does
not reach behind the end of the text, and neither do the ranges that rules report: these
begin with a token and end with the same or a later one.

* **`Span.Within`** — the range lies between two offsets;
* **`Token.within_of_scan`** — the place of a text that cannot be cut into tokens;
* **`Outline.Reaches`** — the range begins and ends with tokens, as those of every statement
  that is read do (`Outline.places_of_bodyFrom`);
* **`Script.within_of_parse`**, **`Segment.places_of_parse`** — the place of any fault of a
  text lies in it, and so do the places of its statements.
-/
import ScriptLint.Proofs.Tiling
import ScriptLint.Proofs.Uses

namespace ScriptLint

/-! ### Ranges between two offsets -/

/-- The range lies between two offsets, and does not end before it starts. -/
structure Span.Within (lo hi : Nat) (s : Span) : Prop where
  start : lo ≤ s.start.toNat
  ordered : s.start.toNat ≤ s.stop.toNat
  stop : s.stop.toNat ≤ hi

/-- A range between two offsets of a text that is not too long. -/
theorem Span.within_ofOffsets {length start stop : Nat} (hlength : length < 2 ^ 32)
    (hle : start ≤ stop) (hstop : stop ≤ length) :
    (ofOffsets start stop).Within 0 length := by
  obtain ⟨hstart', hstop'⟩ := Token.toNat_ofOffsets (Nat.lt_of_le_of_lt hstop hlength) hle
  exact ⟨Nat.zero_le _, by rwa [hstart', hstop'], by rwa [hstop']⟩

/-- A range of a part of a text is one of the text. -/
theorem Span.Within.shifted {length : Nat} {s : Span} {offset : UInt32}
    (h : s.Within 0 length) (hlength : offset.toNat + length < 2 ^ 32) :
    (s.shifted offset).Within offset.toNat (offset.toNat + length) := by
  have hordered := h.ordered
  have hstop := h.stop
  constructor <;> simp only [Span.shifted, UInt32.toNat_add] <;> omega

/-- The places of a statement that are reported have a property: its own, that of the module
name, and those of the names that it imports. -/
structure Statement.Places (P : Span → Prop) (s : Statement) : Prop where
  span : P s.span
  source : ∀ source ∈ s.source, P source.span
  bindings : s.kind = .importing → ∀ b ∈ s.bindings, P b.span

theorem Statement.Places.mono {P Q : Span → Prop} {s : Statement} (h : s.Places P)
    (hPQ : ∀ span, P span → Q span) : s.Places Q :=
  ⟨hPQ _ h.span, fun source hsource => hPQ _ (h.source source hsource),
    fun hkind b hb => hPQ _ (h.bindings hkind b hb)⟩

/-! ### Faults of tokens -/

theorem past_error {n k : Nat} {e : Except Nat Nat} (h : past n e = .error k) :
    ∃ j, e = .error j ∧ k = j + n := by
  cases e with
  | error j => exact ⟨j, rfl, by simpa [past] using h.symm⟩
  | ok j => simp [past] at h

theorem stringExtent_error_le {quote : UInt8} {text : Bytes} {n : Nat}
    (h : stringExtent quote text = .error n) : n ≤ text.length := by
  fun_induction stringExtent quote text generalizing n <;> grind [past_error]

theorem patternExtent_error_le {bracketed : Bool} {text : Bytes} {n : Nat}
    (h : patternExtent bracketed text = .error n) : n ≤ text.length := by
  fun_induction patternExtent bracketed text generalizing n <;> grind [past_error]

/-- What is found ends inside of the text. -/
theorem Bytes.find?_le {pattern text : Bytes} {n : Nat} (h : Bytes.find? pattern text = some n) :
    n + pattern.length ≤ text.length := by
  induction text generalizing n with
  | nil =>
    rw [Bytes.find?] at h
    split at h
    · rename_i hpattern
      obtain rfl := Option.some.inj h
      simp [hpattern]
    · cases h
  | cons b rest ih =>
    rw [Bytes.find?] at h
    split at h
    · rename_i hprefix
      obtain rfl := Option.some.inj h
      simpa using (List.isPrefixOf_iff_prefix.mp hprefix).length_le
    · obtain ⟨m, hm, rfl⟩ := Option.map_eq_some_iff.mp h
      have := ih hm
      rw [List.length_cons]
      omega

namespace Piece

variable {elements : Bool} {last : Option Token} {frames below : List Frame}
  {pos extra : Nat} {b : UInt8} {rest : Bytes}

/-- What may come of reading a piece: a fault that begins at its offset and a piece end inside
of the text, and a substitution that is open behind the piece was open before it or begins
with it. -/
def Fits (frames : List Frame) (pos : Nat) (rest : Bytes) : Except Failure Piece → Prop
  | .error f => ∃ n ≤ rest.length, f.span = .ofOffsets pos (pos + (1 + n))
  | .ok (.gap extra _) => extra ≤ rest.length
  | .ok (.lexeme _ extra frames') => extra ≤ rest.length ∧
      ∀ part, .substitution part ∈ frames' → .substitution part ∈ frames ∨ part = pos

theorem fits_faultAt (fault : Fault) {n : Nat} (hn : n ≤ rest.length) :
    Fits frames pos rest (faultAt fault pos (1 + n)) :=
  ⟨n, hn, rfl⟩

/-- A lexeme that opens no substitution. -/
theorem fits_lexeme (kind : Token.Kind) (hextra : extra ≤ rest.length)
    (hbelow : ∀ frame ∈ below, frame = .block ∨ frame ∈ frames) :
    Fits frames pos rest (.ok (.lexeme kind extra below)) :=
  ⟨hextra, fun part hpart => .inl ((hbelow _ hpart).resolve_left (by simp))⟩

theorem fits_templatePiece (hbelow : ∀ frame ∈ below, frame ∈ frames) :
    Fits frames pos rest (templatePiece below pos rest) := by
  unfold templatePiece
  split
  · exact fits_faultAt _ (Nat.le_refl _)
  · exact fits_lexeme _ (templateExtent_le ‹_›) fun frame hframe => .inr (hbelow frame hframe)
  · refine ⟨templateExtent_le ‹_›, fun part hpart => ?_⟩
    rcases List.mem_cons.mp hpart with hnew | hold
    · exact .inr (Frame.substitution.inj hnew)
    · exact .inl (hbelow _ hold)

/-- The braces that are open behind a mark. -/
theorem mem_framesAfter {frame : Frame} (h : frame ∈ framesAfter b frames) :
    frame = .block ∨ frame ∈ frames := by
  unfold framesAfter at h
  split at h
  · exact List.mem_cons.mp h
  · split at h
    · exact .inr (List.mem_of_mem_tail h)
    · exact .inr h

/-- **Reading a piece** ends inside of the text, with or without a fault. -/
theorem fits_first : Fits frames pos rest (first elements last frames pos b rest) := by
  have hsame : ∀ frame ∈ frames, frame = .block ∨ frame ∈ frames := fun _ h => .inr h
  have htake : (rest.takeWhile isWordPart).length ≤ rest.length :=
    (List.takeWhile_sublist _).length_le
  unfold first
  -- a line feed, a blank and the two comments are gaps
  split; · exact Nat.zero_le _
  split; · exact Nat.zero_le _
  split; · exact (List.takeWhile_sublist _).length_le
  split
  · split
    · exact fits_faultAt _ (Nat.le_refl _)
    · rename_i n hclosed
      have hend := Bytes.find?_le hclosed
      have hlength : ("*/" : Bytes).length = 2 := rfl
      rw [List.length_tail] at hend
      show n + 3 ≤ rest.length
      omega
  -- then come strings and templates
  split
  · split
    · exact fits_lexeme _ (stringExtent_le ‹_›) hsame
    · exact fits_faultAt _ (stringExtent_error_le ‹_›)
  split; · exact fits_templatePiece fun _ h => h
  split; · exact fits_templatePiece fun _ h => List.mem_cons_of_mem _ h
  -- and words, numbers, regular expressions and marks
  split; · exact fits_lexeme _ htake hsame
  split; · exact fits_lexeme _ (numberExtent_le _ _ _) hsame
  split
  · split
    · exact fits_lexeme _ (patternExtent_le ‹_›) hsame
    · exact fits_faultAt _ (patternExtent_error_le ‹_›)
  split
  · rename_i hdots
    exact fits_lexeme _ (List.isPrefixOf_iff_prefix.mp hdots.2).length_le hsame
  · exact fits_lexeme _ (Nat.zero_le _) fun _ h => mem_framesAfter h

end Piece

/-- What a computation of two steps broke off at. -/
theorem bind_error {ε α β : Type} {e : Except ε α} {f : α → Except ε β} {x : ε}
    (h : e >>= f = .error x) : e = .error x ∨ ∃ a, e = .ok a ∧ f a = .error x := by
  cases e with
  | error _ =>
    cases h
    exact .inl rfl
  | ok a => exact .inr ⟨a, rfl, h⟩

namespace Token

variable {elements : Bool} {text : Bytes} {f : Failure}

/-- The range of a fault that a reading from an offset meets. -/
theorem span_of_scanFrom {last : Option Token} {frames : List Frame} {onNewLine : Bool} {pos : Nat}
    (hpos : pos ≤ text.length) (hframes : ∀ part, .substitution part ∈ frames → part ≤ pos)
    (h : scanFrom elements last frames onNewLine pos (text.drop pos) = .error f) :
    ∃ start stop, start ≤ stop ∧ stop ≤ text.length ∧ f.span = .ofOffsets start stop := by
  induction hn : text.length - pos using Nat.strongRecOn
    generalizing last frames onNewLine pos with
  | _ n ih =>
    cases hrest : text.drop pos with
    | nil =>
      rw [hrest, scanFrom] at h
      split at h
      case h_1 => cases h
      case h_2 part hopen =>
        -- the text ends inside of a substitution, whose template part stands before the end
        cases h
        obtain ⟨frame, hframe, hpart⟩ := List.exists_of_findSome?_eq_some hopen
        cases frame with
        | block => cases hpart
        | substitution part' =>
          obtain rfl := Option.some.inj hpart
          exact ⟨part', pos, hframes _ hframe, hpos, rfl⟩
    | cons b rest =>
      have hlength := length_of_drop hrest
      have hafter (extra : Nat) : rest.drop extra = text.drop (pos + 1 + extra) := by
        have hdrop := congrArg (List.drop (1 + extra)) hrest
        rw [List.drop_drop, Nat.add_comm 1 extra, List.drop_succ_cons] at hdrop
        rw [← hdrop]
        congr 1
        omega
      have hfits : Piece.Fits frames pos rest (Piece.first elements last frames pos b rest) :=
        Piece.fits_first
      rw [hrest, scanFrom] at h
      rcases bind_error h with hfirst | ⟨piece, hfirst, h⟩
      · rw [hfirst] at hfits
        obtain ⟨n, hn, hspan⟩ := hfits
        exact ⟨pos, pos + (1 + n), by omega, by omega, hspan⟩
      rw [hfirst] at hfits
      cases piece with
      | gap extra breaks =>
        have hextra : extra ≤ rest.length := hfits
        simp only [hafter] at h
        refine ih _ (by omega) (by omega) (fun part hpart => ?_) h rfl
        have := hframes part hpart
        omega
      | lexeme kind extra frames' =>
        obtain ⟨hextra, hopen⟩ := hfits
        simp only [hafter] at h
        rcases bind_error h with h | ⟨_, _, h⟩
        · refine ih _ (by omega) (by omega) (fun part hpart => ?_) h rfl
          rcases hopen part hpart with hold | rfl
          · have := hframes part hold
            omega
          · omega
        · cases h

/-- **A text that cannot be cut into tokens** is at fault inside of it. -/
theorem within_of_scan (hlength : text.length < 2 ^ 32) (h : scan elements text = .error f) :
    f.span.Within 0 text.length := by
  have hskipped : (if Bytes.startsWith text "#!" then
      (text.takeWhile (!Bytes.isLineFeed ·)).length else 0) ≤ text.length := by
    split
    · exact (List.takeWhile_sublist _).length_le
    · exact Nat.zero_le _
  obtain ⟨start, stop, hle, hstop, hspan⟩ := span_of_scanFrom hskipped (by simp) h
  rw [hspan]
  exact Span.within_ofOffsets hlength hle hstop

end Token

namespace Outline

/-- A bracket that cannot be paired is one of the tokens. -/
theorem token_of_pairFrom {partner : Array (Option Nat)} {opened : List (Nat × Token)} {i : Nat}
    {tokens : List Token} {f : Failure} (h : pairFrom partner opened i tokens = .error f) :
    ∃ t, (t ∈ tokens ∨ t ∈ opened.map Prod.snd) ∧ f.span = t.span := by
  induction tokens generalizing partner opened i with
  | nil =>
    cases opened with
    | nil => cases h
    | cons o rest =>
      cases h
      exact ⟨o.2, .inr List.mem_cons_self, rfl⟩
  | cons t rest ih =>
    unfold pairFrom at h
    split at h
    case isTrue =>
      -- the bracket is open from now on
      obtain ⟨t', ht', hspan⟩ := ih h
      refine ⟨t', ?_, hspan⟩
      rw [List.map_cons, List.mem_cons] at ht'
      rw [List.mem_cons]
      tauto
    case isFalse =>
      split at h
      case isTrue =>
        cases opened with
        | nil =>
          cases h
          exact ⟨t, .inl List.mem_cons_self, rfl⟩
        | cons o opened =>
          simp only at h
          split at h
          case isTrue =>
            obtain ⟨t', ht', hspan⟩ := ih h
            exact ⟨t', ht'.imp (List.mem_cons_of_mem _) (List.mem_cons_of_mem _), hspan⟩
          case isFalse =>
            cases h
            exact ⟨t, .inl List.mem_cons_self, rfl⟩
      case isFalse =>
        obtain ⟨t', ht', hspan⟩ := ih h
        exact ⟨t', ht'.imp_left (List.mem_cons_of_mem _), hspan⟩

/-- **Brackets that are not well nested** are at fault at a token. -/
theorem token_of_ofTokens {tokens : List Token} {f : Failure} (h : ofTokens tokens = .error f) :
    ∃ t ∈ tokens, f.span = t.span := by
  rcases bind_error h with h | ⟨_, _, h⟩
  · obtain ⟨t, ht, hspan⟩ := token_of_pairFrom h
    exact ⟨t, by simpa using ht, hspan⟩
  · cases h

/-! ### Places of statements -/

section

variable (o : Outline)

/-- The range begins with a token and ends with the same or a later one. -/
def Reaches (s : Span) : Prop :=
  ∃ i j, i ≤ j ∧ j < o.size ∧ s = ⟨(o.token i).span.start, (o.token j).span.stop⟩

/-- What the reader of a statement answers is at ranges of tokens. -/
def Locates : Except Failure (Statement × Nat) → Prop
  | .ok (s, _) => s.Places o.Reaches
  | .error f => o.Reaches f.span

end

variable {o : Outline} {i j k stop : Nat} {text : Bytes} {span : Span}

/-- In a text that is not too long a range of tokens lies in it. -/
theorem Reaches.within (h : o.Reaches span) (ho : o.Lawful text) : span.Within 0 text.length := by
  obtain ⟨i, j, hij, hj, rfl⟩ := h
  exact ⟨Nat.zero_le _, Nat.le_of_lt (ho.start_lt_stop hij hj), (ho.stands j hj).inside⟩

theorem reaches_token (hi : i < o.size) : o.Reaches (o.token i).span :=
  ⟨i, i, Nat.le_refl i, hi, rfl⟩

theorem reaches_spanOf (hi : i < o.size) (hstop : stop ≤ o.size) : o.Reaches (o.spanOf i stop) := by
  unfold spanOf
  split
  case isTrue => exact reaches_token hi
  case isFalse hlt => exact ⟨i, stop - 1, by omega, by omega, rfl⟩

/-- A module name is at its literal. -/
theorem reaches_moduleName (h : o.isString j = true) :
    ∀ source ∈ some (o.moduleName j), o.Reaches source.span := by
  intro source hsource
  obtain rfl := Option.some.inj hsource
  exact reaches_token (lt_of_isString h)

/-- A statement that asks for no module. -/
theorem places_plain {s : Statement} (hsource : s.source = none) (hkind : s.kind ≠ .importing)
    (hi : i < o.size) (hstop : stop ≤ o.size) (hspan : s.span = o.spanOf i stop) :
    s.Places o.Reaches :=
  ⟨hspan ▸ reaches_spanOf hi hstop, by simp [hsource], fun h => absurd h hkind⟩

/-! ### Imports -/

/-- The names that an import binds are at tokens. -/
theorem reaches_importClause {typeOnly : Bool} {bindings : List Binding}
    (h : o.importClause typeOnly j = .ok (bindings, k)) :
    ∀ b ∈ bindings, o.Reaches b.span := by
  intro b hb
  obtain ⟨k, hk, -, hspan⟩ := speltAt_importClause h b hb
  rw [hspan]
  exact reaches_token (lt_of_isSpelled hk)

theorem locates_importing (ho : o.Nested) (hi : i < o.size) : o.Locates (o.importing i) := by
  simp only [importing]
  generalize (if o.importsTypes (i + 1) then i + 2 else i + 1) = j
  split
  case isTrue hstring =>
    have hstop := Guarded.moduleEnd_le ho (lt_of_isString hstring)
    exact ⟨reaches_spanOf hi hstop, reaches_moduleName hstring, by simp⟩
  case isFalse =>
    split
    case isTrue => exact places_plain rfl (by simp) hi (o.statementEndFrom_le j j) rfl
    case isFalse =>
      split
      · exact reaches_spanOf hi (Nat.min_le_right _ _)
      · rename_i bindings j hclause
        have hstring := isString_of_importClause hclause
        have hstop := Guarded.moduleEnd_le ho (lt_of_isString hstring)
        exact ⟨reaches_spanOf hi hstop, reaches_moduleName hstring,
          fun _ => reaches_importClause hclause⟩

/-! ### Exports -/

/-- An export of names from another module. -/
theorem places_reexport {s : Statement} (ho : o.Nested) (hi : i < o.size)
    (hstring : o.isString j = true) (hkind : s.kind = .exporting)
    (hspan : s.span = o.spanOf i (o.moduleEnd (j + 1)))
    (hsource : s.source = some (o.moduleName j)) :
    s.Places o.Reaches := by
  refine ⟨?_, hsource ▸ reaches_moduleName hstring, by simp [hkind]⟩
  rw [hspan]
  exact reaches_spanOf hi (Guarded.moduleEnd_le ho (lt_of_isString hstring))

theorem locates_starExport (ho : o.Nested) (hi : i < o.size) (typeOnly : Bool) (j : Nat) :
    o.Locates (o.starExport i typeOnly j) := by
  simp only [starExport]
  generalize (if o.is (j + 1) "as" && o.isSpelled (j + 2) then j + 3 else j + 1) = j
  split
  case isTrue hfrom =>
    exact places_reexport ho hi (Bool.and_eq_true_iff.mp hfrom).2 rfl rfl rfl
  case isFalse => exact reaches_spanOf hi (Nat.min_le_right _ _)

theorem locates_listExport (ho : o.Nested) (hi : i < o.size) (typeOnly : Bool)
    (hbrace : o.is j "\x7b" = true) : o.Locates (o.listExport i typeOnly j) := by
  have hgroup := ho.afterGroup_le (opens_of_brace hbrace)
  simp only [listExport]
  split
  · exact reaches_spanOf hi hgroup
  · split
    case isTrue hfrom =>
      exact places_reexport ho hi (Bool.and_eq_true_iff.mp hfrom).2 rfl rfl rfl
    case isFalse =>
      refine places_plain rfl (by simp) hi ?_ rfl
      split
      case isTrue hmark => exact lt_of_is hmark
      case isFalse => exact hgroup

theorem places_defaultExport (ho : o.Nested) (hi : i < o.size) (j : Nat) :
    (o.defaultExport i j).1.Places o.Reaches := by
  unfold defaultExport
  cases hd : (o.declaration? (j + 1)).filter fun d => d.kind != .variable with
  | none => exact places_plain rfl (by simp) hi (o.statementEndFrom_le _ _) rfl
  | some d =>
    have hstop := Guarded.declaration_le ho (Option.filter_eq_some_iff.mp hd).1
    exact places_plain rfl (by simp) hi hstop rfl

theorem locates_exporting (ho : o.Nested) (hi : i < o.size) : o.Locates (o.exporting i) := by
  simp only [exporting]
  generalize (o.is (i + 1) "type" && (o.is (i + 2) "\x7b" || o.is (i + 2) "*")) = typeOnly
  generalize (if typeOnly then i + 2 else i + 1) = j
  split
  case isTrue => exact locates_starExport ho hi typeOnly j
  case isFalse =>
    split
    case isTrue hbrace => exact locates_listExport ho hi typeOnly hbrace
    case isFalse =>
      split
      case isTrue => exact places_defaultExport ho hi j
      case isFalse =>
        split
        · exact places_plain rfl (by simp) hi (Guarded.declaration_le ho ‹_›) rfl
        · exact places_plain rfl (by simp) hi (o.statementEndFrom_le j j) rfl

/-! ### All statements -/

theorem places_plainStatement (ho : o.Nested) (hi : i < o.size) :
    (o.plain i).1.Places o.Reaches := by
  unfold plain
  split
  · rename_i d hd
    refine places_plain rfl ?_ hi (Guarded.declaration_le ho hd) rfl
    exact (kind_declaration hd).1
  · exact places_plain rfl (by simp) hi (o.statementEndFrom_le i i) rfl

theorem places_debuggers {start : Nat} {s : Statement} (h : s ∈ o.debuggers start stop) :
    s.Places o.Reaches := by
  rw [debuggers_eq_map] at h
  obtain ⟨i, hi, rfl⟩ := List.mem_map.mp h
  have hi := lt_of_is (Bool.and_eq_true_iff.mp (List.mem_filter.mp hi).2).1
  exact places_plain rfl (by simp [debuggerAt]) hi (debuggerEnd_le hi) rfl

theorem reaches_of_statement {f : Failure} (ho : o.Nested) (hi : i < o.size)
    (h : o.statement i = .error f) : o.Reaches f.span := by
  unfold statement at h
  split at h
  · rcases bind_error h with himport | ⟨_, _, h⟩
    · have hlocates := locates_importing ho hi
      rwa [himport] at hlocates
    · cases h
  split at h
  · rcases bind_error h with hexport | ⟨_, _, h⟩
    · have hlocates := locates_exporting ho hi
      rwa [hexport] at hlocates
    · cases h
  split at h
  · cases h
  · cases h

theorem places_of_statement {statements : List Statement} (ho : o.Nested) (hi : i < o.size)
    (h : o.statement i = .ok (statements, stop)) : ∀ s ∈ statements, s.Places o.Reaches := by
  unfold statement at h
  split at h
  · obtain ⟨⟨s, stop'⟩, himport, h⟩ := bind_ok h
    have hlocates := locates_importing ho hi
    rw [himport] at hlocates
    cases h
    exact List.forall_mem_singleton.mpr hlocates
  split at h
  · obtain ⟨⟨s, stop'⟩, hexport, h⟩ := bind_ok h
    have hlocates := locates_exporting ho hi
    rw [hexport] at hlocates
    cases h
    exact List.forall_mem_cons.mpr ⟨hlocates, fun s => places_debuggers⟩
  split at h
  · cases h
    refine List.forall_mem_singleton.mpr ?_
    exact places_plain rfl (by simp) hi (o.statementEndFrom_le i i) rfl
  · cases h
    exact List.forall_mem_cons.mpr ⟨places_plainStatement ho hi, fun s => places_debuggers⟩

/-- A malformed statement is at fault at a range of tokens. -/
theorem reaches_of_bodyFrom {f : Failure} (ho : o.Nested) (h : o.bodyFrom i = .error f) :
    o.Reaches f.span := by
  fun_induction bodyFrom o i with
  | case1 i hi hmark ih => exact ih h
  | case2 i hi hmark ih =>
    rcases bind_error h with h | ⟨read, _, h⟩
    · exact reaches_of_statement ho hi h
    · rcases bind_error h with h | ⟨_, _, h⟩
      · exact ih read.2 h
      · cases h
  | case3 i hi => cases h

/-- **The statements of an outline** are at ranges of tokens. -/
theorem places_of_bodyFrom {body : List Statement} (ho : o.Nested)
    (h : o.bodyFrom i = .ok body) : ∀ s ∈ body, s.Places o.Reaches := by
  intro s hs
  obtain ⟨j, hj, statements, stop, hstatement, hs⟩ := (mem_bodyFrom h).mp hs
  exact places_of_statement ho (lt_of_mem_startsFrom hj) hstatement s hs

end Outline

/-! ### Texts -/

/-- **The fault of a text** is at a range inside of it. -/
theorem Script.within_of_parse {dialect : Dialect} {text : Bytes} {f : Failure}
    (hlength : text.length < 2 ^ 32) (h : Script.parse dialect text = .error f) :
    f.span.Within 0 text.length := by
  rcases bind_error h with h | ⟨tokens, hscan, h⟩
  · exact Token.within_of_scan hlength h
  rcases bind_error h with h | ⟨o, ho, h⟩
  · -- the bracket is a token, and tokens stand in the text
    obtain ⟨t, ht, hspan⟩ := Outline.token_of_ofTokens h
    obtain ⟨places, hplaces, _⟩ := Token.scan_placed hscan
    obtain ⟨hsize, hstands⟩ := List.forall₂_iff_get.mp hplaces
    obtain ⟨k, hk, rfl⟩ := List.mem_iff_getElem.mp ht
    have hstands := (hstands k (hsize ▸ hk) hk).stands hlength
    rw [hspan]
    exact ⟨Nat.zero_le _, Nat.le_of_lt hstands.nonempty, hstands.inside⟩
  rcases bind_error h with h | ⟨_, _, h⟩
  · have houtline : Segment.outline ⟨text, 0, dialect⟩ = .ok o := by
      rw [Segment.outline, hscan]
      exact ho
    have hlawful := Segment.lawful_outline hlength houtline
    exact (Outline.reaches_of_bodyFrom hlawful.nested h).within hlawful
  · cases h

/-- **The statements of a segment**, their module names and their imported names lie inside of
the segment. -/
theorem Segment.places_of_parse {s : Segment} {script : Script} (hlength : s.text.length < 2 ^ 32)
    (h : s.parse = .ok script) :
    ∀ statement ∈ script.body, statement.Places (Span.Within 0 s.text.length) := by
  obtain ⟨o, ho, hbody⟩ := exists_outline h
  have hlawful := lawful_outline hlength ho
  intro statement hstatement
  exact (Outline.places_of_bodyFrom hlawful.nested hbody statement hstatement).mono
    fun _ hreaches => hreaches.within hlawful

end ScriptLint
