/-
Paths that are spelled differently and name the same thing.

Two texts can have one key: `//index.js` and `/index.js` are the same path.
What a run does with a path must not depend on which of its texts came first,
so every operation on paths that a run uses is shown to respect keys:

* **`Path.key_extend`** — a text put after a path;
* **`Path.key_append`** — a path below a path;
* **`Path.key_parent`** — the directory of a path;
* **`Path.key_normalize`**, **`Path.key_absoluteFrom`** — normal forms;
* **`Resolver.candidates_keys`** — the paths that a specifier may stand for.

The keys are read off two parts of a text: its last field, and the fields
before it that are not empty (`Path.names_eq`).
-/
import Mathlib.Data.List.DropRight
import ScriptLint.Resolver

namespace ScriptLint

namespace Bytes

/-- The fields of a text are those that the list library cuts. -/
theorem splitOn_eq (separator : UInt8) (text : Bytes) :
    splitOn separator text = List.splitOn separator text := by
  induction text with
  | nil => rfl
  | cons b rest ih =>
    rw [splitOn, ih, List.splitOn_cons_eq_if_modifyHead]
    obtain ⟨f, fs, hf⟩ := List.exists_cons_of_ne_nil (List.splitOn_ne_nil separator rest)
    by_cases hb : b = separator <;> simp [hb, hf]

/-- The last field of the first text and the first field of the second one grow
together. -/
theorem splitOn_append (separator : UInt8) (a b : Bytes) :
    splitOn separator (a ++ b) =
      (splitOn separator a).dropLast ++
        (splitOn separator b).modifyHead ((splitOn separator a).getLast?.getD [] ++ ·) := by
  simp only [splitOn_eq]
  induction a with
  | nil =>
    obtain ⟨f, fs, hf⟩ := List.exists_cons_of_ne_nil (List.splitOn_ne_nil separator b)
    simp [hf]
  | cons x a ih =>
    obtain ⟨f, fs, hf⟩ := List.exists_cons_of_ne_nil (List.splitOn_ne_nil separator a)
    obtain ⟨g, gs, hg⟩ := List.exists_cons_of_ne_nil (List.splitOn_ne_nil separator b)
    rw [List.cons_append, List.splitOn_cons_eq_if_modifyHead, List.splitOn_cons_eq_if_modifyHead,
      ih, hf, hg]
    by_cases hx : x = separator
    · simp [hx]
    · cases fs <;> simp [hx]

/-- The fields that are not empty. -/
def filled (separator : UInt8) (text : Bytes) : List Bytes :=
  (splitOn separator text).filter (· ≠ [])

theorem filled_append_cons (separator : UInt8) (a b : Bytes) :
    filled separator (a ++ separator :: b) = filled separator a ++ filled separator b := by
  simp only [filled, splitOn_eq, List.splitOn_append_cons_self, List.filter_append]

theorem filled_append_of_all {separator : UInt8} {b : Bytes} (a : Bytes)
    (hb : ∀ x ∈ b, x = separator) : filled separator (a ++ b) = filled separator a := by
  induction b generalizing a with
  | nil => simp
  | cons x b ih =>
    obtain rfl := hb x (by simp)
    rw [filled_append_cons, ← List.nil_append b, ih [] fun y hy => hb y (by simp [hy])]
    simp [filled, splitOn]

end Bytes

namespace Path

/-! ### The two parts of a text -/

/-- The fields before the last one that are not empty. -/
def lead (text : Bytes) : List Bytes := (Bytes.splitOn '/' text).dropLast.filter (· ≠ [])

/-- The last field. -/
def final (text : Bytes) : Bytes := (Bytes.splitOn '/' text).getLast?.getD []

theorem splitOn_eq_concat (text : Bytes) :
    Bytes.splitOn '/' text = (Bytes.splitOn '/' text).dropLast ++ [final text] := by
  have hne := Bytes.splitOn_ne_nil '/' text
  rw [final, List.getLast?_eq_some_getLast hne, Option.getD_some, List.dropLast_append_getLast hne]

theorem filled_eq (text : Bytes) :
    Bytes.filled '/' text = lead text ++ [final text].filter (· ≠ []) := by
  rw [Bytes.filled, splitOn_eq_concat, List.filter_append, lead]

/-- The names of a path are its two parts, unless there is nothing in them. -/
theorem names_eq (p : Path) :
    p.names = if lead p.text = [] ∧ final p.text = [] then [] else lead p.text ++ [final p.text] := by
  have hf := filled_eq p.text
  have hl : (Bytes.splitOn '/' p.text).getLast? = some (final p.text) := by
    rw [splitOn_eq_concat]; simp
  simp only [names, hl, Option.some_inj]
  rw [← Bytes.filled, hf]
  by_cases h : final p.text = [] <;> by_cases h' : lead p.text = [] <;> simp [h, h']

theorem dropLast_names (p : Path) : p.names.dropLast = lead p.text := by
  rw [names_eq]
  split
  · rename_i h; simp [h.1]
  · simp

theorem fileName_eq (p : Path) : p.fileName = final p.text := by
  rw [fileName, names_eq]
  split
  · rename_i h; simp [h.2]
  · simp

/-- Two paths are the same if they agree on being rooted and on both parts. -/
theorem key_eq_iff {p q : Path} :
    p.key = q.key ↔ p.isAbsolute = q.isAbsolute ∧ lead p.text = lead q.text ∧
      final p.text = final q.text := by
  constructor
  · intro h
    obtain ⟨hr, hn⟩ : p.isAbsolute = q.isAbsolute ∧ p.names = q.names := by
      simpa [key] using h
    refine ⟨hr, ?_, ?_⟩
    · rw [← dropLast_names, hn, dropLast_names]
    · rw [← fileName_eq, fileName, hn, ← fileName, fileName_eq]
  · rintro ⟨hr, hl, hf⟩
    simp only [key, hr, names_eq, hl, hf]

@[simp] theorem key_rooted (p : Path) : p.key.rooted = p.isAbsolute := rfl

@[simp] theorem key_names (p : Path) : p.key.names = p.names := rfl

theorem same_iff {p q : Path} : p.same q = true ↔ p.key = q.key := by simp [same]

theorem isAbsolute_congr {p q : Path} (h : p.key = q.key) : p.isAbsolute = q.isAbsolute :=
  congrArg Key.rooted h

theorem names_congr {p q : Path} (h : p.key = q.key) : p.names = q.names := congrArg Key.names h

theorem fileName_congr {p q : Path} (h : p.key = q.key) : p.fileName = q.fileName := by
  rw [fileName, names_congr h, fileName]

theorem extension_congr {p q : Path} (h : p.key = q.key) : p.extension = q.extension := by
  rw [extension, fileName_congr h, extension]

/-! ### Slashes at the two ends -/

theorem isAbsolute_cons (b : UInt8) (text : Bytes) : isAbsolute ⟨b :: text⟩ = (b == '/') := by
  show List.isPrefixOf ['/'.toUInt8] (b :: text) = (b == '/')
  simp [List.isPrefixOf, Bool.beq_comm]

@[simp] theorem isAbsolute_nil : isAbsolute ⟨[]⟩ = false := rfl

theorem isAbsolute_append {a : Bytes} (b : Bytes) (ha : a ≠ []) :
    isAbsolute ⟨a ++ b⟩ = isAbsolute ⟨a⟩ := by
  obtain ⟨x, a, rfl⟩ := List.exists_cons_of_ne_nil ha
  rw [List.cons_append, isAbsolute_cons, isAbsolute_cons]

/-- A text has no filled field exactly if it is made of slashes. -/
theorem filled_eq_nil_iff (text : Bytes) :
    Bytes.filled '/' text = [] ↔ ∀ b ∈ text, isSlash b = true := by
  induction text with
  | nil => simp [Bytes.filled, Bytes.splitOn]
  | cons b rest ih =>
    simp only [Bytes.filled, Bytes.splitOn_eq] at ih ⊢
    rw [List.splitOn_cons_eq_if_modifyHead]
    obtain ⟨f, fs, hf⟩ := List.exists_cons_of_ne_nil (List.splitOn_ne_nil '/'.toUInt8 rest)
    by_cases hb : b = '/'.toUInt8
    · simpa [hb, isSlash] using ih
    · simp [hb, hf, isSlash]

theorem names_eq_nil_iff (p : Path) : p.names = [] ↔ ∀ b ∈ p.text, isSlash b = true := by
  rw [← filled_eq_nil_iff, filled_eq, names_eq]
  by_cases hl : lead p.text = [] <;> by_cases hf : final p.text = [] <;> simp [hl, hf]

/-- Being nothing but slashes shows in the key. -/
theorem isRoot_iff (p : Path) : p.isRoot = true ↔ p.isAbsolute = true ∧ p.names = [] := by
  rw [names_eq_nil_iff]
  obtain ⟨text⟩ := p
  cases text with
  | nil => simp [isRoot]
  | cons b rest =>
    rw [isAbsolute_cons]
    simp only [isRoot, List.isEmpty_cons, Bool.not_false, Bool.true_and, List.all_eq_true]
    constructor
    · intro h; exact ⟨h b (by simp), h⟩
    · intro h; exact h.2

theorem isRoot_congr {p q : Path} (h : p.key = q.key) : p.isRoot = q.isRoot := by
  rw [Bool.eq_iff_iff, isRoot_iff, isRoot_iff, isAbsolute_congr h, names_congr h]

theorem text_eq_nil_iff (p : Path) : p.text = [] ↔ p.isAbsolute = false ∧ p.names = [] := by
  rw [names_eq_nil_iff]
  obtain ⟨text⟩ := p
  cases text with
  | nil => simp
  | cons b rest =>
    rw [isAbsolute_cons]
    simp only [List.mem_cons, forall_eq_or_imp, reduceCtorEq, false_iff, not_and]
    intro hb hslash
    rw [isSlash, hb] at hslash
    exact absurd hslash (by simp)

theorem text_eq_nil_congr {p q : Path} (h : p.key = q.key) : p.text = [] ↔ q.text = [] := by
  rw [text_eq_nil_iff, text_eq_nil_iff, isAbsolute_congr h, names_congr h]

/-- Past the empty text, a slash at the end is an empty last field. -/
theorem final_eq_nil_iff {text : Bytes} (ht : text ≠ []) :
    final text = [] ↔ text.getLast ht = '/'.toUInt8 := by
  obtain ⟨a, b, rfl⟩ := (List.eq_nil_or_concat' text).resolve_left ht
  rw [final, Bytes.splitOn_append]
  by_cases hb : b = '/'.toUInt8 <;> simp [hb, Bytes.splitOn]

theorem endsWith_slash_iff {text : Bytes} (ht : text ≠ []) :
    Bytes.endsWith text "/" = true ↔ final text = [] := by
  rw [final_eq_nil_iff ht]
  obtain ⟨a, b, rfl⟩ := (List.eq_nil_or_concat' text).resolve_left ht
  show List.isSuffixOf ['/'.toUInt8] (a ++ [b]) = true ↔ _
  simp [List.isSuffixOf, List.isPrefixOf, @eq_comm _ b]

/-! ### Operations respect keys -/

theorem final_append (a b : Bytes) :
    final (a ++ b) =
      (((Bytes.splitOn '/' b).modifyHead (final a ++ ·)).getLast?).getD [] := by
  rw [final, Bytes.splitOn_append, List.getLast?_append_of_ne_nil]
  · rfl
  · obtain ⟨f, fs, hf⟩ := List.exists_cons_of_ne_nil (Bytes.splitOn_ne_nil '/' b)
    simp [hf]

theorem lead_append (a b : Bytes) :
    lead (a ++ b) =
      lead a ++ (((Bytes.splitOn '/' b).modifyHead (final a ++ ·)).dropLast).filter (· ≠ []) := by
  obtain ⟨f, fs, hf⟩ := List.exists_cons_of_ne_nil (Bytes.splitOn_ne_nil '/' b)
  rw [lead, Bytes.splitOn_append, List.dropLast_append_of_ne_nil (by simp [hf]), List.filter_append]
  rfl

/-- A text put after two spellings of a path. -/
theorem key_extend {p q : Path} (h : p.key = q.key) (e : Bytes) :
    (⟨p.text ++ e⟩ : Path).key = (⟨q.text ++ e⟩ : Path).key := by
  obtain ⟨hr, hl, hf⟩ := key_eq_iff.mp h
  refine key_eq_iff.mpr ⟨?_, ?_, ?_⟩
  · by_cases hp : p.text = []
    · rw [hp, (text_eq_nil_congr h).mp hp]
    · rw [isAbsolute_append e hp, isAbsolute_append e fun hq => hp ((text_eq_nil_congr h).mpr hq)]
      exact hr
  · rw [lead_append, lead_append, hl, hf]
  · rw [final_append, final_append, hf]

/-- A path below two spellings of a path. -/
theorem key_append {p q : Path} (h : p.key = q.key) (r : Path) : (p / r).key = (q / r).key := by
  show (append p r).key = (append q r).key
  have hempty : p.isEmpty = q.isEmpty := by
    rw [Bool.eq_iff_iff, isEmpty, isEmpty, List.isEmpty_iff, List.isEmpty_iff]
    exact text_eq_nil_congr h
  unfold append
  rw [hempty]
  by_cases hq : (r.isAbsolute || q.isEmpty) = true
  · rw [if_pos hq, if_pos hq]
  · rw [if_neg hq, if_neg hq]
    have hqt : q.text ≠ [] := by
      intro h0; exact hq (by simp [isEmpty, h0])
    have hpt : p.text ≠ [] := fun h0 => hqt ((text_eq_nil_congr h).mp h0)
    have hends : Bytes.endsWith p.text "/" = Bytes.endsWith q.text "/" := by
      rw [Bool.eq_iff_iff, endsWith_slash_iff hpt, endsWith_slash_iff hqt, (key_eq_iff.mp h).2.2]
    rw [hends]
    split
    · exact key_extend h r.text
    · rw [List.append_assoc, List.append_assoc]
      exact key_extend h _

/-- What stands before the last field has the other filled fields. -/
theorem filled_above (text : Bytes) :
    Bytes.filled '/' (text.rdropWhile (!isSlash ·)) = lead text := by
  set above := text.rdropWhile (!isSlash ·) with habove
  have hfield : Bytes.splitOn '/' (text.rtakeWhile (!isSlash ·)) =
      [text.rtakeWhile (!isSlash ·)] := by
    rw [Bytes.splitOn_eq]
    refine List.splitOn_eq_singleton fun hx => ?_
    exact absurd (List.mem_rtakeWhile_imp hx) (by simp [isSlash])
  have hfinal : final above = [] := by
    by_cases h0 : above = []
    · rw [h0]; rfl
    · rw [final_eq_nil_iff h0]
      have hlast : ¬(!isSlash (above.getLast h0)) = true :=
        List.rdropWhile_last_not (!isSlash ·) text h0
      simpa [isSlash] using hlast
  have hlead : lead text = lead above := by
    conv_lhs => rw [← List.rdropWhile_append_rtakeWhile (l := text) (p := (!isSlash ·))]
    rw [lead_append, hfield]
    simp [habove]
  rw [filled_eq, hfinal, hlead]
  simp

/-- Slashes at the end add no filled field. -/
theorem filled_dropSlashes (text : Bytes) :
    Bytes.filled '/' (dropSlashes text) = Bytes.filled '/' text := by
  conv_rhs => rw [← List.rdropWhile_append_rtakeWhile (l := text) (p := isSlash)]
  refine (Bytes.filled_append_of_all _ fun x hx => ?_).symm
  simpa [isSlash] using List.mem_rtakeWhile_imp hx

/-- The directory of a path loses the last name. -/
theorem key_parent (p : Path) : p.parent.key = ⟨p.isAbsolute, p.names.dropLast⟩ := by
  rw [dropLast_names]
  unfold parent
  split
  · rename_i h
    rw [key, h, ← dropLast_names, h, List.dropLast_nil]
  · set above := p.text.rdropWhile (!isSlash ·) with habove
    set stem := dropSlashes above with hstem
    show (if stem.isEmpty && p.isAbsolute then ("/" : Path) else ⟨stem⟩).key = _
    have hlead : lead stem ++ [final stem].filter (· ≠ []) = lead p.text := by
      rw [← filled_eq, filled_dropSlashes, filled_above]
    by_cases h0 : stem = []
    · have : lead p.text = [] := by rw [← hlead, h0]; rfl
      rw [this, h0]
      cases p.isAbsolute <;> rfl
    · rw [List.isEmpty_eq_false_iff.mpr h0, Bool.false_and, if_neg (by simp)]
      have hfinal : final stem ≠ [] := by
        rw [Ne, final_eq_nil_iff h0]
        have hlast : ¬isSlash (stem.getLast h0) = true := List.rdropWhile_last_not isSlash above h0
        simpa only [isSlash, beq_iff_eq] using hlast
      have habs : isAbsolute ⟨stem⟩ = p.isAbsolute := by
        obtain ⟨t, ht⟩ := (List.rdropWhile_prefix isSlash above).trans
          (List.rdropWhile_prefix (!isSlash ·) p.text)
        rw [← isAbsolute_append t h0]
        exact congrArg (fun text => isAbsolute ⟨text⟩) ht
      rw [key, habs, names_eq, if_neg fun h => hfinal h.2, ← hlead]
      simp [hfinal]

theorem key_parent_congr {p q : Path} (h : p.key = q.key) : p.parent.key = q.parent.key := by
  rw [key_parent, key_parent, isAbsolute_congr h, names_congr h]

theorem key_normalize {p q : Path} (h : p.key = q.key) : p.normalize.key = q.normalize.key := by
  unfold normalize
  rw [isRoot_congr h, isAbsolute_congr h, names_congr h]
  split
  · exact h
  · rfl

theorem key_absoluteFrom {base base' : Path} (h : base.key = base'.key) (p : Path) :
    (p.absoluteFrom base).key = (p.absoluteFrom base').key := by
  unfold absoluteFrom
  split
  · rfl
  · exact key_normalize (key_append h p)

end Path

namespace Resolver

/-- Two spellings of a directory lead to the same candidates, in the same order. -/
theorem candidates_keys (r : Resolver) {directory directory' : Path}
    (h : directory.key = directory'.key) (specifier : Bytes) :
    (r.candidates directory specifier).map Path.key =
      (r.candidates directory' specifier).map Path.key := by
  have ht := Path.key_absoluteFrom h ⟨specifier⟩
  simp only [candidates, List.map_append, List.map_cons, List.map_map, ht]
  congr 1
  · congr 1
    exact List.map_congr_left fun e _ => Path.key_extend ht e
  · exact List.map_congr_left fun e _ => Path.key_append ht _

/-- A search for a file that looks at keys alone finds the same path. -/
theorem resolve_keys (r : Resolver) {directory directory' : Path}
    (h : directory.key = directory'.key) (specifier : Bytes) (exists? : Path.Key → Bool) :
    (r.resolve (fun p => exists? p.key) directory specifier).map Path.key =
      (r.resolve (fun p => exists? p.key) directory' specifier).map Path.key := by
  have hfind (ps : List Path) :
      (ps.find? fun p => exists? p.key).map Path.key = (ps.map Path.key).find? exists? := by
    rw [List.find?_map]; rfl
  unfold resolve
  split
  · rfl
  · have hk := hfind (r.candidates directory specifier)
    rw [candidates_keys r h, ← hfind] at hk
    generalize (r.candidates directory specifier).find? _ = found at hk ⊢
    generalize (r.candidates directory' specifier).find? _ = found' at hk ⊢
    cases found <;> cases found' <;> simp_all [Except.map]

end Resolver

end ScriptLint
