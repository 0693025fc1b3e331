/-
Inputs with a slash at their end.

A directory may be named with a slash at its end.  The slash stays in the normal form of the path,
as an empty name behind the others.  It leads to the same directory and to the same entries; but
it is one more path on the way to them, and rules are asked about it as about the directory itself.
Its way from a base ends with the slash and its own name is empty, so that a pattern that matches
any text matches it, even where a later rule takes back what is in the directory:

* **`Path.Spelled`** — a path that is spelled by its names, as every normal form is but the
  root and `.`;
* **`Path.normalize_slashed`**, **`Path.Spelled.prefixes_slashed`** — what the slash adds;
* **`IgnoreRule.subject?_slashed`** — what a rule is about there;
* **`IgnoreRules.barsSlash`** — the rules ignore the path with the slash;
* **`Disk.directory?_slashed`** — it leads to the same directory;
* **`Disk.collect_slashed`** — the rules decide whether the slash makes a difference.
-/
import Mathlib
import ScriptLint.Proofs.IgnoredFolders
import ScriptLint.Proofs.NormalForms

namespace ScriptLint

namespace Path

variable {p base : Path}

/-- The path with a slash at its end. -/
def slashed (p : Path) : Path := ⟨p.text ++ "/"⟩

/-! ### One more slash -/

theorem isAbsolute_slashed (hp : p.text ≠ []) : p.slashed.isAbsolute = p.isAbsolute :=
  isAbsolute_append _ hp

theorem isEmpty_slashed (p : Path) : p.slashed.isEmpty = false :=
  List.isEmpty_eq_false_iff.mpr (List.append_ne_nil_of_right_ne_nil _ (by decide))

theorem endsWith_slashed (p : Path) : Bytes.endsWith p.slashed.text "/" = true :=
  List.isSuffixOf_iff_suffix.mpr (List.suffix_append _ _)

/-- A path with a slash at its end is the path of an entry without a name. -/
theorem slashed_eq (hp : p.text ≠ []) (hslash : Bytes.endsWith p.text "/" = false) :
    p.slashed = p / (⟨[]⟩ : Path) := by
  have hempty : p.isEmpty = false := List.isEmpty_eq_false_iff.mpr hp
  show _ = append p ⟨[]⟩
  rw [append, isAbsolute_nil, hempty, if_neg (by simp), if_neg (by simp [hslash]), List.append_nil,
    slashed]

/-- Below a path there is the same with a slash at its end. -/
theorem slashed_append (hp : p.text ≠ []) (hslash : Bytes.endsWith p.text "/" = false) (q : Path) :
    p.slashed / q = p / q := by
  have hempty : p.isEmpty = false := List.isEmpty_eq_false_iff.mpr hp
  show append p.slashed q = append p q
  rw [append, append, isEmpty_slashed, hempty, endsWith_slashed, hslash]
  rfl

/-- A slash at the end of a path stays at the end below another one. -/
theorem append_slashed (hp : p.text ≠ []) (base : Path) :
    base / p.slashed = (base / p).slashed := by
  show append base p.slashed = (append base p).slashed
  rw [append, append, isAbsolute_slashed hp]
  split
  · rfl
  split <;> simp only [slashed, List.append_assoc]

/-- Below another path, there is no slash at the end either. -/
theorem endsWith_append (hp : p.text ≠ []) (hslash : Bytes.endsWith p.text "/" = false)
    (base : Path) : (base / p).text ≠ [] ∧ Bytes.endsWith (base / p).text "/" = false := by
  -- the path ends like what is put behind the other one
  obtain ⟨front, htext⟩ : ∃ front, (base / p).text = front ++ p.text := by
    show ∃ front, (append base p).text = front ++ p.text
    rw [append]
    split
    · exact ⟨[], rfl⟩
    split
    · exact ⟨base.text, rfl⟩
    · exact ⟨base.text ++ "/", rfl⟩
  have hne : front ++ p.text ≠ [] := List.append_ne_nil_of_right_ne_nil _ hp
  rw [htext]
  refine ⟨hne, ?_⟩
  rw [← Bool.not_eq_true, endsWith_slash_iff hp, final_eq_nil_iff hp] at hslash
  rw [← Bool.not_eq_true, endsWith_slash_iff hne, final_eq_nil_iff hne,
    List.getLast_append_of_ne_nil _ hp]
  exact hslash

/-! ### Paths that are spelled by their names -/

/-- The path is spelled by names that are neither empty nor `.`. -/
structure Spelled (p : Path) : Prop where
  spelled : ofNames p.isAbsolute p.names = p
  nonempty : p.names ≠ []
  filled : ∀ name ∈ p.names, name ≠ [] ∧ name ≠ "."

namespace Spelled

variable (h : p.Spelled)
include h

theorem text_ne_nil : p.text ≠ [] := fun hnil => h.nonempty ((text_eq_nil_iff p).mp hnil).2

theorem endsWith : Bytes.endsWith p.text "/" = false := by
  rw [← Bool.not_eq_true, endsWith_slash_iff h.text_ne_nil, ← fileName_eq, fileName,
    List.getLast?_eq_some_getLast h.nonempty]
  exact (h.filled _ (List.getLast_mem h.nonempty)).1

theorem slashed_eq_ofNames : p.slashed = ofNames p.isAbsolute (p.names ++ [[]]) := by
  conv_lhs => rw [← h.spelled]
  simp only [slashed, ofNames, join_concat h.nonempty, List.append_assoc, List.append_nil]

theorem names_slashed : p.slashed.names = p.names ++ [[]] := by
  rw [h.slashed_eq_ofNames]
  refine names_ofNames_of_filled (fun name hname => ?_) (fun name hname => ?_) ?_
  · rcases List.mem_append.mp hname with hname | hname
    · exact slash_of_mem_names hname
    · rw [List.mem_singleton.mp hname]
      exact List.not_mem_nil
  · rw [List.dropLast_concat] at hname
    exact (h.filled name hname).1
  · rw [List.head?_append_of_ne_nil _ h.nonempty]
    exact p.head?_names

/-- A slash at the end of a way does not change that it goes down. -/
theorem goes_slashed :
    ((p.slashed.isEmpty = true ∨ p.slashed.same "." = true ∨
        p.slashed.names.head? = some (".." : Bytes)) ↔
      (p.isEmpty = true ∨ p.same "." = true ∨ p.names.head? = some (".." : Bytes))) := by
  have hempty : p.isEmpty = false := List.isEmpty_eq_false_iff.mpr h.text_ne_nil
  have hdot : ¬p.same "." = true := fun hsame =>
    absurd rfl (h.filled "." (by rw [names_congr (same_iff.mp hsame)]; decide)).2
  have hdot' : ¬p.slashed.same "." = true := by
    intro hsame
    have hnames : p.names ++ [[]] = [] ++ [("." : Bytes)] :=
      h.names_slashed.symm.trans (names_congr (same_iff.mp hsame))
    exact absurd (List.append_inj' hnames rfl).1 h.nonempty
  rw [isEmpty_slashed, hempty, h.names_slashed, List.head?_append_of_ne_nil _ h.nonempty]
  simp [hdot, hdot']

end Spelled

/-- A normal form is `.`, the root, or spelled by its names, if there is no slash at its end. -/
theorem spelled_normalize (hp : p.text ≠ []) (hslash : Bytes.endsWith p.text "/" = false) :
    p.normalize = "." ∨ p.normalize = "/" ∨ p.normalize.Spelled := by
  have hfinal : final p.text ≠ [] := fun hnil => by
    rw [(endsWith_slash_iff hp).mpr hnil] at hslash
    exact absurd hslash (by simp)
  have hnames : p.names = lead p.text ++ [final p.text] := by
    rw [names_eq, if_neg fun hnil => hfinal hnil.2]
  have hroot : p.isRoot = false := by
    rw [← Bool.not_eq_true, isRoot_iff, hnames]
    exact fun hnil => List.append_ne_nil_of_right_ne_nil _ (List.cons_ne_nil _ _) hnil.2
  have hfilled : ∀ name ∈ p.names, name ≠ [] := by
    rw [hnames]
    intro name hname
    rcases List.mem_append.mp hname with hname | hname
    · simpa using (List.mem_filter.mp hname).2
    · rwa [List.mem_singleton.mp hname]
  have hnormalize := normalize_of_not_isRoot hroot
  split at hnormalize
  · exact .inl hnormalize
  rename_i hdot
  have hkept : p.normalize.names = collapse p.isAbsolute [] p.names := by
    rw [hnormalize, names_ofNames_collapse]
  by_cases hnil : collapse p.isAbsolute [] p.names = []
  · have habsolute : p.isAbsolute = true := by
      simpa using fun hnot : p.isAbsolute = false => hdot ⟨hnil, by simp [hnot]⟩
    rw [hnil, habsolute] at hnormalize
    exact .inr (.inl hnormalize)
  · refine .inr (.inr ⟨?_, hkept ▸ hnil, fun name hname => ?_⟩)
    · rw [isAbsolute_normalize, hkept, hnormalize]
    · rw [hkept] at hname
      obtain ⟨hmem, hname, -⟩ := (mem_collapse hname).resolve_left List.not_mem_nil
      exact ⟨hfilled name hmem, hname⟩

/-- **The slash stays in the normal form**, behind names. -/
theorem normalize_slashed (hp : p.text ≠ []) (hslash : Bytes.endsWith p.text "/" = false) :
    p.slashed.normalize = p.normalize ∧ (p.normalize = "." ∨ p.normalize = "/") ∨
      p.normalize.Spelled ∧ p.slashed.normalize = p.normalize.slashed := by
  rw [slashed_eq hp hslash, normalize_append]
  rcases spelled_normalize hp hslash with hdot | hroot | h
  · rw [hdot]
    exact .inl (by decide)
  · rw [hroot]
    exact .inl (by decide)
  refine .inr ⟨h, ?_⟩
  have hnames := h.names_slashed
  have hself : collapse p.normalize.isAbsolute [] p.normalize.names = p.normalize.names := by
    have hroot : p.normalize.isRoot = false := by
      rw [← Bool.not_eq_true, isRoot_iff]
      exact fun hnil => h.nonempty hnil.2
    have hnormal := normalize_of_not_isRoot hroot
    rw [normalize_normalize] at hnormal
    split at hnormal
    · exact absurd rfl (h.filled "." (by rw [hnormal]; decide)).2
    · exact ((congrArg names hnormal).trans (names_ofNames_collapse p.normalize)).symm
  rw [← slashed_eq h.text_ne_nil h.endsWith, normalize_of_not_isRoot, hnames,
    isAbsolute_slashed h.text_ne_nil, collapse_concat_nil, hself, if_neg h.nonempty,
    if_neg fun hnil => List.append_ne_nil_of_right_ne_nil _ (List.cons_ne_nil _ _) hnil.1,
    h.slashed_eq_ofNames]
  rw [← Bool.not_eq_true, isRoot_iff, hnames]
  exact fun hnil => List.append_ne_nil_of_right_ne_nil _ (List.cons_ne_nil _ _) hnil.2

/-- An input with a slash at its end is the same path as without it, where no names are left of it;
and elsewhere the path has the slash as well. -/
theorem absoluteFrom_slashed (hp : p.text ≠ []) (hslash : Bytes.endsWith p.text "/" = false)
    (base : Path) :
    p.slashed.absoluteFrom base = p.absoluteFrom base ∧
        (p.absoluteFrom base = "." ∨ p.absoluteFrom base = "/") ∨
      (p.absoluteFrom base).Spelled ∧
        p.slashed.absoluteFrom base = (p.absoluteFrom base).slashed := by
  rw [absoluteFrom, absoluteFrom, isAbsolute_slashed hp]
  split
  · exact normalize_slashed hp hslash
  · obtain ⟨hp', hslash'⟩ := endsWith_append hp hslash base
    rw [append_slashed hp]
    exact normalize_slashed hp' hslash'

/-- The paths that lead to the entries below names are spelled by names. -/
theorem foldl_ofNames {rooted : Bool} {front names : List Bytes}
    (hfront : ∀ n ∈ front, n ≠ [] ∧ '/'.toUInt8 ∉ n)
    (hnames : ∀ n ∈ names, n ≠ [] ∧ '/'.toUInt8 ∉ n) :
    names.foldl (fun (q : Path) name => q / (⟨name⟩ : Path)) (ofNames rooted front) =
      ofNames rooted (front ++ names) := by
  induction names generalizing front with
  | nil => rw [List.append_nil, List.foldl_nil]
  | cons name rest ih =>
    obtain ⟨hname, hrest⟩ := List.forall_mem_cons.mp hnames
    have hkeep : front.filter (· ≠ []) = front :=
      List.filter_eq_self.mpr fun n hn => by simpa using (hfront n hn).1
    rw [List.foldl_cons, ofNames_child (fun n hn => (hfront n hn).2)
      (fun n hn => (hfront n (List.dropLast_subset _ hn)).1) hname.2, hkeep, ih _ hrest,
      List.append_assoc, List.singleton_append]
    exact List.forall_mem_append.mpr ⟨hfront, List.forall_mem_singleton.mpr hname⟩

theorem Spelled.plain (h : p.Spelled) : ∀ n ∈ p.names, n ≠ [] ∧ '/'.toUInt8 ∉ n :=
  fun n hn => ⟨(h.filled n hn).1, slash_of_mem_names hn⟩

/-- **What leads to a path with a slash at its end** leads to the path, and then there is that
itself. -/
theorem Spelled.prefixes_slashed (h : p.Spelled) :
    p.slashed.prefixes = p.prefixes ++ [p.slashed] := by
  have hthrough : (ofNames p.isAbsolute []).through p.slashed.names =
      (ofNames p.isAbsolute []).through p.names ++ [p.slashed] := by
    rw [h.names_slashed, through_append, foldl_ofNames (by simp) h.plain, List.nil_append,
      h.spelled, through, through, ← slashed_eq h.text_ne_nil h.endsWith]
  rw [prefixes, prefixes, isAbsolute_slashed h.text_ne_nil]
  cases habsolute : p.isAbsolute with
  | true =>
    rw [habsolute] at hthrough
    exact congrArg (List.cons _) hthrough
  | false =>
    rw [habsolute] at hthrough
    exact hthrough

/-! ### The way from a base -/

/-- More names in front of which something is left are left as well. -/
theorem dropCommon_append_left {a b x y : List Bytes} (h : dropCommon a b = (x, y)) (hx : x ≠ [])
    (more : List Bytes) : dropCommon (a ++ more) b = (x ++ more, y) := by
  induction a generalizing b with
  | nil =>
    rw [dropCommon.eq_2 _ _ (by simp)] at h
    exact absurd (Prod.mk.inj h).1.symm hx
  | cons first rest ih =>
    cases b with
    | nil =>
      rw [dropCommon.eq_2 _ _ (by simp)] at h ⊢
      obtain ⟨rfl, rfl⟩ := Prod.mk.inj h
      rfl
    | cons first' rest' =>
      rw [List.cons_append, dropCommon]
      rw [dropCommon] at h
      split at h
      · exact (if_pos ‹_›).trans (ih h)
      · obtain ⟨rfl, rfl⟩ := Prod.mk.inj h
        exact if_neg ‹_›

/-- What two lists have in common is dropped. -/
theorem dropCommon_append_append (common a b : List Bytes) :
    dropCommon (common ++ a) (common ++ b) = dropCommon a b := by
  induction common with
  | nil => rfl
  | cons first rest ih => rw [List.cons_append, List.cons_append, dropCommon, if_pos rfl, ih]

/-- A path of names that do not go up goes by way of them, where the base is left with nothing. -/
theorem lexicallyRelative_eq_foldl (hsame : p.isAbsolute = base.isAbsolute)
    {rest above : List Bytes} (hdrop : dropCommon p.names base.names = (rest, above))
    (hlevel : descent above = 0) (hrest : ¬(rest = [] ∨ rest.head? = some [])) :
    p.lexicallyRelative base = rest.foldl (fun (q : Path) name => q / (⟨name⟩ : Path)) ⟨[]⟩ := by
  unfold lexicallyRelative
  rw [if_neg (not_not_intro hsame), hdrop]
  split
  · rename_i hpair
    exact absurd (.inl (Prod.mk.inj hpair).1) hrest
  · rename_i hpair
    obtain ⟨rfl, rfl⟩ := Prod.mk.inj hpair
    simp only [hlevel]
    rw [if_neg (fun hdot => hrest hdot.2), if_neg (by simp)]
    rfl

theorem isAbsolute_ofNames_false {names : List Bytes} (h : ∀ n ∈ names, n ≠ [] ∧ '/'.toUInt8 ∉ n) :
    (ofNames false names).isAbsolute = false := by
  cases names with
  | nil => rfl
  | cons name rest =>
    obtain ⟨hname, -⟩ := List.forall_mem_cons.mp h
    obtain ⟨more, htext⟩ : ∃ more, ofNames false (name :: rest) = ⟨name ++ more⟩ := by
      cases rest with
      | nil => exact ⟨[], congrArg Path.mk (List.append_nil name).symm⟩
      | cons next more => exact ⟨_, congrArg Path.mk (List.append_assoc _ _ _)⟩
    rw [htext, isAbsolute_append _ hname.1, isAbsolute_name hname.2]

theorem Spelled.dropCommon_slashed (h : p.Spelled) {rest above : List Bytes}
    (hdrop : dropCommon p.names base.names = (rest, above)) (hrest : rest ≠ []) :
    dropCommon p.slashed.names base.names = (rest ++ [[]], above) := by
  rw [h.names_slashed, dropCommon_append_left hdrop hrest]

/-- **The way to a path with a slash at its end** is the way to the path, with the slash. -/
theorem Spelled.way_slashed (h : p.Spelled) (hsame : p.isAbsolute = base.isAbsolute)
    {rest above : List Bytes} (hdrop : dropCommon p.names base.names = (rest, above))
    (hlevel : descent above = 0) (hrest : rest ≠ []) : (p.lexicallyRelative base).Spelled ∧
      p.slashed.lexicallyRelative base = (p.lexicallyRelative base).slashed := by
  obtain ⟨common, hnames, -⟩ := dropCommon_eq hdrop
  have hplain : ∀ n ∈ rest, n ≠ [] ∧ '/'.toUInt8 ∉ n := fun n hn =>
    h.plain n (hnames ▸ List.mem_append_right _ hn)
  have hhead : rest.head? ≠ some [] := fun hhead =>
    (hplain [] (List.mem_of_mem_head? hhead)).1 rfl
  have hfold : rest.foldl (fun (q : Path) name => q / (⟨name⟩ : Path)) ⟨[]⟩ = ofNames false rest :=
    @foldl_ofNames false [] rest (List.forall_mem_nil _) hplain
  have hway : p.lexicallyRelative base = ofNames false rest := by
    rw [lexicallyRelative_eq_foldl hsame hdrop hlevel (not_or.mpr ⟨hrest, hhead⟩), hfold]
  have hspelled : (ofNames false rest).Spelled := by
    refine ⟨?_, ?_, fun name hname => ?_⟩
    · rw [isAbsolute_ofNames_false hplain, names_ofNames hplain]
    · rwa [names_ofNames hplain]
    · rw [names_ofNames hplain] at hname
      exact h.filled name (hnames ▸ List.mem_append_right _ hname)
  rw [hway]
  refine ⟨hspelled, ?_⟩
  rw [lexicallyRelative_eq_foldl ((isAbsolute_slashed h.text_ne_nil).trans hsame)
    (h.dropCommon_slashed hdrop hrest) hlevel, List.foldl_append, hfold,
    slashed_eq hspelled.text_ne_nil hspelled.endsWith]
  · rfl
  · rw [List.head?_append_of_ne_nil _ hrest]
    exact not_or.mpr ⟨List.append_ne_nil_of_left_ne_nil hrest _, hhead⟩

end Path

/-! ### Rules -/

namespace IgnoreRule

variable {r : IgnoreRule} {p : Path}

/-- A rule is about a path to which the way from its base goes down. -/
theorem level_of_subject? (h : (r.subject? p).isSome = true) {rest above : List Bytes}
    (hdrop : Path.dropCommon p.names r.base.names = (rest, above)) :
    Path.descent above = 0 ∧ rest ≠ [] ∧ rest.head? ≠ some [] := by
  have hsame := isAbsolute_of_subject? h
  obtain ⟨hdot, hup⟩ := way_of_subject? h
  have hlevel : Path.descent above = 0 := by
    rcases Int.lt_trichotomy (Path.descent above) 0 with hlt | heq | hgt
    · have hway : p.lexicallyRelative r.base = ⟨[]⟩ := by
        unfold Path.lexicallyRelative
        rw [if_neg (not_not_intro hsame), hdrop]
        split
        · rename_i hpair
          rw [(Prod.mk.inj hpair).2] at hlt
          exact absurd hlt (by decide)
        · rename_i hpair
          obtain ⟨rfl, rfl⟩ := Prod.mk.inj hpair
          simp only
          rw [if_neg (fun hdot => by omega), if_pos hlt]
      rw [subject?, hway, if_pos (.inl rfl)] at h
      exact absurd h (by simp)
    · exact heq
    · exact absurd (Path.leadsUp_of_descent hsame hdrop hgt) hup
  exact ⟨hlevel, not_or.mp fun hrest =>
    hdot (Path.lexicallyRelative_eq_dot hsame hdrop hlevel hrest)⟩

/-- What a rule is about, by the way from its base. -/
theorem subject?_of_way {way : Path} (hway : p.lexicallyRelative r.base = way) :
    r.subject? p = if way.isEmpty = true ∨ way.same "." = true ∨
        way.names.head? = some (".." : Bytes) then none
      else some (if r.anchored then way.text else p.fileName) := by
  rw [← hway]
  rfl

/-- What the rule would be about if a slash stood at the end of the path. -/
def slashSubject? (r : IgnoreRule) (p : Path) : Option Bytes :=
  (r.subject? p).map fun subject => if r.anchored then subject ++ "/" else []

/-- **What a rule is about with a slash at the end**: the way with a slash at its end, or no
name. -/
theorem subject?_slashed (h : p.Spelled) : r.subject? p.slashed = r.slashSubject? p := by
  obtain ⟨⟨rest, above⟩, hdrop⟩ : ∃ x, x = Path.dropCommon p.names r.base.names := ⟨_, rfl⟩
  obtain ⟨common, hnames, hbase⟩ := Path.dropCommon_eq hdrop.symm
  have habsolute := Path.isAbsolute_slashed h.text_ne_nil
  by_cases hway : p.isAbsolute = r.base.isAbsolute ∧ Path.descent above = 0 ∧ rest ≠ []
  · -- the way goes down, and the slash is at its end
    obtain ⟨hsame, hlevel, hrest⟩ := hway
    obtain ⟨hspelled, hslashed⟩ := h.way_slashed hsame hdrop.symm hlevel hrest
    have hfile : p.slashed.fileName = [] := by
      rw [Path.fileName, h.names_slashed, List.getLast?_concat]
      rfl
    rw [slashSubject?, subject?_of_way hslashed, subject?_of_way rfl, hfile]
    by_cases hnone : (p.lexicallyRelative r.base).isEmpty = true ∨
        (p.lexicallyRelative r.base).same "." = true ∨
        (p.lexicallyRelative r.base).names.head? = some (".." : Bytes)
    · rw [if_pos (hspelled.goes_slashed.mpr hnone), if_pos hnone, Option.map_none]
    · rw [if_neg (mt hspelled.goes_slashed.mp hnone), if_neg hnone, Option.map_some]
      cases r.anchored <;> rfl
  · -- there is no way down, with the slash or without
    have hnone : r.subject? p = none := by
      rw [← Option.not_isSome_iff_eq_none]
      intro hsome
      obtain ⟨hlevel, hrest, -⟩ := level_of_subject? hsome hdrop.symm
      exact hway ⟨isAbsolute_of_subject? hsome, hlevel, hrest⟩
    rw [slashSubject?, hnone, Option.map_none, ← Option.not_isSome_iff_eq_none]
    intro hsome
    have hsame := habsolute.symm.trans (isAbsolute_of_subject? hsome)
    by_cases hrest : rest = []
    · rw [hrest, List.append_nil] at hnames
      cases habove : Path.dropCommon [[]] above with
      | mk rest' above' =>
        have hdrop' : Path.dropCommon p.slashed.names r.base.names = (rest', above') := by
          rw [h.names_slashed, hbase, hnames, Path.dropCommon_append_append, habove]
        obtain ⟨-, hne, hhead⟩ := level_of_subject? hsome hdrop'
        obtain ⟨front, hfront, -⟩ := Path.dropCommon_eq habove
        rcases List.append_eq_singleton_iff.mp hfront.symm with ⟨-, heq⟩ | ⟨-, heq⟩
        · exact hhead (congrArg List.head? heq)
        · exact hne heq
    · have hdrop' := h.dropCommon_slashed hdrop.symm hrest
      exact hway ⟨hsame, (level_of_subject? hsome hdrop').1, hrest⟩

end IgnoreRule

namespace IgnoreRules

variable {rules : IgnoreRules} {p : Path}

/-- The rules ignore the path with a slash at its end, whatever they say about the path. -/
def barsSlash (rules : IgnoreRules) (p : Path) : Bool :=
  rules.foldl (fun barred r =>
    if (r.slashSubject? p).any r.pattern.matchesAll then !r.negated else barred) false

theorem verdict_slashed (h : p.Spelled) : rules.verdict p.slashed true = rules.barsSlash p := by
  simp only [verdict, barsSlash, IgnoreRule.applies, Bool.true_or, Bool.true_and,
    IgnoreRule.subject?_slashed h]

/-- Rules that match neither a name without bytes nor a way with a slash at its end do not bar the
slash, and neither do those that take back. -/
theorem barsSlash_eq_false (h : ∀ r ∈ rules, r.negated = false →
    ∀ subject ∈ r.slashSubject? p, r.pattern.matchesAll subject = false) :
    rules.barsSlash p = false := by
  have hfold (barred : Bool) (hbarred : barred = false) : rules.foldl (fun barred r =>
      if (r.slashSubject? p).any r.pattern.matchesAll then !r.negated else barred) barred =
        false := by
    induction rules generalizing barred with
    | nil => exact hbarred
    | cons r rest ih =>
      rw [List.foldl_cons]
      refine ih (fun r' hr' => h r' (List.mem_cons_of_mem _ hr')) _ ?_
      split
      · rename_i hmatches
        obtain ⟨subject, hsubject, hmatch⟩ := (Option.any_eq_true _ _).mp hmatches
        cases hnegated : r.negated with
        | true => rfl
        | false =>
          rw [h r List.mem_cons_self hnegated subject hsubject] at hmatch
          exact absurd hmatch (by simp)
      · exact hbarred
  exact hfold false rfl

/-- The root and `.` are never below a base. -/
theorem barsSlash_eq_false_of_alone (h : p = "." ∨ p = "/") : rules.barsSlash p = false := by
  refine barsSlash_eq_false fun r _ _ subject hsubject => ?_
  have hnone : r.subject? p = none := by
    rw [← Option.not_isSome_iff_eq_none]
    intro hsome
    cases hdrop : Path.dropCommon p.names r.base.names with
    | mk rest above =>
      obtain ⟨hlevel, hrest, hhead⟩ := IgnoreRule.level_of_subject? hsome hdrop
      obtain ⟨common, hnames, -⟩ := Path.dropCommon_eq hdrop
      rcases h with rfl | rfl
      · -- nothing but the name `.` can be left, and that is the way
        have hdot : rest = [("." : Bytes)] := by
          have hnames : [("." : Bytes)] = common ++ rest := hnames
          rcases List.append_eq_singleton_iff.mp hnames.symm with ⟨-, heq⟩ | ⟨-, heq⟩
          · exact heq
          · exact absurd heq hrest
        refine (IgnoreRule.way_of_subject? hsome).1 ?_
        rw [Path.lexicallyRelative_eq_foldl (IgnoreRule.isAbsolute_of_subject? hsome) hdrop hlevel
          (not_or.mpr ⟨hrest, hhead⟩), hdot]
        decide
      · have hnames : [] = common ++ rest := hnames
        exact hrest (List.append_eq_nil_iff.mp hnames.symm).2
  rw [IgnoreRule.slashSubject?, hnone] at hsubject
  cases hsubject

/-- **A directory is ignored under its path with a slash if it is, or if the slash is barred.** -/
theorem isIgnored_slashed (h : p.Spelled) (hp : p.normalize = p)
    (hslashed : p.slashed.normalize = p.slashed) :
    rules.isIgnored p.slashed true = (rules.isIgnored p true || rules.barsSlash p) := by
  rw [Bool.eq_iff_iff, Bool.or_eq_true, isIgnored_directory, isIgnored_directory, hslashed, hp,
    h.prefixes_slashed, ← verdict_slashed h]
  simp only [List.mem_append, List.mem_singleton, or_and_right, exists_or, exists_eq_left]

end IgnoreRules

/-! ### Directories -/

namespace Disk

variable {d : Disk} {p : Path}

/-- A slash behind names that lead to a directory leads there as well. -/
theorem walk_slash {root : Directory} {links : Nat} {here names names' : List Bytes}
    {inner : Directory} (h : walk root links here names = .ok (.taken names' (.folder inner))) :
    walk root links here (names ++ [[]]) = .ok (.taken names' (.folder inner)) := by
  -- the recursion is that of the walk: a link puts its target in front of what is left
  cases names with
  | nil =>
    rw [walk] at h
    split at h
    · rename_i hfind
      cases h
      rw [List.nil_append, walk, hfind]
      refine (if_pos (.inl rfl)).trans ?_
      rw [walk, hfind]
    · cases h
  | cons name rest =>
    rw [walk] at h
    rw [List.cons_append, walk]
    split at h
    · split at h
      · rw [if_pos ‹_›]
        exact walk_slash h
      rw [if_neg ‹_›]
      split at h
      · rw [if_pos ‹_›]
        exact walk_slash h
      rw [if_neg ‹_›]
      split at h
      · cases h
      rw [if_neg ‹_›]
      split at h
      · split at h <;> cases h
      · cases h
      · rw [← List.append_assoc]
        exact walk_slash h
      · exact walk_slash h
    · cases h
    · cases h
termination_by (links, names.length)

/-- **The slash leads to the same directory.** -/
theorem directory?_slashed (h : p.Spelled) (hlength : p.slashed.text.length ≤ pathLimit)
    {inner : Directory} (hfolder : d.directory? p = some inner) :
    d.directory? p.slashed = some inner := by
  have hne := h.text_ne_nil
  have hempty : p.isEmpty = false := List.isEmpty_eq_false_iff.mpr hne
  have hshort : ¬pathLimit < p.text.length := by
    rw [Path.slashed, List.length_append] at hlength
    omega
  have hlocate : d.locate p = walk d.root linkLimit
      (if p.isAbsolute then [] else d.workingNames.reverse) p.names := by
    rw [locate, hempty, if_neg (by simp), if_neg hshort]
  have hlocate' : d.locate p.slashed = walk d.root linkLimit
      (if p.isAbsolute then [] else d.workingNames.reverse) (p.names ++ [[]]) := by
    rw [locate, p.isEmpty_slashed, if_neg (by simp), if_neg (Nat.not_lt.mpr hlength),
      Path.isAbsolute_slashed hne, h.names_slashed]
  obtain ⟨names, hplace⟩ : ∃ names, d.locate p = .ok (.taken names (.folder inner)) := by
    rw [directory?] at hfolder
    split at hfolder
    · rename_i names entry hplace
      rw [Option.some.inj hfolder] at hplace
      exact ⟨names, hplace⟩
    · cases hfolder
  rw [directory?, hlocate', walk_slash (hlocate ▸ hplace)]

end Disk

namespace Walker

variable {w : Walker} {p q : Path}

/-- Where the entries of a directory have the same paths, a walk takes the same turns. -/
theorem walk_congr (h : ∀ name : Bytes, p / (⟨name⟩ : Path) = q / (⟨name⟩ : Path)) (d : Directory)
    (s : Walk) : w.walk p d s = w.walk q d s := by
  induction d generalizing s with
  | empty => rfl
  | file name text rest ih => rw [walk, walk, h, ih]
  | link name target rest ih =>
    rw [walk, walk, h]
    simp only [ih]
  | folder name inner rest ihinner ih =>
    rw [walk, walk, h]
    simp only [ih]

theorem enter_congr (h : ∀ name : Bytes, p / (⟨name⟩ : Path) = q / (⟨name⟩ : Path)) (s : Walk) :
    w.enter p s = w.enter q s := by
  rw [enter, enter, h]

theorem isFile_of_directory? {d : Disk} {inner : Directory} (h : d.directory? p = some inner) :
    d.isFile p = false := by
  rw [Disk.directory?] at h
  rw [Disk.isFile]
  split at h
  · rename_i hplace
    rw [hplace]
  · cases h

/-- An input that is a directory is walked, unless it is ignored. -/
theorem addInput_directory {cwd : Path} {input : Path} {inner : Directory}
    (h : w.disk.directory? (input.absoluteFrom cwd) = some inner) (files : PathSet) (s : Walk) :
    w.addInput cwd files s input =
      if s.rules.isIgnored (input.absoluteFrom cwd) true then .ok (files, s)
      else (w.enter (input.absoluteFrom cwd) s).bind fun t =>
        (w.walk (input.absoluteFrom cwd) inner { t with found := [] }).map fun u =>
          ((sorted u.found).foldl PathSet.insert files, u) := by
  rw [addInput]
  simp only [isFile_of_directory? h, h]
  rfl

/-- **A directory with a slash at the end of its path is ignored where the slash is barred**, and
walked like the directory elsewhere. -/
theorem addInput_slashed {input : Path} (hne : input.text ≠ [])
    (hslash : Bytes.endsWith input.text "/" = false) {cwd : Path}
    (hfolder : w.disk.isDirectory (input.absoluteFrom cwd) = true)
    (hlength : (input.slashed.absoluteFrom cwd).text.length ≤ Disk.pathLimit) (files : PathSet)
    (s : Walk) : w.addInput cwd files s input.slashed =
      if s.rules.barsSlash (input.absoluteFrom cwd) then .ok (files, s)
      else w.addInput cwd files s input := by
  obtain ⟨inner, hinner⟩ := Option.isSome_iff_exists.mp hfolder
  rw [w.addInput_directory hinner]
  rcases Path.absoluteFrom_slashed hne hslash cwd with ⟨hsame, halone⟩ | ⟨hspelled, hslashed⟩
  · rw [IgnoreRules.barsSlash_eq_false_of_alone halone, if_neg (by simp), w.addInput_directory
      (hsame ▸ hinner), hsame]
  · have hnormal (p : Path) : (p.absoluteFrom cwd).normalize = p.absoluteFrom cwd :=
      Path.normalize_normalize _
    have hnormal' := hnormal input.slashed
    rw [hslashed] at hlength hnormal'
    have hchild (name : Bytes) :=
      Path.slashed_append hspelled.text_ne_nil hspelled.endsWith ⟨name⟩
    -- the directory is the same and so are the paths below it: only the rules are left
    have hinner' := Disk.directory?_slashed hspelled hlength hinner
    rw [w.addInput_directory (hslashed ▸ hinner'), hslashed,
      IgnoreRules.isIgnored_slashed hspelled (hnormal input) hnormal', enter_congr hchild]
    simp only [walk_congr hchild]
    cases s.rules.barsSlash (input.absoluteFrom cwd) with
    | true => rw [Bool.or_true, if_pos rfl, if_pos rfl]
    | false => rw [Bool.or_false, if_neg Bool.false_ne_true]

end Walker

namespace Disk

/-- The files of one input. -/
theorem collect_singleton (d : Disk) (input cwd : Path) (rules : IgnoreRules)
    (accepts : Path → Bool) (options : WalkOptions) :
    d.collect [input] cwd rules accepts options =
      ((Walker.mk d accepts options).enter cwd.normalize { rules }).bind fun s =>
        ((Walker.mk d accepts options).addInput cwd .empty s input).map fun out => out.1.paths := by
  show ((Walker.mk d accepts options).enter cwd.normalize { rules }).bind (fun s =>
    ((Walker.mk d accepts options).addInputs cwd .empty s [input]).map PathSet.paths) = _
  congr 1
  funext s
  show Except.map PathSet.paths ((Walker.addInput _ cwd .empty s input).bind fun out => .ok out.1) =
    _
  cases (Walker.mk d accepts options).addInput cwd .empty s input <;> rfl

/-- With the ignore file of the working directory, the rules ignore the path of an input with a
slash at its end. -/
def BarsSlash (d : Disk) (options : WalkOptions) (cwd : Path) (rules : IgnoreRules) (input : Path) :
    Prop :=
  ∃ s, (Walker.mk d (fun _ => true) options).enter cwd.normalize { rules } = .ok s ∧
    s.rules.barsSlash (input.absoluteFrom cwd) = true

/-- **A slash at the end of a directory changes nothing, unless the rules bar it**: rules that
ignore its way from a base with the slash, or a name without bytes, and are not taken back.  Where
they do, no files are found. -/
theorem collect_slashed {d : Disk} {input : Path} (hne : input.text ≠ [])
    (hslash : Bytes.endsWith input.text "/" = false) {cwd : Path}
    (hfolder : d.isDirectory (input.absoluteFrom cwd) = true)
    (hlength : (input.slashed.absoluteFrom cwd).text.length ≤ pathLimit) (rules : IgnoreRules)
    (accepts : Path → Bool) (options : WalkOptions) :
    (¬d.BarsSlash options cwd rules input →
      d.collect [input.slashed] cwd rules accepts options =
        d.collect [input] cwd rules accepts options) ∧
    (d.BarsSlash options cwd rules input →
      d.collect [input.slashed] cwd rules accepts options = .ok []) := by
  have hadd (s : Walk) := @Walker.addInput_slashed (Walker.mk d accepts options) input hne hslash
    cwd hfolder hlength .empty s
  rw [collect_singleton, collect_singleton]
  constructor
  · intro hbars
    cases henter : (Walker.mk d accepts options).enter cwd.normalize { rules } with
    | error e => rfl
    | ok s =>
      have hfalse : ¬s.rules.barsSlash (input.absoluteFrom cwd) = true := fun htrue =>
        hbars ⟨s, henter, htrue⟩
      rw [Except.bind, Except.bind, hadd, if_neg hfalse]
  · rintro ⟨s, henter, hbars⟩
    have henter' : (Walker.mk d accepts options).enter cwd.normalize { rules } = .ok s := henter
    rw [henter', Except.bind, hadd, if_pos hbars]
    rfl

/-! ### A directory of which one script is kept -/

/-- What is in the directory is ignored, but for one script. -/
def keptScript : Disk where
  root := .file ".gitignore" "dist/*\n!dist/keep.js\n"
    (.folder "dist" (.file "keep.js" "" .empty) .empty)

/-- The rules there. -/
theorem exists_enter_keptScript :
    ∃ rules loaded, (Walker.mk keptScript (fun _ => true) {}).enter (Path.normalize "/")
        { rules := [] } = .ok { rules, loaded } ∧
      rules.barsSlash "/dist" = true ∧ rules.isIgnored "/dist" true = false ∧
      rules.isIgnored "/dist/keep.js" false = false := by
  have hfile : keptScript.isFile "/.gitignore" = true := by cbv
  have hread : keptScript.read "/.gitignore" = .ok "dist/*\n!dist/keep.js\n" := by cbv
  have hdirectory : keptScript.directory = "/" := by cbv
  have hlines : IgnoreRules.addFile keptScript "/.gitignore" [] =
      IgnoreRules.addLines "/.gitignore" "/" 1 [] ["dist/*", "!dist/keep.js"] := by
    rw [IgnoreRules.addFile, hfile, hread, hdirectory]
    rfl
  obtain ⟨⟨rules, fault⟩, hout⟩ : ∃ out, out =
    IgnoreRules.addLines "/.gitignore" "/" 1 [] ["dist/*", "!dist/keep.js"] := ⟨_, rfl⟩
  have hchecks : (fault.isNone && rules.barsSlash "/dist" && !rules.isIgnored "/dist" true &&
      !rules.isIgnored "/dist/keep.js" false) = true := by
    rw [show rules = (rules, fault).1 from rfl, show fault = (rules, fault).2 from rfl, hout]
    decide +kernel
  simp only [Bool.and_eq_true, Bool.not_eq_true', Option.isNone_iff_eq_none] at hchecks
  obtain ⟨⟨⟨rfl, hbars⟩, hfolder⟩, hscript⟩ := hchecks
  refine ⟨rules, (∅ : Path.Set).add "/.gitignore", ?_, hbars, hfolder, hscript⟩
  rw [Walker.enter, show Path.normalize "/" / (⟨WalkOptions.ignoreFileName {}⟩ : Path) =
    "/.gitignore" by decide, hfile, hlines, ← hout, if_neg (by decide)]

/-- **The slash matters**: behind the directory it hides the script that is taken back. -/
theorem collect_slash_matters :
    keptScript.collect ["dist"] "/" [] (fun _ => true) {} = .ok ["/dist/keep.js"] ∧
      keptScript.collect ["dist/"] "/" [] (fun _ => true) {} = .ok [] := by
  obtain ⟨rules, loaded, henter, hbars, hfolder, hscript⟩ := exists_enter_keptScript
  have hdirectory : keptScript.directory? "/dist" = some (.file "keep.js" "" .empty) := by cbv
  have hinput : Path.absoluteFrom "dist" "/" = "/dist" := by decide
  rw [collect_singleton, collect_singleton, henter, Except.bind, Except.bind]
  constructor
  · have hnone : keptScript.isFile "/dist/.gitignore" = false := by cbv
    have hinner : (Walker.mk keptScript (fun _ => true) {}).enter "/dist" { rules, loaded } =
        .ok { rules, loaded } := by
      rw [Walker.enter, show ("/dist" : Path) / (⟨WalkOptions.ignoreFileName {}⟩ : Path) =
        "/dist/.gitignore" by decide, hnone]
      rfl
    have hwalk : (Walker.mk keptScript (fun _ => true) {}).walk "/dist"
        (.file "keep.js" "" .empty) { rules, loaded } =
          .ok { rules, loaded, found := ["/dist/keep.js"] } := by
      rw [Walker.walk, Walker.walk, Walker.visit, show ("/dist" : Path) / (⟨"keep.js"⟩ : Path) =
        "/dist/keep.js" by decide, hscript]
      rfl
    have hsorted : Walker.sorted ["/dist/keep.js"] = ["/dist/keep.js"] :=
      List.mergeSort_singleton _
    rw [Walker.addInput_directory (hinput ▸ hdirectory), hinput, hfolder, if_neg (by simp), hinner,
      Except.bind, hwalk, Except.map, hsorted]
    rfl
  · have hlength : (Path.absoluteFrom (Path.slashed "dist") "/").text.length ≤ pathLimit := by
      decide
    rw [show ("dist/" : Path) = Path.slashed "dist" by decide,
      Walker.addInput_slashed (by decide) (by decide) (hinput ▸ by cbv) hlength, hinput,
      if_pos hbars]
    rfl

/-- There, and where ignore files are not read. -/
theorem collect_slashed_dist :
    keptScript.collect [Path.slashed "dist"] "/" [] (fun _ => true) {} = .ok [] ∧
    ∀ accepts, keptScript.collect [Path.slashed "dist"] "/" [] accepts { ignoreFileName := [] } =
      keptScript.collect ["dist"] "/" [] accepts { ignoreFileName := [] } := by
  have hinput : Path.absoluteFrom "dist" "/" = "/dist" := by decide
  have hfolder : keptScript.isDirectory (Path.absoluteFrom "dist" "/") = true := hinput ▸ by cbv
  have hlength : (Path.absoluteFrom (Path.slashed "dist") "/").text.length ≤ pathLimit := by
    decide
  obtain ⟨rules, loaded, henter, hbars, -⟩ := exists_enter_keptScript
  refine ⟨(collect_slashed (by decide) (by decide) hfolder hlength [] (fun _ => true) {}).2
    ⟨_, henter, hinput ▸ hbars⟩, fun accepts => ?_⟩
  refine (collect_slashed (by decide) (by decide) hfolder hlength [] accepts _).1 ?_
  rintro ⟨s, henter, hbars⟩
  rw [Walker.enter, if_pos (.inl rfl)] at henter
  rw [← Except.ok.inj henter] at hbars
  exact absurd hbars (by decide)

end Disk

end ScriptLint
