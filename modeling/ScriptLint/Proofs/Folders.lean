/-
Directories and their ignore files.

Below inputs that overlap, a walk comes to one directory by several ways.  An absolute path in
normal form is spelled by its names, so that the directory has one ignore file and one set of
rules, whichever way led to it:

* **`Path.Canonical`** — the entries below a path are spelled by their names;
* **`Path.canonical_normalize`** — so it is with every absolute path in normal form, if the root
  is spelled with one slash;
* **`Walker.own`** — the rules of the ignore file of a directory;
* **`Walker.strict_of_applies`** — they are about paths below the directory alone;
* **`Walker.enter_new`**, **`Walker.enter_known`** — a walk takes them in once.
-/
import ScriptLint.Proofs.Gathering

namespace ScriptLint

namespace Path

/-! ### Paths that are spelled by their names -/

/-- The fields of a path of names, below the root or not. -/
theorem splitOn_ofNames_append (rooted : Bool) {names : List Bytes} (hne : names ≠ [])
    (hslash : ∀ name ∈ names, '/'.toUInt8 ∉ name) :
    Bytes.splitOn '/' (ofNames rooted names).text = (if rooted then [[]] else []) ++ names := by
  cases rooted with
  | true => exact splitOn_ofNames hne hslash
  | false => exact splitOn_join hne hslash

theorem trunk_ofNames {rooted : Bool} {names : List Bytes}
    (hslash : ∀ name ∈ names, '/'.toUInt8 ∉ name) :
    (ofNames rooted names).trunk = names.filter (· ≠ []) := by
  by_cases hne : names = []
  · rw [hne]
    cases rooted <;> decide
  · rw [trunk, Bytes.filled, splitOn_ofNames_append rooted hne hslash, List.filter_append]
    cases rooted <;> rfl

/-- A path of names has these names, if none but the last one is empty, and not that either where
it is the only one. -/
theorem names_ofNames_of_filled {rooted : Bool} {names : List Bytes}
    (hslash : ∀ name ∈ names, '/'.toUInt8 ∉ name) (hfilled : ∀ name ∈ names.dropLast, name ≠ [])
    (hhead : names.head? ≠ some []) : (ofNames rooted names).names = names := by
  by_cases hne : names = []
  · rw [hne]
    cases rooted <;> decide
  have hsplit := splitOn_ofNames_append rooted hne hslash
  have hlead : lead (ofNames rooted names).text = names.dropLast := by
    have hfilter : names.dropLast.filter (· ≠ []) = names.dropLast :=
      List.filter_eq_self.mpr fun name hname => by simpa using hfilled name hname
    rw [lead, hsplit, List.dropLast_append_of_ne_nil hne, List.filter_append, hfilter]
    cases rooted <;> rfl
  have hfinal : final (ofNames rooted names).text = names.getLast hne := by
    rw [final, hsplit, List.getLast?_append_of_ne_nil _ hne, List.getLast?_eq_some_getLast hne,
      Option.getD_some]
  rw [names_eq, hlead, hfinal, List.dropLast_append_getLast, if_neg]
  rintro ⟨hfirst, hlast⟩
  rw [← List.dropLast_append_getLast hne, hfirst, hlast] at hhead
  exact hhead rfl

theorem names_ofNames {rooted : Bool} {names : List Bytes}
    (h : ∀ name ∈ names, name ≠ [] ∧ '/'.toUInt8 ∉ name) :
    (ofNames rooted names).names = names :=
  names_ofNames_of_filled (fun name hname => (h name hname).2)
    (fun name hname => (h name (List.dropLast_subset _ hname)).1)
    fun hhead => (h [] (List.mem_of_mem_head? hhead)).1 rfl

theorem join_concat {names : List Bytes} (hne : names ≠ []) (name : Bytes) :
    Bytes.join "/" (names ++ [name]) = Bytes.join "/" names ++ "/" ++ name := by
  induction names with
  | nil => exact absurd rfl hne
  | cons first rest ih =>
    cases rest with
    | nil => rfl
    | cons next more =>
      show first ++ "/" ++ Bytes.join "/" (next :: more ++ [name]) =
        first ++ "/" ++ Bytes.join "/" (next :: more) ++ "/" ++ name
      rw [ih (List.cons_ne_nil next more)]
      simp only [List.append_assoc]

/-- The entries below names that are not empty, but for the last one, are spelled by their
names. -/
theorem ofNames_child {rooted : Bool} {names : List Bytes} (hslash : ∀ n ∈ names, '/'.toUInt8 ∉ n)
    (hfilled : ∀ n ∈ names.dropLast, n ≠ []) {name : Bytes} (hname : '/'.toUInt8 ∉ name) :
    ofNames rooted names / (⟨name⟩ : Path) = ofNames rooted (names.filter (· ≠ []) ++ [name]) := by
  by_cases hempty : (ofNames rooted names).text = []
  · -- there are no names, and the path is relative
    obtain rfl : rooted = false := by
      cases rooted with
      | true => exact absurd (List.append_eq_nil_iff.mp hempty).1 (by decide)
      | false => rfl
    have hnone : names.filter (· ≠ []) = [] := by
      rw [← @trunk_ofNames false names hslash, trunk, hempty]
      rfl
    rw [hnone, List.nil_append]
    rcases (ofNames false names).text_child hname with ⟨-, hchild⟩ | ⟨-, -, hne, -⟩
    · exact congrArg Path.mk hchild
    · exact absurd hempty hne
  have hchild : ofNames rooted names / (⟨name⟩ : Path) =
      if final (ofNames rooted names).text = [] then ⟨(ofNames rooted names).text ++ name⟩
      else ⟨(ofNames rooted names).text ++ "/" ++ name⟩ := by
    show append _ _ = _
    rw [append, isAbsolute_name hname, isEmpty, List.isEmpty_eq_false_iff.mpr hempty,
      if_neg (by simp)]
    simp only [endsWith_slash_iff hempty]
  rw [hchild]
  rcases List.eq_nil_or_concat' names with rfl | ⟨front, last, rfl⟩
  · cases rooted with
    | true =>
      rw [if_pos (by decide)]
      rfl
    | false => exact absurd rfl hempty
  have hfront : front.filter (· ≠ []) = front := by
    rw [List.dropLast_concat] at hfilled
    exact List.filter_eq_self.mpr fun n hn => by simpa using hfilled n hn
  have hlast : final (ofNames rooted (front ++ [last])).text = last := by
    rw [final, splitOn_ofNames_append rooted (by simp) hslash, ← List.append_assoc,
      List.getLast?_concat]
    rfl
  rw [hlast, List.filter_append, hfront]
  by_cases hnil : last = []
  · -- there is a slash at the end
    rw [if_pos hnil, List.filter_cons_of_neg (by simpa using hnil), List.filter_nil,
      List.append_nil]
    rw [hnil] at hempty ⊢
    by_cases hnone : front = []
    · rw [hnone] at hempty ⊢
      cases rooted with
      | true => rfl
      | false => exact absurd rfl hempty
    · simp only [ofNames, join_concat hnone, List.append_nil, List.append_assoc]
  · rw [if_neg hnil, List.filter_cons_of_pos (by simpa using hnil), List.filter_nil, ofNames,
      ofNames, join_concat (List.append_ne_nil_of_right_ne_nil _ (List.cons_ne_nil last []))]
    simp only [List.append_assoc]

/-- An absolute path without `.` and `..`, below which every entry is spelled by its names. -/
structure Canonical (p : Path) : Prop where
  absolute : p.isAbsolute = true
  solid : p.Solid
  child : ∀ name : Bytes, '/'.toUInt8 ∉ name →
    p / (⟨name⟩ : Path) = ofNames true (p.trunk ++ [name])

/-- What stays of names has no empty ones but the last. -/
theorem filled_collapse {rooted : Bool} {kept names : List Bytes} (hkept : ∀ n ∈ kept, n ≠ [])
    (hnames : ∀ n ∈ names.dropLast, n ≠ []) :
    ∀ n ∈ (collapse rooted kept names).dropLast, n ≠ [] := by
  induction names generalizing kept with
  | nil =>
    rw [collapse]
    exact fun n hn => hkept n (List.mem_reverse.mp (List.dropLast_subset _ hn))
  | cons name rest ih =>
    have hrest : ∀ n ∈ rest.dropLast, n ≠ [] := fun n hn => by
      cases rest with
      | nil => exact absurd hn List.not_mem_nil
      | cons next more => exact hnames n (List.mem_cons_of_mem _ hn)
    rw [collapse.eq_def]
    simp only
    split
    · exact ih hkept hrest
    split
    · rename_i hdots
      cases kept with
      | nil =>
        refine ih (fun n hn => ?_) hrest
        cases rooted with
        | true => exact absurd hn List.not_mem_nil
        | false =>
          rw [List.mem_singleton.mp hn, hdots]
          decide
      | cons last before =>
        simp only
        split
        · refine ih (List.forall_mem_cons.mpr ⟨?_, hkept⟩) hrest
          rw [hdots]
          decide
        · exact ih (fun n hn => hkept n (List.mem_cons_of_mem _ hn)) hrest
    split
    · exact ih hkept hrest
    · cases rest with
      | nil =>
        rw [collapse, List.reverse_cons, List.dropLast_concat]
        exact fun n hn => hkept n (List.mem_reverse.mp hn)
      | cons next more =>
        exact ih (List.forall_mem_cons.mpr ⟨hnames name List.mem_cons_self, hkept⟩) hrest

/-- **An absolute path in normal form is spelled by its names**, if the root is spelled with one
slash. -/
theorem canonical_normalize {p : Path} (habsolute : p.isAbsolute = true)
    (hroot : p.isRoot = true → p = "/") : p.normalize.Canonical := by
  refine ⟨(isAbsolute_normalize p).trans habsolute, solid_normalize p, fun name hname => ?_⟩
  obtain ⟨names, hslash, hfilled, hnames⟩ : ∃ names, (∀ n ∈ names, '/'.toUInt8 ∉ n) ∧
      (∀ n ∈ names.dropLast, n ≠ []) ∧ p.normalize = ofNames true names := by
    unfold normalize
    split
    · rename_i h
      exact ⟨[], by simp, by simp, hroot h⟩
    · refine ⟨collapse p.isAbsolute [] p.names, fun n hn => ?_, ?_, ?_⟩
      · exact slash_of_mem_names ((mem_collapse hn).resolve_left List.not_mem_nil).1
      · refine filled_collapse (by simp) fun n hn => ?_
        rw [dropLast_names] at hn
        simpa using (List.mem_filter.mp hn).2
      · rw [habsolute]
        exact if_neg (by simp)
  rw [hnames, trunk_ofNames hslash]
  exact ofNames_child hslash hfilled hname

theorem Canonical.of_child {p : Path} (h : p.Canonical) {name : Bytes} (hname : IsName name) :
    (p / (⟨name⟩ : Path)).Canonical := by
  refine ⟨(isAbsolute_child p hname.slash).trans h.absolute, h.solid.child hname, fun n hn => ?_⟩
  have hfilled : ∀ m ∈ p.trunk ++ [name], m ≠ [] ∧ '/'.toUInt8 ∉ m := by
    intro m hm
    rcases List.mem_append.mp hm with hm | hm
    · exact ⟨ne_nil_of_mem_trunk hm, slash_of_mem_names (mem_names_of_mem_trunk hm)⟩
    · rw [List.mem_singleton.mp hm]
      exact ⟨hname.ne_nil, hname.slash⟩
  rw [trunk_child p hname.slash hname.ne_nil, h.child name hname.slash,
    ofNames_child (fun m hm => (hfilled m hm).2)
      (fun m hm => (hfilled m (List.dropLast_subset _ hm)).1) hn,
    List.filter_eq_self.mpr fun m hm => by simpa using (hfilled m hm).1]

/-! ### What leads to a path, by its trunk -/

theorem trunk_child_nil (p : Path) : (p / (⟨[]⟩ : Path)).trunk = p.trunk := by
  have hslash : '/'.toUInt8 ∉ ([] : Bytes) := List.not_mem_nil
  rcases text_child p hslash with ⟨hempty, hchild⟩ | ⟨stem, hstem, -, -, hchild⟩
  · rw [trunk, hchild, trunk, hempty]
  · rw [trunk, hchild, Bytes.filled_append_cons, hstem]
    exact List.append_nil _

theorem trunk_of_mem_through {p x : Path} {names : List Bytes} (hx : x ∈ p.through names)
    (hslash : ∀ name ∈ names, '/'.toUInt8 ∉ name) :
    x.trunk <+: p.trunk ++ names.filter (· ≠ []) := by
  induction names generalizing p with
  | nil => exact absurd hx List.not_mem_nil
  | cons name rest ih =>
    have hname := hslash name List.mem_cons_self
    have hchild : (p / (⟨name⟩ : Path)).trunk ++ rest.filter (· ≠ []) =
        p.trunk ++ (name :: rest).filter (· ≠ []) := by
      by_cases hnil : name = []
      · rw [hnil, trunk_child_nil, List.filter_cons_of_neg (by simp)]
      · rw [trunk_child p hname hnil, List.filter_cons_of_pos (by simpa using hnil),
          List.append_assoc, List.singleton_append]
    rcases List.mem_cons.mp hx with rfl | hx
    · rw [← hchild]
      exact List.prefix_append _ _
    · rw [← hchild]
      exact ih hx fun n hn => hslash n (List.mem_cons_of_mem _ hn)

theorem filter_names (p : Path) : p.names.filter (· ≠ []) = p.trunk := by
  have htrunk : p.trunk.filter (· ≠ []) = p.trunk :=
    List.filter_eq_self.mpr fun n hn => by simpa using ne_nil_of_mem_trunk hn
  rw [names_eq_trunk]
  split
  · rw [List.filter_append, htrunk, List.filter_cons_of_neg (by simp), List.filter_nil,
      List.append_nil]
  · exact htrunk

theorem trunk_of_mem_prefixes {p x : Path} (hx : x ∈ p.prefixes) : x.trunk <+: p.trunk := by
  have hslash : ∀ name ∈ p.names, '/'.toUInt8 ∉ name := fun name hname =>
    slash_of_mem_names hname
  rw [prefixes] at hx
  split at hx
  · rcases List.mem_cons.mp hx with rfl | hx
    · exact List.nil_prefix
    · have hthrough := trunk_of_mem_through hx hslash
      rwa [filter_names] at hthrough
  · have hthrough := trunk_of_mem_through hx hslash
    rwa [filter_names] at hthrough

/-- The normal form of a path without `.` and `..` has the same names. -/
theorem Canonical.trunk_normalize {p : Path} (h : p.Canonical) : p.normalize.trunk = p.trunk := by
  unfold normalize
  split
  · rfl
  have hstands : ∀ n ∈ p.names, Stands n := by
    intro n hn
    rw [names_eq_trunk] at hn
    split at hn
    · rcases List.mem_append.mp hn with hn | hn
      · exact h.solid h.absolute n hn
      · rw [List.mem_singleton.mp hn]
        decide
    · exact h.solid h.absolute n hn
  rw [h.absolute, collapse_of_forall_stands hstands (.inr p.head?_names)]
  simp only [Bool.not_true, Bool.false_eq_true, and_false, if_false, List.reverse_nil,
    List.nil_append]
  rw [trunk_ofNames fun n hn => slash_of_mem_names hn, filter_names]

theorem dropCommon_append (a b : List Bytes) : dropCommon (a ++ b) a = (b, []) := by
  induction a with
  | nil => cases b <;> rfl
  | cons first rest ih => rw [List.cons_append, dropCommon, if_pos rfl, ih]

end Path

namespace IgnoreRule

/-- **A rule is about paths that have more names than its base.** -/
theorem strict_of_subject? {r : IgnoreRule} {p : Path} (h : (r.subject? p).isSome = true)
    (hbase : ∀ name ∈ r.base.names, name ≠ [] ∧ Path.Stands name) :
    r.base.names <+: p.trunk ∧ p.trunk ≠ r.base.names := by
  obtain ⟨hbelow, hne⟩ := below_of_subject? h hbase
  have hnames := p.names_eq_trunk
  split at hnames
  · -- with a slash at its end, the base is no way to itself either
    rw [hnames] at hbelow hne
    refine ⟨(List.prefix_concat_iff.mp hbelow).resolve_left (Ne.symm hne), fun heq => ?_⟩
    have hdot : p.lexicallyRelative r.base = "." := by
      unfold Path.lexicallyRelative
      rw [if_neg (not_not_intro (isAbsolute_of_subject? h)), hnames, heq, Path.dropCommon_append]
      rfl
    unfold subject? at h
    rw [hdot, if_pos (.inr (.inl (by decide)))] at h
    exact absurd h (by simp)
  · rw [hnames] at hbelow hne
    exact ⟨hbelow, hne⟩

end IgnoreRule

/-! ### The ignore file of a directory -/

namespace Walker

variable (w : Walker)

/-- The ignore file of the directory of the given names. -/
def ignoreFile (names : List Bytes) : Path :=
  Path.ofNames true (names ++ [w.options.ignoreFileName])

/-- The directory of the given names has an ignore file. -/
def Has (names : List Bytes) : Prop :=
  w.options.ignoreFileName ≠ [] ∧ w.disk.isFile (w.ignoreFile names) = true

/-- The rules of this file. -/
def own (names : List Bytes) : IgnoreRules := (IgnoreRules.addFile w.disk (w.ignoreFile names) []).1

/-- What is wrong with this file. -/
def fault (names : List Bytes) : Option Error :=
  (IgnoreRules.addFile w.disk (w.ignoreFile names) []).2

theorem addFile_ignoreFile (names : List Bytes) (rules : IgnoreRules) :
    rules.addFile w.disk (w.ignoreFile names) = (rules ++ w.own names, w.fault names) := by
  obtain ⟨more, fault, -, hadd⟩ := IgnoreRules.exists_addFile w.disk (w.ignoreFile names)
  rw [own, Walker.fault, hadd, hadd]
  rfl

variable {w} (hslash : '/'.toUInt8 ∉ w.options.ignoreFileName)
include hslash

theorem ignoreFile_eq {p : Path} (hp : p.Canonical) :
    p / (⟨w.options.ignoreFileName⟩ : Path) = w.ignoreFile p.trunk := hp.child _ hslash

/-- **A walk takes the ignore file of a directory in.** -/
theorem enter_new {p : Path} (hp : p.Canonical) {s : Walk} (hhas : w.Has p.trunk)
    (hnew : s.loaded.contains (w.ignoreFile p.trunk).key = false) :
    w.enter p s = (w.fault p.trunk).elim
      (Except.ok { s with
        rules := s.rules ++ w.own p.trunk, loaded := s.loaded.add (w.ignoreFile p.trunk) })
      Except.error := by
  rw [enter, ignoreFile_eq hslash hp, addFile_ignoreFile]
  simp only [hhas.1, hhas.2, hnew]
  cases w.fault p.trunk <;> rfl

/-- It does not if there is none, or if it has. -/
theorem enter_known {p : Path} (hp : p.Canonical) {s : Walk}
    (h : w.Has p.trunk → s.loaded.contains (w.ignoreFile p.trunk).key = true) :
    w.enter p s = .ok s := by
  rw [enter, ignoreFile_eq hslash hp]
  refine if_pos ?_
  by_contra hnot
  obtain ⟨hname, hnot⟩ := not_or.mp hnot
  obtain ⟨hfile, hloaded⟩ := not_or.mp hnot
  exact hloaded (h ⟨hname, by simpa using hfile⟩)

variable (hnone : w.options.ignoreFileName ≠ [])
include hnone

theorem key_ignoreFile {names : List Bytes} (h : ∀ n ∈ names, Path.IsName n) :
    (w.ignoreFile names).key = ⟨true, names ++ [w.options.ignoreFileName]⟩ := by
  have hnames := @Path.names_ofNames true (names ++ [w.options.ignoreFileName]) fun n hn => by
    rcases List.mem_append.mp hn with hn | hn
    · exact ⟨(h n hn).ne_nil, (h n hn).slash⟩
    · rw [List.mem_singleton.mp hn]
      exact ⟨hnone, hslash⟩
  rw [Path.key, ignoreFile, hnames]
  rfl

/-- Directories with one ignore file are one. -/
theorem ignoreFile_inj {names names' : List Bytes} (h : ∀ n ∈ names, Path.IsName n)
    (h' : ∀ n ∈ names', Path.IsName n)
    (hkey : (w.ignoreFile names).key = (w.ignoreFile names').key) : names = names' := by
  rw [key_ignoreFile hslash hnone h, key_ignoreFile hslash hnone h'] at hkey
  exact List.append_cancel_right (Path.Key.mk.inj hkey).2

/-- **The rules of a directory are about paths below it alone.** -/
theorem strict_of_applies {names : List Bytes} (h : ∀ n ∈ names, Path.IsName n) {r : IgnoreRule}
    (hr : r ∈ w.own names) {q : Path} {isDirectory : Bool}
    (happlies : r.applies q isDirectory = true) :
    q.isAbsolute = true ∧ names <+: q.trunk ∧ q.trunk ≠ names := by
  obtain ⟨more, fault, hbase, hadd⟩ := IgnoreRules.exists_addFile w.disk (w.ignoreFile names)
  have habsolute : (w.ignoreFile names).isAbsolute = true := rfl
  have hplain : ∀ n ∈ names, n ≠ [] ∧ Path.Stands n := fun n hn =>
    ⟨(h n hn).ne_nil, (h n hn).stands⟩
  have hnormal {x : Path} (hx : x.key = ⟨true, names⟩) : x.normalize.key = ⟨true, names⟩ := by
    have hnames : x.names = names := congrArg Path.Key.names hx
    exact (Path.key_normalize_of_plain (congrArg Path.Key.rooted hx) (hnames ▸ hplain)).trans hx
  -- the base of the rules is the directory that the file is in
  have hparent : (w.ignoreFile names).parent.key = ⟨true, names⟩ := by
    have hnames := congrArg Path.Key.names (key_ignoreFile hslash hnone h)
    rw [Path.key_names] at hnames
    rw [Path.key_parent, habsolute, hnames, List.dropLast_concat]
  have hr : r ∈ more := by
    rw [own, hadd, List.nil_append] at hr
    exact hr
  have hkey : r.base.key = ⟨true, names⟩ := by
    rw [hbase r hr, Path.append_of_isAbsolute _ habsolute]
    exact hnormal (hnormal hparent)
  have hnames : r.base.names = names := congrArg Path.Key.names hkey
  have hsubject := IgnoreRule.isSome_of_applies happlies
  refine ⟨(IgnoreRule.isAbsolute_of_subject? hsubject).trans (congrArg Path.Key.rooted hkey), ?_⟩
  rw [← hnames]
  exact IgnoreRule.strict_of_subject? hsubject (hnames ▸ hplain)

end Walker

end ScriptLint
