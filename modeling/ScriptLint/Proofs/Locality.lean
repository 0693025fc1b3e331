/-
What the rules of an ignore file are about.

A walk adds the rules of ignore files to one list as it comes to them.  The rules that it
adds in a directory are about paths below this directory, so they say nothing about the
other entries beside it, nor about what leads to these:

* **`Path.Along`** — a path leads to another one, or is below it;
* **`IgnoreRule.Within`** — a rule says nothing about what is not below a path;
* **`IgnoreRules.within_addFile`** — the rules of an ignore file are within its directory;
* **`Walk.Alike`** — two states of a walk know the same about a path and what is below it;
* **`Walk.Grown.alike`** — what is learned within an entry changes nothing for the others.
-/
import ScriptLint.Collect
import ScriptLint.Proofs.Reordering

namespace ScriptLint

namespace Path

/-! ### Paths around an entry -/

/-- The names of an absolute path stand for themselves. -/
def Solid (p : Path) : Prop := p.isAbsolute = true → ∀ name ∈ p.trunk, Stands name

/-- The other path leads to this one or is below it, as far as absolute paths go. -/
def Along (p q : Path) : Prop :=
  q.isAbsolute = p.isAbsolute ∧ (p.isAbsolute = true → q.names <+: p.trunk ∨ p.trunk <+: q.names)

variable {p q : Path} {name name' : Bytes}

theorem solid_normalize (p : Path) : p.normalize.Solid := fun habsolute _ hname =>
  stands_of_mem_normalize ((isAbsolute_normalize p).symm.trans habsolute) hname

theorem Solid.child (h : p.Solid) (hname : IsName name) : (p / (⟨name⟩ : Path)).Solid := by
  intro habsolute n hn
  rw [isAbsolute_child p hname.slash] at habsolute
  rw [trunk_child p hname.slash hname.ne_nil] at hn
  rcases List.mem_append.mp hn with hn | hn
  · exact h habsolute n hn
  · rw [List.mem_singleton.mp hn]
    exact hname.stands

theorem Along.of_child (hname : IsName name) (h : (p / (⟨name⟩ : Path)).Along q) : p.Along q := by
  obtain ⟨hsame, hnames⟩ := h
  rw [isAbsolute_child p hname.slash] at hsame hnames
  refine ⟨hsame, fun habsolute => ?_⟩
  rw [trunk_child p hname.slash hname.ne_nil] at hnames
  rcases hnames habsolute with hq | hq
  · exact List.prefix_or_prefix_of_prefix hq (List.prefix_append _ _)
  · exact .inr ((List.prefix_append _ _).trans hq)

/-- What leads to the normal form of an entry's path lies along the entry. -/
theorem Solid.along_of_mem_prefixes (h : p.Solid) (hname : IsName name)
    (hq : q ∈ (p / (⟨name⟩ : Path)).normalize.prefixes) : (p / (⟨name⟩ : Path)).Along q := by
  obtain ⟨hsame, hbegins⟩ := of_mem_prefixes hq
  rw [isAbsolute_normalize] at hsame
  refine ⟨hsame, fun habsolute => ?_⟩
  have hnames : (p / (⟨name⟩ : Path)).names = (p / (⟨name⟩ : Path)).trunk := by
    rw [names_child p hname.slash hname.ne_nil, trunk_child p hname.slash hname.ne_nil]
  have hplain : ∀ n ∈ (p / (⟨name⟩ : Path)).names, n ≠ [] ∧ Stands n := fun n hn =>
    ⟨ne_nil_of_mem_trunk (hnames ▸ hn), h.child hname habsolute n (hnames ▸ hn)⟩
  have hsame : (p / (⟨name⟩ : Path)).normalize.names = (p / (⟨name⟩ : Path)).names :=
    names_congr (key_normalize_of_plain habsolute hplain)
  rw [hsame] at hbegins
  exact .inl (hnames ▸ hbegins fun n hn => (hplain n hn).1)

/-- Nothing is below two entries. -/
theorem eq_of_below (hname : IsName name) (hname' : IsName name') {names : List Bytes}
    (h : (p / (⟨name⟩ : Path)).trunk <+: names) (h' : (p / (⟨name'⟩ : Path)).trunk <+: names) :
    name = name' := by
  rw [trunk_child p hname.slash hname.ne_nil] at h
  rw [trunk_child p hname'.slash hname'.ne_nil] at h'
  have hlength : (p.trunk ++ [name]).length = (p.trunk ++ [name']).length := by simp
  have heq := (List.prefix_of_prefix_length_le h h' hlength.le).eq_of_length hlength
  exact List.singleton_inj.mp (List.append_cancel_left heq)

/-- What is along an entry is not below another one. -/
theorem Along.not_below (hname : IsName name) (hname' : IsName name') (hne : name ≠ name')
    (habsolute : p.isAbsolute = true) (h : (p / (⟨name'⟩ : Path)).Along q)
    (hbelow : (p / (⟨name⟩ : Path)).trunk <+: q.names) : q.names = (p / (⟨name⟩ : Path)).trunk := by
  rcases h.2 ((isAbsolute_child p hname'.slash).trans habsolute) with hq | hq
  · exact absurd (eq_of_below hname hname' (hbelow.trans hq) (List.prefix_refl _)) hne
  · exact absurd (eq_of_below hname hname' hbelow hq) hne

end Path

/-! ### Rules within a path -/

/-- The rule applies to nothing but absolute paths below the path, if that is absolute. -/
def IgnoreRule.Within (p : Path) (r : IgnoreRule) : Prop :=
  ∀ q isDirectory, r.applies q isDirectory = true → q.isAbsolute = true ∧
    (p.isAbsolute = true → p.trunk <+: q.names ∧ q.names ≠ p.trunk)

namespace IgnoreRule

variable {p q : Path} {name name' : Bytes} {r : IgnoreRule}

theorem Within.of_child (hname : Path.IsName name) (h : r.Within (p / (⟨name⟩ : Path))) :
    r.Within p := by
  intro q isDirectory happlies
  obtain ⟨habsolute, hbelow⟩ := h q isDirectory happlies
  rw [Path.isAbsolute_child p hname.slash, Path.trunk_child p hname.slash hname.ne_nil] at hbelow
  refine ⟨habsolute, fun hp => ⟨(List.prefix_append _ _).trans (hbelow hp).1, fun heq => ?_⟩⟩
  -- the path has a name more
  have hlength := (hbelow hp).1.length_le
  rw [heq, List.length_append, List.length_singleton] at hlength
  omega

/-- **Rules within an entry say nothing about the others.** -/
theorem Within.apart (hname : Path.IsName name) (hname' : Path.IsName name') (hne : name ≠ name')
    (h : r.Within (p / (⟨name⟩ : Path))) (hq : (p / (⟨name'⟩ : Path)).Along q)
    (isDirectory : Bool) : r.applies q isDirectory = false := by
  by_contra happlies
  obtain ⟨habsolute, hbelow⟩ := h q isDirectory ((Bool.not_eq_false _).mp happlies)
  have hp : p.isAbsolute = true := by
    rw [← Path.isAbsolute_child p hname'.slash, ← hq.1, habsolute]
  obtain ⟨hbegins, hmore⟩ := hbelow ((Path.isAbsolute_child p hname.slash).trans hp)
  exact hmore (hq.not_below hname hname' hne hp hbegins)

/-- The rules of a line have the normal form of the base that was given. -/
theorem base_of_read {line : Bytes} {base : Path} (h : read line base = .ok (some r)) :
    r.base = base.normalize := by
  unfold read at h
  extract_lets line at h
  split at h
  · simp at h
  split at h
  · simp at h
  split at h
  · simp at h
  · rw [← Option.some.inj (Except.ok.inj h)]

end IgnoreRule

namespace IgnoreRules

variable {p q : Path} {rules more : IgnoreRules}

theorem verdict_append_of_apart {isDirectory : Bool}
    (h : ∀ r ∈ more, r.applies q isDirectory = false) :
    (rules ++ more).verdict q isDirectory = rules.verdict q isDirectory := by
  rw [verdict, List.foldl_append, ← verdict]
  generalize rules.verdict q isDirectory = ignored
  induction more generalizing ignored with
  | nil => rfl
  | cons r more ih =>
    rw [List.foldl_cons, h r List.mem_cons_self]
    exact ih (fun r hr => h r (List.mem_cons_of_mem _ hr)) ignored

/-- The same rules added to rules that agree agree. -/
theorem verdict_append_congr {rules' : IgnoreRules} {isDirectory : Bool}
    (h : rules.verdict q isDirectory = rules'.verdict q isDirectory) (more : IgnoreRules) :
    (rules ++ more).verdict q isDirectory = (rules' ++ more).verdict q isDirectory := by
  unfold verdict at h ⊢
  rw [List.foldl_append, List.foldl_append, h]

/-- Where the verdicts about what leads to a path agree, so do those about the path. -/
theorem isIgnored_congr {rules' : IgnoreRules} {isDirectory : Bool}
    (h : ∀ q ∈ p.normalize.prefixes, ∀ b, rules.verdict q b = rules'.verdict q b) :
    rules.isIgnored p isDirectory = rules'.isIgnored p isDirectory := by
  unfold isIgnored
  have hreverse : ∀ q ∈ p.normalize.prefixes.reverse, ∀ b,
      rules.verdict q b = rules'.verdict q b := fun q hq => h q (List.mem_reverse.mp hq)
  generalize p.normalize.prefixes.reverse = paths at hreverse ⊢
  cases paths with
  | nil => rfl
  | cons last above =>
    have hany : (above.any fun q => rules.verdict q true) =
        above.any fun q => rules'.verdict q true := by
      rw [Bool.eq_iff_iff, List.any_eq_true, List.any_eq_true]
      refine exists_congr fun q => and_congr_right fun hq => ?_
      rw [hreverse q (List.mem_cons_of_mem _ hq) true]
    simp only [hany, hreverse last List.mem_cons_self]

/-- What the lines of an ignore file add does not depend on what they are added to. -/
theorem exists_addLines (file base : Path) (number : Nat) (lines : List Bytes) :
    ∃ (more : IgnoreRules) (fault : Option Error), (∀ r ∈ more, r.base = base.normalize) ∧
      ∀ rules, addLines file base number rules lines = (rules ++ more, fault) := by
  induction lines generalizing number with
  | nil => exact ⟨[], none, by simp, fun rules => by rw [addLines, List.append_nil]⟩
  | cons line rest ih =>
    obtain ⟨more, fault, hbase, hadd⟩ := ih (number + 1)
    cases hread : IgnoreRule.read line base with
    | error e =>
      refine ⟨[], some (e.error.inContext (file.text ++ ":" ++ Bytes.decimal number)), by simp,
        fun rules => ?_⟩
      rw [addLines, add, hread, List.append_nil]
      rfl
    | ok rule =>
      refine ⟨rule.toList ++ more, fault, fun r hr => ?_, fun rules => ?_⟩
      · rcases List.mem_append.mp hr with hr | hr
        · exact IgnoreRule.base_of_read (hread.trans (congrArg _ (Option.mem_toList.mp hr)))
        · exact hbase r hr
      · rw [addLines, add, hread]
        exact (hadd (rules ++ rule.toList)).trans (by rw [List.append_assoc])

/-- Neither does what an ignore file adds. -/
theorem exists_addFile (d : Disk) (file : Path) :
    ∃ (more : IgnoreRules) (fault : Option Error),
      (∀ r ∈ more, r.base = (d.directory / file).parent.normalize.normalize) ∧
      ∀ rules : IgnoreRules, rules.addFile d file = (rules ++ more, fault) := by
  unfold addFile
  by_cases hfile : d.isFile file = true
  · cases hread : d.read file with
    | error e =>
      refine ⟨[], some ⟨.disk, "Failed to open ignore file", some file.text⟩, by simp,
        fun rules => ?_⟩
      simp [hfile]
    | ok text =>
      obtain ⟨more, fault, hbase, hadd⟩ :=
        exists_addLines file (d.directory / file).parent.normalize 1 (Bytes.lines text)
      refine ⟨more, fault, hbase, fun rules => ?_⟩
      simp [hfile, hadd]
  · refine ⟨[], some ⟨.notFound, "Ignore file not found", some file.text⟩, by simp,
      fun rules => ?_⟩
    simp [hfile]

end IgnoreRules

/-! ### States of a walk -/

namespace Walk

/-- The states know the same about what is along a path, and about the ignore files below
it. -/
structure Alike (p : Path) (s s' : Walk) : Prop where
  verdict : ∀ q, p.Along q → ∀ isDirectory,
    s.rules.verdict q isDirectory = s'.rules.verdict q isDirectory
  loaded : ∀ k : Path.Key, p.trunk <+: k.names → s.loaded.contains k = s'.loaded.contains k

/-- The second state knows more rules than the first one, and all of these, as well as the
ignore files that it knows more, are within the path. -/
structure Grown (p : Path) (s t : Walk) : Prop where
  rules : ∃ more : IgnoreRules, t.rules = s.rules ++ more ∧ ∀ r ∈ more, r.Within p
  loaded : ∀ k : Path.Key, ¬p.trunk <+: k.names → s.loaded.contains k = t.loaded.contains k

variable {p : Path} {s s' t u : Walk} {name name' : Bytes}

theorem Alike.refl (p : Path) (s : Walk) : Alike p s s := ⟨fun _ _ _ => rfl, fun _ _ => rfl⟩

theorem Alike.trans (h : Alike p s t) (h' : Alike p t u) : Alike p s u where
  verdict q hq b := (h.verdict q hq b).trans (h'.verdict q hq b)
  loaded k hk := (h.loaded k hk).trans (h'.loaded k hk)

/-- States that know the same about a directory know the same about its entries. -/
theorem Alike.child (h : Alike p s t) (hname : Path.IsName name) :
    Alike (p / (⟨name⟩ : Path)) s t where
  verdict q hq := h.verdict q (hq.of_child hname)
  loaded k hk := by
    rw [Path.trunk_child p hname.slash hname.ne_nil] at hk
    exact h.loaded k ((List.prefix_append _ _).trans hk)

theorem Grown.refl (p : Path) (s : Walk) : Grown p s s :=
  ⟨⟨[], (List.append_nil _).symm, by simp⟩, fun _ _ => rfl⟩

theorem Grown.trans (h : Grown p s t) (h' : Grown p t u) : Grown p s u := by
  obtain ⟨more, hmore, hwithin⟩ := h.rules
  obtain ⟨more', hmore', hwithin'⟩ := h'.rules
  refine ⟨⟨more ++ more', by rw [hmore', hmore, List.append_assoc], fun r hr => ?_⟩,
    fun k hk => (h.loaded k hk).trans (h'.loaded k hk)⟩
  exact (List.mem_append.mp hr).elim (hwithin r) (hwithin' r)

theorem Grown.of_child (hname : Path.IsName name) (h : Grown (p / (⟨name⟩ : Path)) s t) :
    Grown p s t := by
  obtain ⟨more, hmore, hwithin⟩ := h.rules
  refine ⟨⟨more, hmore, fun r hr => (hwithin r hr).of_child hname⟩, fun k hk => h.loaded k ?_⟩
  rw [Path.trunk_child p hname.slash hname.ne_nil]
  exact fun hbegins => hk ((List.prefix_append _ _).trans hbegins)

/-- **What is learned within an entry changes nothing for the others.** -/
theorem Grown.alike (hname : Path.IsName name) (hname' : Path.IsName name') (hne : name ≠ name')
    (h : Grown (p / (⟨name⟩ : Path)) s t) : Alike (p / (⟨name'⟩ : Path)) s t := by
  obtain ⟨more, hmore, hwithin⟩ := h.rules
  refine ⟨fun q hq b => ?_, fun k hk => h.loaded k fun hk' => ?_⟩
  · rw [hmore, IgnoreRules.verdict_append_of_apart fun r hr =>
      (hwithin r hr).apart hname hname' hne hq b]
  · exact hne (Path.eq_of_below hname hname' hk' hk)

/-- States that know the same about an entry agree on whether it is ignored. -/
theorem Alike.isIgnored (hp : p.Solid) (hname : Path.IsName name)
    (h : Alike (p / (⟨name⟩ : Path)) s t) (isDirectory : Bool) :
    s.rules.isIgnored (p / (⟨name⟩ : Path)) isDirectory =
      t.rules.isIgnored (p / (⟨name⟩ : Path)) isDirectory :=
  IgnoreRules.isIgnored_congr fun q hq => h.verdict q (hp.along_of_mem_prefixes hname hq)

end Walk

namespace Path

theorem isAbsolute_append_of_isAbsolute {p : Path} (h : p.isAbsolute = true) (q : Path) :
    (p / q).isAbsolute = true := by
  have hne : p.text ≠ [] := fun hnil => by
    rw [(text_eq_nil_iff p).mp hnil |>.1] at h
    exact absurd h (by simp)
  show (append p q).isAbsolute = true
  unfold append
  split
  · rename_i hq
    rw [isEmpty, List.isEmpty_eq_false_iff.mpr hne, Bool.or_false] at hq
    exact hq
  split
  · exact (isAbsolute_append _ hne).trans h
  · rw [List.append_assoc]
    exact (isAbsolute_append _ hne).trans h

/-- Below an absolute path the working directory does not matter. -/
theorem append_of_isAbsolute (p : Path) {q : Path} (h : q.isAbsolute = true) : p / q = q := by
  show append p q = q
  rw [append, h, Bool.true_or, if_pos rfl]

end Path

/-- **The rules of an ignore file are within its directory.** -/
theorem IgnoreRules.within_addFile {d : Disk} {p : Path} {name fileName : Bytes} (hp : p.Solid)
    (hname : Path.IsName name) (hfile : fileName ≠ []) (hslash : '/'.toUInt8 ∉ fileName)
    {r : IgnoreRule} (hr : r.base = (d.directory / ((p / (⟨name⟩ : Path)) /
      (⟨fileName⟩ : Path))).parent.normalize.normalize) : r.Within (p / (⟨name⟩ : Path)) := by
  obtain ⟨folder, hfolder⟩ : ∃ folder : Path, folder = p / (⟨name⟩ : Path) := ⟨_, rfl⟩
  have hsolid : folder.Solid := hfolder ▸ hp.child hname
  have habove (x : Path) : x.parent.isAbsolute = x.isAbsolute :=
    congrArg Path.Key.rooted (Path.key_parent x)
  rw [← hfolder] at hr ⊢
  have hroot : d.directory.isAbsolute = true := rfl
  have hbase : r.base.isAbsolute = true := by
    rw [hr, Path.isAbsolute_normalize, Path.isAbsolute_normalize, habove]
    exact Path.isAbsolute_append_of_isAbsolute hroot _
  intro q isDirectory happlies
  have hsubject := IgnoreRule.isSome_of_applies happlies
  refine ⟨(IgnoreRule.isAbsolute_of_subject? hsubject).trans hbase, fun habsolute => ?_⟩
  -- the base of the rules is the directory that the file is in
  have hparent : (folder / (⟨fileName⟩ : Path)).parent.key = ⟨true, folder.trunk⟩ := by
    rw [Path.key_parent, Path.isAbsolute_child folder hslash, habsolute,
      Path.names_child folder hslash hfile, List.dropLast_concat]
  have hplain {x : Path} (hx : x.key = ⟨true, folder.trunk⟩) :
      x.normalize.key = ⟨true, folder.trunk⟩ := by
    have hnames : x.names = folder.trunk := congrArg Path.Key.names hx
    refine (Path.key_normalize_of_plain (congrArg Path.Key.rooted hx) fun n hn => ?_).trans hx
    exact ⟨Path.ne_nil_of_mem_trunk (hnames ▸ hn), hsolid habsolute n (hnames ▸ hn)⟩
  rw [Path.append_of_isAbsolute _ ((Path.isAbsolute_child folder hslash).trans habsolute)] at hr
  have hnames : r.base.names = folder.trunk := by
    rw [hr]
    exact congrArg Path.Key.names (hplain (hplain hparent))
  rw [← hnames]
  refine IgnoreRule.below_of_subject? hsubject fun n hn => ?_
  exact ⟨Path.ne_nil_of_mem_trunk (hnames ▸ hn), hsolid habsolute n (hnames ▸ hn)⟩

end ScriptLint
