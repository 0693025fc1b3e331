/-
Ignored directories.

Whether a path is ignored is asked of everything that leads to its normal form.  What leads to a
directory also leads to all that is below it, and every time as a directory; so no rule opens an
ignored directory again.  And what a rule is about has more names than its base, so that the rule
does not matter for what has not:

* **`Path.LiesBelow`** — a path is below another one, both in normal form;
* **`Path.prefixes_of_below`** — what leads to a directory leads to the paths below it;
* **`IgnoreRule.below_of_solid`** — what a rule is about lies below its base, also if that is
  spelled with a slash at its end;
* **`IgnoreRules.keeps_closed`** — the two facts about every list of rules.
-/
import ScriptLint.Proofs.Folders

namespace ScriptLint

namespace Path

/-- In normal form, the path has all the names of the other one, and more behind them.  A slash
at the end makes no difference. -/
structure LiesBelow (p base : Path) : Prop where
  rooted : p.isAbsolute = base.isAbsolute
  begins : base.normalize.trunk <+: p.normalize.trunk
  more : p.normalize.trunk ≠ base.normalize.trunk

instance (p base : Path) : Decidable (p.LiesBelow base) :=
  decidable_of_iff (p.isAbsolute = base.isAbsolute ∧
      base.normalize.trunk <+: p.normalize.trunk ∧ p.normalize.trunk ≠ base.normalize.trunk)
    ⟨fun h => ⟨h.1, h.2.1, h.2.2⟩, fun h => ⟨h.rooted, h.begins, h.more⟩⟩

variable {p base : Path}

/-! ### What leads to a path -/

theorem through_append (p : Path) (front back : List Bytes) : p.through (front ++ back) =
    p.through front ++ (front.foldl (fun (q : Path) name => q / (⟨name⟩ : Path)) p).through back := by
  induction front generalizing p with
  | nil => rfl
  | cons name rest ih => rw [List.cons_append, through, through, ih]; rfl

/-- Without a slash at the end, no name of a normal form is empty. -/
theorem names_normalize (habsolute : p.isAbsolute = true)
    (hslash : Bytes.endsWith p.text "/" = false) : p.normalize.names = p.normalize.trunk := by
  have htext : p.text ≠ [] := fun hnil => by
    rw [isAbsolute, hnil] at habsolute
    exact absurd habsolute (by decide)
  have hfinal : final p.text ≠ [] := fun hnil => by
    rw [(endsWith_slash_iff htext).mpr hnil] at hslash
    exact absurd hslash (by simp)
  have hfilled : ∀ name ∈ p.names, name ≠ [] := by
    intro name hname
    rw [names_eq, if_neg fun hnil => hfinal hnil.2] at hname
    rcases List.mem_append.mp hname with hname | hname
    · simpa using (List.mem_filter.mp hname).2
    · rwa [List.mem_singleton.mp hname]
  have hroot : ¬p.isRoot = true := fun hroot => by
    have hnames := ((isRoot_iff p).mp hroot).2
    rw [names_eq, if_neg fun hnil => hfinal hnil.2] at hnames
    exact List.append_ne_nil_of_right_ne_nil _ (List.cons_ne_nil _ _) hnames
  have hmem : ∀ name ∈ collapse true [] p.names, name ≠ [] ∧ '/'.toUInt8 ∉ name := by
    intro name hname
    have hname := ((mem_collapse hname).resolve_left List.not_mem_nil).1
    exact ⟨hfilled name hname, slash_of_mem_names hname⟩
  have hnormalize : p.normalize = ofNames true (collapse true [] p.names) := by
    rw [normalize, if_neg hroot, habsolute]
    exact if_neg (by simp)
  rw [hnormalize, names_ofNames hmem, trunk_ofNames fun name hname => (hmem name hname).2]
  exact (List.filter_eq_self.mpr fun name hname => by simpa using (hmem name hname).1).symm

/-- **What leads to a directory leads to the paths below it**, and these are not the last to
come. -/
theorem prefixes_of_below {folder : Path} (habsolute : folder.isAbsolute = true)
    (hslash : Bytes.endsWith folder.text "/" = false) (h : p.LiesBelow folder) :
    folder.normalize.prefixes <+: p.normalize.prefixes.dropLast := by
  obtain ⟨more, hmore⟩ := h.begins
  have hne : more ≠ [] := fun hnil => h.more (by rw [← hmore, hnil, List.append_nil])
  obtain ⟨name, rest, hnames⟩ : ∃ name rest,
      p.normalize.names = folder.normalize.names ++ name :: rest := by
    obtain ⟨name, rest, rfl⟩ := List.exists_cons_of_ne_nil hne
    rw [names_normalize habsolute hslash, p.normalize.names_eq_trunk, ← hmore]
    split
    · exact ⟨name, rest ++ [[]], by rw [List.append_assoc]; rfl⟩
    · exact ⟨name, rest, rfl⟩
  have hfolder : folder.normalize.isAbsolute = true := (isAbsolute_normalize folder).trans habsolute
  have hp : p.normalize.isAbsolute = true :=
    (isAbsolute_normalize p).trans (h.rooted.trans habsolute)
  rw [prefixes, prefixes, if_pos hfolder, if_pos hp, hnames, through_append, through,
    ← List.cons_append, List.dropLast_append_cons]
  exact List.prefix_append _ _

/-! ### The way from a base -/

/-- A path that goes on with nothing but a slash is no way down. -/
theorem lexicallyRelative_eq_dot (hsame : p.isAbsolute = base.isAbsolute)
    {rest above : List Bytes} (hdrop : dropCommon p.names base.names = (rest, above))
    (hlevel : descent above = 0) (hrest : rest = [] ∨ rest.head? = some []) :
    p.lexicallyRelative base = "." := by
  unfold lexicallyRelative
  rw [if_neg (not_not_intro hsame), hdrop]
  split
  · rfl
  · rename_i hpair
    obtain ⟨rfl, rfl⟩ := Prod.mk.inj hpair
    exact if_pos ⟨hlevel, hrest⟩

/-- The empty name after a slash leads nowhere. -/
theorem descent_concat_nil (names : List Bytes) : descent (names ++ [[]]) = descent names := by
  rw [descent, List.foldl_append, ← descent]
  rfl

/-- Only the last name of a path can be empty. -/
theorem eq_nil_of_names_eq {front rest : List Bytes} (h : p.names = front ++ [] :: rest) :
    rest = [] := by
  by_contra hne
  have hmem : [] ∈ p.names.dropLast := by
    rw [h, List.dropLast_append_of_ne_nil (List.cons_ne_nil _ _), List.dropLast_cons_of_ne_nil hne]
    exact List.mem_append_right _ List.mem_cons_self
  rw [dropLast_names] at hmem
  simpa using (List.mem_filter.mp hmem).2

end Path

namespace IgnoreRule

variable {r : IgnoreRule} {p : Path}

/-- The way to what a rule is about goes down. -/
theorem way_of_subject? (h : (r.subject? p).isSome = true) :
    p.lexicallyRelative r.base ≠ "." ∧ ¬(p.lexicallyRelative r.base).LeadsUp := by
  unfold subject? at h
  constructor
  · intro hdot
    rw [hdot, if_pos (.inr (.inl (by decide)))] at h
    exact absurd h (by simp)
  · intro hup
    rw [if_pos (.inr (.inr hup.names))] at h
    exact absurd h (by simp)

/-- **What a rule is about lies below its base**, whether the base has a slash at its end or
not. -/
theorem below_of_solid (h : (r.subject? p).isSome = true)
    (hbase : ∀ name ∈ r.base.trunk, Path.Stands name) :
    r.base.trunk <+: p.trunk ∧ p.trunk ≠ r.base.trunk := by
  have hplain : ∀ name ∈ r.base.trunk, name ≠ [] ∧ Path.Stands name := fun name hname =>
    ⟨Path.ne_nil_of_mem_trunk hname, hbase name hname⟩
  have hsame := isAbsolute_of_subject? h
  obtain ⟨hdot, hup⟩ := way_of_subject? h
  have hnames := r.base.names_eq_trunk
  split at hnames
  case isFalse =>
    rw [← hnames]
    exact strict_of_subject? h (hnames ▸ hplain)
  -- the names of the base end with an empty one, which the path may have or not
  obtain ⟨⟨rest, above⟩, hdrop⟩ : ∃ x, x = Path.dropCommon p.names r.base.names := ⟨_, rfl⟩
  obtain ⟨common, hp, hb⟩ := Path.dropCommon_eq hdrop.symm
  rw [hnames] at hb
  rcases List.eq_nil_or_concat' above with rfl | ⟨left, last, rfl⟩
  · rw [List.append_nil] at hb
    rw [← hb, List.append_assoc] at hp
    have hrest := Path.eq_nil_of_names_eq hp
    exact absurd (Path.lexicallyRelative_eq_dot hsame hdrop.symm rfl (.inl hrest)) hdot
  rw [← List.append_assoc] at hb
  obtain ⟨htrunk, hlast⟩ := List.append_inj' hb rfl
  obtain rfl : [] = last := List.singleton_inj.mp hlast
  have hdescent : Path.descent (left ++ [[]]) = left.length := by
    rw [Path.descent_concat_nil]
    exact Path.descent_of_stands fun name hname =>
      hplain name (htrunk ▸ List.mem_append_right _ hname)
  have hleft : left = [] := by
    by_contra hne
    have hpos := List.length_pos_iff.mpr hne
    exact hup (Path.leadsUp_of_descent hsame hdrop.symm (by omega))
  rw [hleft, List.append_nil] at htrunk
  have hrest : ¬(rest = [] ∨ rest.head? = some []) := fun hrest =>
    hdot (Path.lexicallyRelative_eq_dot hsame hdrop.symm (by rw [hdescent, hleft]; rfl) hrest)
  rw [not_or] at hrest
  obtain ⟨name, more, rfl⟩ := List.exists_cons_of_ne_nil hrest.1
  have hname : name ≠ [] := fun hnil => hrest.2 (congrArg some hnil)
  have hpath : p.trunk = r.base.trunk ++ name :: more.filter (· ≠ []) := by
    rw [← p.filter_names, hp, ← htrunk, List.filter_append,
      List.filter_eq_self.mpr fun n hn => by simpa using (hplain n hn).1,
      List.filter_cons_of_pos (by simpa using hname)]
  rw [hpath]
  refine ⟨List.prefix_append _ _, fun heq => ?_⟩
  exact List.cons_ne_nil _ _ (List.append_right_eq_self.mp heq)

end IgnoreRule

namespace IgnoreRules

variable {rules : IgnoreRules} {p : Path}

/-- A path is ignored if one of the directories that lead to it is, or itself. -/
theorem isIgnored_iff {isDirectory : Bool} : rules.isIgnored p isDirectory = true ↔
    (∃ q ∈ p.normalize.prefixes.dropLast, rules.verdict q true = true) ∨
      ∃ q ∈ p.normalize.prefixes.getLast?, rules.verdict q isDirectory = true := by
  unfold isIgnored
  rcases List.eq_nil_or_concat' p.normalize.prefixes with hnil | ⟨above, last, hconcat⟩
  · rw [hnil]
    simp
  · rw [hconcat, List.reverse_concat, List.dropLast_concat, List.getLast?_concat]
    simp

/-- A directory is ignored if one of the directories that lead to it is; itself is one of
them. -/
theorem isIgnored_directory : rules.isIgnored p true = true ↔
    ∃ q ∈ p.normalize.prefixes, rules.verdict q true = true := by
  rw [isIgnored_iff]
  rcases List.eq_nil_or_concat' p.normalize.prefixes with hnil | ⟨above, last, hconcat⟩
  · rw [hnil]
    simp
  · rw [hconcat, List.dropLast_concat, List.getLast?_concat]
    simp [or_and_right, exists_or]

/-- A rule applies to nothing that leads to a path, unless the path lies below its base. -/
theorem liesBelow_of_applies {line : Bytes} {base q : Path} {r : IgnoreRule} {isDirectory : Bool}
    (hbase : base.isAbsolute = true) (hread : IgnoreRule.read line base = .ok (some r))
    (hq : q ∈ p.normalize.prefixes) (happlies : r.applies q isDirectory = true) :
    p.LiesBelow base := by
  have hsubject := IgnoreRule.isSome_of_applies happlies
  have hrooted := IgnoreRule.isAbsolute_of_subject? hsubject
  have hsolid : ∀ name ∈ r.base.trunk, Path.Stands name := by
    rw [IgnoreRule.base_of_read hread]
    exact fun name hname => Path.stands_of_mem_normalize hbase hname
  obtain ⟨hbegins, hmore⟩ := IgnoreRule.below_of_solid hsubject hsolid
  rw [IgnoreRule.base_of_read hread] at hrooted hbegins hmore
  have hbelow := Path.trunk_of_mem_prefixes hq
  refine ⟨?_, hbegins.trans hbelow, fun heq => hmore ?_⟩
  · rw [← p.isAbsolute_normalize, ← base.isAbsolute_normalize, ← hrooted]
    exact (Path.of_mem_prefixes hq).1.symm
  · exact (hbelow.trans (heq ▸ List.prefix_refl _)).eq_of_length_le hbegins.length_le

/-- **An ignored directory stays closed, and a rule stays below its base.**  What is below an
ignored directory is ignored, whatever the rules say about it; and one more line changes nothing
for the paths that are not below its base. -/
theorem keeps_closed (rules : IgnoreRules) :
    (∀ folder : Path, folder.isAbsolute = true → Bytes.endsWith folder.text "/" = false →
      rules.isIgnored folder true = true →
      ∀ q : Path, q.LiesBelow folder → ∀ isDirectory, rules.isIgnored q isDirectory = true) ∧
    ∀ (line : Bytes) (base : Path) (more : IgnoreRules), base.isAbsolute = true →
      rules.add line base = .ok more →
      ∀ q : Path, ¬q.LiesBelow base → ∀ isDirectory,
        more.isIgnored q isDirectory = rules.isIgnored q isDirectory := by
  constructor
  · intro folder habsolute hslash hignored q hq isDirectory
    obtain ⟨x, hx, hverdict⟩ := isIgnored_directory.mp hignored
    have hprefixes := Path.prefixes_of_below habsolute hslash hq
    exact isIgnored_iff.mpr (.inl ⟨x, hprefixes.subset hx, hverdict⟩)
  · intro line base more hbase hadd q hq isDirectory
    obtain ⟨rule, hread, rfl⟩ : ∃ rule, IgnoreRule.read line base = .ok rule ∧
        rules ++ rule.toList = more := by
      rw [add] at hadd
      cases hread : IgnoreRule.read line base with
      | error fault =>
        rw [hread] at hadd
        cases hadd
      | ok rule =>
        rw [hread] at hadd
        exact ⟨rule, rfl, Except.ok.inj hadd⟩
    refine isIgnored_congr fun x hx b => verdict_append_of_apart fun r hr => ?_
    by_contra happlies
    rw [Option.mem_toList.mp hr] at hread
    exact hq (liesBelow_of_applies hbase hread hx ((Bool.not_eq_false _).mp happlies))

/-- A file that is taken back does not come out of its ignored directory, and a line about another
directory is no concern of it. -/
theorem keeps_closed_build :
    let file : Path := "/p/src/../build/keep.js"
    ∃ rules more : IgnoreRules,
      (add [] "build/" "/p").bind (·.add "!build/keep.js" "/p/") = .ok rules ∧
      rules.add "!keep.js" "/p/src/" = .ok more ∧
      rules.isIgnored "/p/./build" true = true ∧ file.LiesBelow "/p/./build" ∧
      rules.isIgnored file false = true ∧
      ¬file.LiesBelow "/p/src/" ∧ more.isIgnored file false = rules.isIgnored file false := by
  intro file
  have hread : ((add [] "build/" "/p").bind (·.add "!build/keep.js" "/p/")).toOption.any
      (fun rules => rules.isIgnored "/p/./build" true &&
        (rules.add "!keep.js" "/p/src/").toOption.isSome) = true := by decide
  cases hrules : (add [] "build/" "/p").bind (·.add "!build/keep.js" "/p/") with
  | error fault =>
    rw [hrules] at hread
    cases hread
  | ok rules =>
    rw [hrules] at hread
    obtain ⟨hignored, hmore⟩ := Bool.and_eq_true_iff.mp hread
    cases hadd : rules.add "!keep.js" "/p/src/" with
    | error fault =>
      rw [hadd] at hmore
      cases hmore
    | ok more =>
      have hbelow : file.LiesBelow "/p/./build" := by decide
      have hbeside : ¬file.LiesBelow "/p/src/" := by decide
      obtain ⟨hclosed, hbase⟩ := keeps_closed rules
      exact ⟨rules, more, rfl, hadd, hignored, hbelow,
        hclosed "/p/./build" (by decide) (by decide +kernel) hignored file hbelow false,
        hbeside, hbase "!keep.js" "/p/src/" more (by decide) hadd file hbeside false⟩

end IgnoreRules

end ScriptLint
