/-
Walks over directories that were walked before.

Where inputs overlap, a walk comes to directories whose ignore files were taken in before.  That
changes nothing, as long as these files were taken in from above to below and none was passed
over: then the rules that are about an entry are the same ones, in the same order, as in a walk
that has been told nothing.

* **`Walk.Told`** — a state has been told of some directories below another one, from above to
  below and without a gap, and knows the same otherwise;
* **`Walk.Learns`** — these are all that a walk has learned;
* **`Walker.enter_told`** — taking in an ignore file that one of the states has been told of;
* **`Walker.walk_told`** — a walk that has been told finds what the entries contribute to one
  that has not.
-/
import ScriptLint.Proofs.Folders

namespace ScriptLint

namespace IgnoreRules

variable {w : Walker} {told : List (List Bytes)} {q : Path} {isDirectory : Bool}

/-- Only the directories whose rules apply to a path matter for it. -/
theorem verdict_filter (rules : IgnoreRules) {P : List Bytes → Bool}
    (h : ∀ u ∈ told, P u = false → ∀ r ∈ w.own u, r.applies q isDirectory = false) :
    (rules ++ told.flatMap w.own).verdict q isDirectory =
      (rules ++ (told.filter P).flatMap w.own).verdict q isDirectory := by
  induction told generalizing rules with
  | nil => rfl
  | cons u rest ih =>
    have hrest := fun v hv => h v (List.mem_cons_of_mem _ hv)
    rw [List.flatMap_cons, ← List.append_assoc]
    cases hu : P u with
    | true => rw [List.filter_cons_of_pos hu, List.flatMap_cons, ← List.append_assoc, ih _ hrest]
    | false =>
      rw [List.filter_cons_of_neg (by simp [hu]), ← ih _ hrest]
      exact verdict_append_congr (verdict_append_of_apart (h u List.mem_cons_self hu)) _

end IgnoreRules

namespace Walk

/-- The second state has been told of directories below the top, from above to below and without
a gap.  About paths along the top it knows the rules of these and what the first state knows. -/
structure Told (w : Walker) (top : List Bytes) (s t : Walk) (told : List (List Bytes)) : Prop where
  within : ∀ u ∈ told, top <+: u ∧ ∀ n ∈ u, Path.IsName n
  new : ∀ u ∈ told, w.Has u ∧ w.fault u = none ∧
    s.loaded.contains (w.ignoreFile u).key = false
  ordered : told.Pairwise fun u v => ¬v <+: u
  closed : ∀ u ∈ told, ∀ v, top <+: v → v <+: u → w.Has v →
    t.loaded.contains (w.ignoreFile v).key = true
  loaded : ∀ u, top <+: u → (∀ n ∈ u, Path.IsName n) →
    (t.loaded.contains (w.ignoreFile u).key = true ↔
      s.loaded.contains (w.ignoreFile u).key = true ∨ u ∈ told)
  verdict : ∀ q : Path, q.isAbsolute = true → q.trunk <+: top ∨ top <+: q.trunk →
    ∀ isDirectory, t.rules.verdict q isDirectory =
      (s.rules ++ told.flatMap w.own).verdict q isDirectory

/-- A walk has taken in the ignore files of these directories, and nothing else. -/
structure Learns (w : Walker) (top : List Bytes) (s t : Walk) (told : List (List Bytes)) : Prop
    extends Told w top s t told where
  rules : t.rules = s.rules ++ told.flatMap w.own
  outside : ∀ u, ¬top <+: u → (∀ n ∈ u, Path.IsName n) →
    t.loaded.contains (w.ignoreFile u).key = s.loaded.contains (w.ignoreFile u).key

variable {w : Walker} {top : List Bytes} {s s' t u : Walk} {told told' : List (List Bytes)}
  {name name' : Bytes}

theorem Learns.refl (w : Walker) (top : List Bytes) (s : Walk) : Learns w top s s [] where
  within := by simp
  new := by simp
  ordered := .nil
  closed := by simp
  loaded := by simp
  verdict q _ _ b := by rw [List.flatMap_nil, List.append_nil]
  rules := by rw [List.flatMap_nil, List.append_nil]
  outside _ _ _ := rfl

theorem Learns.mono (h : Learns w top s t told) {v : List Bytes} (hv : ∀ n ∈ v, Path.IsName n)
    (hs : s.loaded.contains (w.ignoreFile v).key = true) :
    t.loaded.contains (w.ignoreFile v).key = true := by
  by_cases hwithin : top <+: v
  · exact (h.loaded v hwithin hv).mpr (.inl hs)
  · exact (h.outside v hwithin hv).trans hs

theorem plain_of_begins {u v : List Bytes} (h : v <+: u) (hu : ∀ n ∈ u, Path.IsName n) :
    ∀ n ∈ v, Path.IsName n := fun n hn => hu n (h.subset hn)

/-- What is learned first and what is learned then. -/
theorem Learns.trans (h : Learns w top s t told) (h' : Learns w top t u told') :
    Learns w top s u (told ++ told') := by
  have hrules : u.rules = s.rules ++ (told ++ told').flatMap w.own := by
    rw [h'.rules, h.rules, List.flatMap_append, List.append_assoc]
  refine ⟨⟨fun v hv => ?_, fun v hv => ?_, ?_, fun v hv x hx hxv hhas => ?_, fun v htop hv => ?_,
    fun q _ _ b => by rw [hrules]⟩, hrules, fun v htop hv => ?_⟩
  · exact (List.mem_append.mp hv).elim (h.within v) (h'.within v)
  · rcases List.mem_append.mp hv with hv | hv
    · exact h.new v hv
    · obtain ⟨hhas, hfault, hnew⟩ := h'.new v hv
      refine ⟨hhas, hfault, Bool.eq_false_iff.mpr fun hs => ?_⟩
      rw [h.mono (h'.within v hv).2 hs] at hnew
      exact absurd hnew (by simp)
  · refine List.pairwise_append.mpr ⟨h.ordered, h'.ordered, fun v hv x hx hxv => ?_⟩
    -- what leads to a directory that was taken in had been taken in too
    obtain ⟨hhas, -, hnew⟩ := h'.new x hx
    rw [h.closed v hv x (h'.within x hx).1 hxv hhas] at hnew
    exact absurd hnew (by simp)
  · rcases List.mem_append.mp hv with hv | hv
    · exact h'.mono (plain_of_begins hxv (h.within v hv).2) (h.closed v hv x hx hxv hhas)
    · exact h'.closed v hv x hx hxv hhas
  · rw [h'.loaded v htop hv, h.loaded v htop hv, List.mem_append, or_assoc]
  · rw [h'.outside v htop hv, h.outside v htop hv]

/-- What is learned in an entry is learned in its directory, whose own ignore file was taken in
before. -/
theorem Learns.of_child (h : Learns w (top ++ [name]) s t told)
    (hentered : w.Has top → s.loaded.contains (w.ignoreFile top).key = true)
    (htop : ∀ n ∈ top, Path.IsName n) : Learns w top s t told := by
  have hbelow {v : List Bytes} (hv : v ∈ told) : top <+: v :=
    (List.prefix_append _ _).trans (h.within v hv).1
  refine ⟨⟨fun v hv => ⟨hbelow hv, (h.within v hv).2⟩, h.new, h.ordered,
    fun v hv x hx hxv hhas => ?_, fun v _ hv => ?_, fun q _ _ b => by rw [h.rules]⟩, h.rules,
    fun v hnot hv => h.outside v (fun hwithin => hnot ((List.prefix_append _ _).trans hwithin)) hv⟩
  · -- the directory itself, or something in the entry
    rcases List.prefix_or_prefix_of_prefix hxv (h.within v hv).1 with hup | hdown
    · rcases List.prefix_concat_iff.mp hup with rfl | hup
      · exact h.closed v hv _ (List.prefix_refl _) hxv hhas
      · obtain rfl := hup.eq_of_length (Nat.le_antisymm hup.length_le hx.length_le)
        exact h.mono htop (hentered hhas)
    · exact h.closed v hv x hdown hxv hhas
  · by_cases hwithin : top ++ [name] <+: v
    · exact h.loaded v hwithin hv
    · rw [h.outside v hwithin hv]
      refine ⟨.inl, fun hor => hor.elim id fun hmem => ?_⟩
      exact absurd (h.within v hmem).1 hwithin

/-- The rules of a directory do not apply to what has no more names. -/
theorem not_applies {u : List Bytes} (hslash : '/'.toUInt8 ∉ w.options.ignoreFileName)
    (hhas : w.Has u) (hu : ∀ n ∈ u, Path.IsName n) {q : Path} (hq : u <+: q.trunk → q.trunk = u)
    {r : IgnoreRule} (hr : r ∈ w.own u) (isDirectory : Bool) : r.applies q isDirectory = false := by
  by_contra happlies
  obtain ⟨-, hbelow, hne⟩ :=
    Walker.strict_of_applies hslash hhas.1 hu hr ((Bool.not_eq_false _).mp happlies)
  exact hne (hq hbelow)

/-- What is learned in an entry changes nothing for the others. -/
theorem Told.beside (hslash : '/'.toUInt8 ∉ w.options.ignoreFileName) (hne : name ≠ name')
    (h : Told w (top ++ [name']) s s' told) (hlearns : Learns w (top ++ [name]) s' t told') :
    Told w (top ++ [name']) s t told := by
  have hapart {v : List Bytes} (hv : top ++ [name] <+: v) (hv' : top ++ [name'] <+: v) : False := by
    have hlength : (top ++ [name]).length = (top ++ [name']).length := by simp
    have heq := (List.prefix_of_prefix_length_le hv hv' hlength.le).eq_of_length hlength
    exact hne (List.singleton_inj.mp (List.append_cancel_left heq))
  refine ⟨h.within, h.new, h.ordered, fun v hv x hx hxv hhas => ?_, fun v htop hv => ?_,
    fun q habsolute halong b => ?_⟩
  · exact hlearns.mono (plain_of_begins hxv (h.within v hv).2) (h.closed v hv x hx hxv hhas)
  · rw [hlearns.outside v (fun hv' => hapart hv' htop) hv]
    exact h.loaded v htop hv
  · rw [hlearns.rules, ← h.verdict q habsolute halong b]
    refine IgnoreRules.verdict_append_of_apart fun r hr => ?_
    obtain ⟨v, hv, hr⟩ := List.mem_flatMap.mp hr
    refine not_applies hslash (hlearns.new v hv).1 (hlearns.within v hv).2 (fun hbelow => ?_) hr b
    have hname := (hlearns.within v hv).1.trans hbelow
    rcases halong with hq | hq
    · exact (hapart (hname.trans hq) (List.prefix_refl _)).elim
    · exact (hapart hname hq).elim

/-- States of which one has been told agree on whether the path itself is ignored. -/
theorem Told.isIgnored (hslash : '/'.toUInt8 ∉ w.options.ignoreFileName) {p : Path}
    (hp : p.Canonical) (h : Told w p.trunk s t told) (isDirectory : Bool) :
    s.rules.isIgnored p isDirectory = t.rules.isIgnored p isDirectory := by
  refine IgnoreRules.isIgnored_congr fun q hq b => ?_
  have habsolute : q.isAbsolute = true :=
    (Path.of_mem_prefixes hq).1.trans ((Path.isAbsolute_normalize p).trans hp.absolute)
  have hbegins : q.trunk <+: p.trunk := hp.trunk_normalize ▸ Path.trunk_of_mem_prefixes hq
  rw [h.verdict q habsolute (.inl hbegins) b]
  refine (IgnoreRules.verdict_append_of_apart fun r hr => ?_).symm
  obtain ⟨v, hv, hr⟩ := List.mem_flatMap.mp hr
  refine not_applies hslash (h.new v hv).1 (h.within v hv).2 (fun hbelow => ?_) hr b
  exact (hbegins.trans (h.within v hv).1).eq_of_length
    (Nat.le_antisymm (hbegins.trans (h.within v hv).1).length_le hbelow.length_le)

/-- What a state has been told below a directory, it has been told in the entries. -/
theorem Told.child (hslash : '/'.toUInt8 ∉ w.options.ignoreFileName) (h : Told w top s t told)
    (hnot : top ∉ told) (name : Bytes) :
    Told w (top ++ [name]) s t (told.filter fun u => (top ++ [name]).isPrefixOf u) := by
  have hmem {v : List Bytes} : v ∈ told.filter (fun u => (top ++ [name]).isPrefixOf u) ↔
      v ∈ told ∧ top ++ [name] <+: v := by
    rw [List.mem_filter, List.isPrefixOf_iff_prefix]
  refine ⟨fun v hv => ⟨(hmem.mp hv).2, (h.within v (hmem.mp hv).1).2⟩,
    fun v hv => h.new v (hmem.mp hv).1, h.ordered.filter _,
    fun v hv x hx => h.closed v (hmem.mp hv).1 x ((List.prefix_append _ _).trans hx),
    fun v htop hv => ?_, fun q habsolute halong b => ?_⟩
  · rw [h.loaded v ((List.prefix_append _ _).trans htop) hv, hmem, and_iff_left htop]
  · have halong' : q.trunk <+: top ∨ top <+: q.trunk := by
      rcases halong with hq | hq
      · rcases List.prefix_concat_iff.mp hq with hq | hq
        · exact .inr (hq ▸ List.prefix_append _ _)
        · exact .inl hq
      · exact .inr ((List.prefix_append _ _).trans hq)
    rw [h.verdict q habsolute halong' b]
    refine IgnoreRules.verdict_filter _ fun v hv hout r hr => ?_
    refine not_applies hslash (h.new v hv).1 (h.within v hv).2 (fun hbelow => ?_) hr b
    -- what is above the path and below the directory leads to the entry
    have hout : ¬top ++ [name] <+: v := fun hin => by
      rw [List.isPrefixOf_iff_prefix.mpr hin] at hout
      exact absurd hout (by simp)
    have htop := (h.within v hv).1
    have hup : v <+: top ++ [name] := by
      rcases halong with hq | hq
      · exact hbelow.trans hq
      · exact (List.prefix_or_prefix_of_prefix hbelow hq).resolve_right hout
    rcases List.prefix_concat_iff.mp hup with rfl | hup
    · exact absurd (List.prefix_refl _) hout
    · obtain rfl := hup.eq_of_length (Nat.le_antisymm hup.length_le htop.length_le)
      exact absurd hv hnot

end Walk

namespace Walker

variable {w : Walker} {p : Path} {name : Bytes} {e : Entry} {s s' : Walk}
  {told : List (List Bytes)}

/-! ### Taking in an ignore file -/

/-- The second state has taken in the ignore file of the path, and has been told of directories
below it.  All it has learned since the state before is below the path. -/
structure Entered (w : Walker) (p : Path) (s' t t' : Walk) : Prop where
  told : ∃ told, Walk.Told w p.trunk t t' told ∧ p.trunk ∉ told
  learns : ∃ told, Walk.Learns w p.trunk s' t' told
  known : w.Has p.trunk → t'.loaded.contains (w.ignoreFile p.trunk).key = true
  found : t'.found = s'.found

theorem plain_trunk (hp : p.Canonical) : ∀ n ∈ p.trunk, Path.IsName n := fun n hn =>
  ⟨Path.ne_nil_of_mem_trunk hn, Path.slash_of_mem_names (Path.mem_names_of_mem_trunk hn),
    hp.solid hp.absolute n hn⟩

theorem contains_add {names names' : List Bytes} (hslash : '/'.toUInt8 ∉ w.options.ignoreFileName)
    (hnone : w.options.ignoreFileName ≠ []) (h : ∀ n ∈ names, Path.IsName n)
    (h' : ∀ n ∈ names', Path.IsName n) (loaded : Path.Set) :
    (loaded.add (w.ignoreFile names)).contains (w.ignoreFile names').key = true ↔
      loaded.contains (w.ignoreFile names').key = true ∨ names' = names := by
  rw [Path.Set.add, Std.TreeMap.contains_insertIfNew, Bool.or_eq_true, beq_iff_eq,
    Std.LawfulEqOrd.compare_eq_iff_eq, or_comm]
  refine or_congr_right ⟨fun hkey => (ignoreFile_inj hslash hnone h h' hkey).symm, fun heq => ?_⟩
  rw [heq]

/-- Of the directories that a state has been told of, the path itself is the first one. -/
theorem told_first (h : Walk.Told w p.trunk s s' told) (hmem : p.trunk ∈ told) :
    ∃ rest, told = p.trunk :: rest ∧ p.trunk ∉ rest := by
  obtain ⟨before, rest, rfl⟩ := List.append_of_mem hmem
  have hordered := List.pairwise_append.mp h.ordered
  cases before with
  | nil =>
    refine ⟨rest, rfl, fun hrest => ?_⟩
    exact List.rel_of_pairwise_cons hordered.2.1 hrest (List.prefix_refl _)
  | cons first more =>
    refine absurd (h.within first List.mem_cons_self).1 ?_
    exact hordered.2.2 first List.mem_cons_self _ List.mem_cons_self

/-- Taking in what the other state has been told of. -/
theorem entered_known (hslash : '/'.toUInt8 ∉ w.options.ignoreFileName) (hp : p.Canonical)
    (h : Walk.Told w p.trunk s s' told) (hmem : p.trunk ∈ told) :
    SameResult Eq (Entered w p s') (w.enter p s) (w.enter p s') := by
  have hplain := plain_trunk hp
  obtain ⟨hhas, hfault, hnew⟩ := h.new _ hmem
  have hknown : s'.loaded.contains (w.ignoreFile p.trunk).key = true :=
    (h.loaded p.trunk (List.prefix_refl _) hplain).mpr (.inr hmem)
  obtain ⟨rest, rfl, hrest⟩ := told_first h hmem
  rw [enter_new hslash hp hhas hnew, hfault, enter_known hslash hp fun _ => hknown]
  have hadd {u : List Bytes} (hu : ∀ n ∈ u, Path.IsName n) :=
    contains_add hslash hhas.1 hplain hu s.loaded
  refine .ok ⟨⟨rest, ⟨fun u hu => h.within u (List.mem_cons_of_mem _ hu), fun u hu => ?_,
    h.ordered.of_cons, fun u hu => h.closed u (List.mem_cons_of_mem _ hu), fun u htop hu => ?_,
    fun q habsolute halong b => ?_⟩, hrest⟩, ⟨[], .refl ..⟩, fun _ => hknown, rfl⟩
  · obtain ⟨hhas, hfault, hnew⟩ := h.new u (List.mem_cons_of_mem _ hu)
    refine ⟨hhas, hfault, Bool.eq_false_iff.mpr fun hcontains => ?_⟩
    rcases (hadd (h.within u (List.mem_cons_of_mem _ hu)).2).mp hcontains with hold | rfl
    · rw [hnew] at hold
      exact absurd hold (by simp)
    · exact hrest hu
  · rw [h.loaded u htop hu, hadd hu, List.mem_cons, or_assoc]
  · rw [h.verdict q habsolute halong b, List.flatMap_cons, List.append_assoc]

/-- Taking in what no state has been told of. -/
theorem entered_new (hslash : '/'.toUInt8 ∉ w.options.ignoreFileName) (hp : p.Canonical)
    (h : Walk.Told w p.trunk s s' told) (hhas : w.Has p.trunk)
    (hnew : s.loaded.contains (w.ignoreFile p.trunk).key = false) (hmem : p.trunk ∉ told) :
    SameResult Eq (Entered w p s') (w.enter p s) (w.enter p s') := by
  have hplain := plain_trunk hp
  have hnew' : s'.loaded.contains (w.ignoreFile p.trunk).key = false := by
    refine Bool.eq_false_iff.mpr fun hcontains => ?_
    rcases (h.loaded _ (List.prefix_refl _) hplain).mp hcontains with hold | hold
    · rw [hnew] at hold
      exact absurd hold (by simp)
    · exact hmem hold
  -- nothing below was taken in before
  obtain rfl : told = [] := List.eq_nil_iff_forall_not_mem.mpr fun u hu => by
    rw [h.closed u hu _ (List.prefix_refl _) (h.within u hu).1 hhas] at hnew'
    exact absurd hnew' (by simp)
  rw [enter_new hslash hp hhas hnew, enter_new hslash hp hhas hnew']
  have hadd {u : List Bytes} (hu : ∀ n ∈ u, Path.IsName n) (loaded : Path.Set) :=
    contains_add hslash hhas.1 hplain hu loaded
  cases hfault : w.fault p.trunk with
  | some e => exact .error rfl
  | none =>
    have hknown : (s'.loaded.add (w.ignoreFile p.trunk)).contains (w.ignoreFile p.trunk).key =
        true := (hadd hplain _).mpr (.inr rfl)
    refine .ok ⟨⟨[], ⟨by simp, by simp, .nil, by simp, fun u htop hu => ?_,
      fun q habsolute halong b => ?_⟩, List.not_mem_nil⟩, ⟨[p.trunk], ⟨fun u hu => ?_,
      fun u hu => ?_, List.pairwise_singleton _ _, fun u hu v htop hv _ => ?_, fun u _ hu => ?_,
      fun q _ _ b => ?_⟩, ?_, fun u hnot hu => ?_⟩, fun _ => hknown, rfl⟩
    · have hsame := h.loaded u htop hu
      rw [hadd hu, hadd hu, hsame]
      simp
    · have hverdict := h.verdict q habsolute halong b
      rw [List.flatMap_nil, List.append_nil] at hverdict ⊢
      exact IgnoreRules.verdict_append_congr hverdict _
    · rw [List.mem_singleton.mp hu]
      exact ⟨List.prefix_refl _, hplain⟩
    · rw [List.mem_singleton.mp hu]
      exact ⟨hhas, hfault, hnew'⟩
    · rw [List.mem_singleton.mp hu] at hv
      rw [hv.eq_of_length (Nat.le_antisymm hv.length_le htop.length_le)]
      exact hknown
    · rw [hadd hu, List.mem_singleton]
    · rw [List.flatMap_singleton]
    · rw [List.flatMap_singleton]
    · refine Bool.eq_iff_iff.mpr ((hadd hu _).trans (or_iff_left fun heq => hnot ?_))
      rw [heq]

/-- **An ignore file that one of the states has been told of** is taken in by the other one. -/
theorem enter_told (hslash : '/'.toUInt8 ∉ w.options.ignoreFileName) (hp : p.Canonical)
    (h : Walk.Told w p.trunk s s' told) :
    SameResult Eq (Entered w p s') (w.enter p s) (w.enter p s') := by
  by_cases hknown : w.Has p.trunk → s.loaded.contains (w.ignoreFile p.trunk).key = true
  · -- there is none, or both have taken it in
    have hknown' : w.Has p.trunk → s'.loaded.contains (w.ignoreFile p.trunk).key = true :=
      fun hhas => (h.loaded _ (List.prefix_refl _) (plain_trunk hp)).mpr (.inl (hknown hhas))
    rw [enter_known hslash hp hknown, enter_known hslash hp hknown']
    refine .ok ⟨⟨told, h, fun hmem => ?_⟩, ⟨[], .refl ..⟩, hknown', rfl⟩
    obtain ⟨hhas, -, hnew⟩ := h.new _ hmem
    rw [hknown hhas] at hnew
    exact absurd hnew (by simp)
  obtain ⟨hhas, hnew⟩ := Classical.not_imp.mp hknown
  by_cases hmem : p.trunk ∈ told
  · exact entered_known hslash hp h hmem
  · exact entered_new hslash hp h hhas ((Bool.not_eq_true _).mp hnew) hmem

/-! ### Walks -/

/-- The files are what a walk has found since a state, and the ignore files it has taken in are
those of directories within the path. -/
structure Finds (w : Walker) (p : Path) (s : Walk) (files : List Path) (t : Walk) : Prop where
  found : t.found = files.reverse ++ s.found
  learns : ∃ told, Walk.Learns w p.trunk s t told

theorem Finds.nil (w : Walker) (p : Path) (s : Walk) : Finds w p s [] s := ⟨rfl, [], .refl w _ s⟩

/-- A file is taken alike by a state that has been told of other directories. -/
theorem finds_visit (hslash : '/'.toUInt8 ∉ w.options.ignoreFileName) (hp : p.Canonical)
    (h : Walk.Told w p.trunk s s' told) : Finds w p s' (w.taken p s) (w.visit p s') := by
  rw [taken, visit, h.isIgnored hslash hp]
  split
  · exact ⟨rfl, [], { Walk.Learns.refl w p.trunk s' with }⟩
  · exact .nil _ _ _

/-- An entry contributes what a walk that has been told of directories finds in it. -/
theorem turn_told (hslash : '/'.toUInt8 ∉ w.options.ignoreFileName)
    (hp : (p / (⟨name⟩ : Path)).Canonical)
    (h : Walk.Told w (p / (⟨name⟩ : Path)).trunk s s' told)
    (hinner : ∀ inner, e = .folder inner → ∀ t t', Entered w (p / (⟨name⟩ : Path)) s' t t' →
      SameResult Eq (Finds w (p / (⟨name⟩ : Path)) t') (w.gather (p / (⟨name⟩ : Path)) inner t)
        (w.walk (p / (⟨name⟩ : Path)) inner t')) :
    SameResult Eq (Finds w (p / (⟨name⟩ : Path)) s') (w.share p name s e) (w.turn p name s' e) := by
  have hskips : w.skips s name (p / (⟨name⟩ : Path)) = w.skips s' name (p / (⟨name⟩ : Path)) := by
    rw [skips, skips, h.isIgnored hslash hp]
  have henter := enter_told hslash hp h
  cases e with
  | file text => exact .ok (finds_visit hslash hp h)
  | link target =>
    rw [share, turn, linked]
    simp only [hskips]
    split
    · split
      · exact .ok (.nil _ _ _)
      · generalize w.enter (p / (⟨name⟩ : Path)) s = o,
          w.enter (p / (⟨name⟩ : Path)) s' = o' at henter
        cases henter with
        | error he => exact .error he
        | ok ht => exact .ok ⟨ht.found, ht.learns⟩
    · split
      · exact .ok (finds_visit hslash hp h)
      · exact .ok (.nil _ _ _)
  | folder inner =>
    rw [share, turn]
    simp only [hskips]
    split
    · exact .ok (.nil _ _ _)
    · generalize w.enter (p / (⟨name⟩ : Path)) s = o,
        w.enter (p / (⟨name⟩ : Path)) s' = o' at henter
      cases henter with
      | error he => exact .error he
      | @ok t t' ht =>
        have hwalk := hinner inner rfl t t' ht
        show SameResult Eq _ (w.gather (p / (⟨name⟩ : Path)) inner t)
          (w.walk (p / (⟨name⟩ : Path)) inner t')
        generalize w.gather (p / (⟨name⟩ : Path)) inner t = x,
          w.walk (p / (⟨name⟩ : Path)) inner t' = x' at hwalk ⊢
        cases hwalk with
        | error he => exact .error he
        | ok hu =>
          obtain ⟨_, hlearns⟩ := ht.learns
          obtain ⟨_, hlearns'⟩ := hu.learns
          exact .ok ⟨ht.found ▸ hu.found, _, hlearns.trans hlearns'⟩

/-- **A walk that has been told of directories finds what the entries contribute** to one that
has not. -/
theorem walk_told (hslash : '/'.toUInt8 ∉ w.options.ignoreFileName) (d : Directory) (p : Path)
    (s s' : Walk) (hp : p.Canonical) (hlawful : d.Lawful)
    (hentered : w.Has p.trunk → s'.loaded.contains (w.ignoreFile p.trunk).key = true)
    (h : ∀ name ∈ d.names, ∃ told, Walk.Told w (p.trunk ++ [name]) s s' told) :
    SameResult Eq (Finds w p s') (w.gather p d s) (w.walk p d s') := by
  induction d using Directory.cons_induction generalizing p s s' with
  | hempty => exact .ok (.nil w p s')
  | hcons name e rest hinner ih =>
    rw [Directory.names_cons] at h
    obtain ⟨hname, hnew, he, hrest⟩ := Directory.lawful_cons.mp hlawful
    have htrunk := Path.trunk_child p hname.slash hname.ne_nil
    obtain ⟨told, htold⟩ := h name List.mem_cons_self
    rw [← htrunk] at htold
    have hchild := hp.of_child hname
    have hturn := turn_told (e := e) hslash hchild htold fun inner heq t t' hentered => by
      have hlawful : inner.Lawful := by rwa [heq] at he
      obtain ⟨told, htold, hnot⟩ := hentered.told
      exact hinner inner heq _ t t' hchild hlawful hentered.known fun n _ =>
        ⟨_, htold.child hslash hnot n⟩
    rw [gather_cons, walk_cons]
    generalize w.share p name s e = x, w.turn p name s' e = x' at hturn ⊢
    cases hturn with
    | error he => exact .error he
    | @ok own t ht =>
      obtain ⟨learned, hlearns⟩ := ht.learns
      rw [htrunk] at hlearns
      -- what was learned in the entry changes nothing for the others
      have hwalk := ih p s t hp hrest
        (fun hhas => hlearns.mono (plain_trunk hp) (hentered hhas)) fun n hn => by
          obtain ⟨told, htold⟩ := h n (List.mem_cons_of_mem _ hn)
          exact ⟨told, htold.beside hslash (fun (heq : name = n) => hnew (heq ▸ hn)) hlearns⟩
      show SameResult Eq _ ((w.gather p rest s).map (own ++ ·)) (w.walk p rest t)
      generalize w.gather p rest s = y, w.walk p rest t = y' at hwalk ⊢
      cases hwalk with
      | error he => exact .error he
      | ok hu =>
        obtain ⟨_, hlearns'⟩ := hu.learns
        refine .ok ⟨?_, _, (hlearns.of_child hentered (plain_trunk hp)).trans hlearns'⟩
        rw [hu.found, ht.found, List.reverse_append, List.append_assoc]

end Walker

end ScriptLint
