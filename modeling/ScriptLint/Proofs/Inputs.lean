/-
The files that several inputs stand for.

Each input is walked with the ignore files that the inputs before it have left behind, so that
the order of inputs matters where one of them leaves behind what another one would not take in:

* **`Disk.collect_order_matters`** — a script that is an input of its own is taken or ignored as
  its directory, the other input, comes later or earlier.

It is the only way in which it matters.  Where no ignore file but that of the working directory
lies between two inputs, below the one and above the other:

* **`Walker.alone`** — the files that one input stands for, told from the working directory;
* **`Walker.Known`** — what the inputs before have left behind, and **`Walker.Known.told`**, what
  this means for another input;
* **`Walker.addInput_alone`**, **`Walker.addInputs_alone`** — each input adds what it stands for;
* **`Disk.collect_perm`** — every order of the inputs collects the same files.
-/
import Mathlib
import ScriptLint.Proofs.Overlaps

namespace ScriptLint

namespace PathSet

theorem mem_keys_insert (s : PathSet) (p : Path) (k : Path.Key) :
    k ∈ (s.insert p).paths.map Path.key ↔ k ∈ s.paths.map Path.key ∨ k = p.key := by
  rw [insert]
  split
  · rename_i hcontains
    obtain ⟨q, hq, hkey⟩ := (contains_iff _ _).mp hcontains
    exact (or_iff_left_of_imp fun heq => heq ▸ hkey ▸ List.mem_map_of_mem hq).symm
  · simp

theorem mem_keys_foldl_insert (files : List Path) (s : PathSet) (k : Path.Key) :
    k ∈ (files.foldl insert s).paths.map Path.key ↔
      k ∈ s.paths.map Path.key ∨ k ∈ files.map Path.key := by
  induction files generalizing s with
  | nil => simp
  | cons p rest ih =>
    rw [List.foldl_cons, ih, mem_keys_insert, List.map_cons, List.mem_cons, or_assoc]

end PathSet

namespace Walker

variable (w : Walker)

/-- The files that an input stands for in a state. -/
def alone (cwd : Path) (s : Walk) (input : Path) : Outcome (List Path) :=
  let p := input.absoluteFrom cwd
  if w.disk.isFile p then .ok (if s.rules.isIgnored p false then [] else [p])
  else
    match w.disk.directory? p with
    | none => .error ⟨.notFound, "No such file or directory", some input.text⟩
    | some directory =>
      if s.rules.isIgnored p true then .ok [] else (w.enter p s).bind (w.gather p directory)

/-- The ignore files at or below the roots and above other paths are known. -/
def Clear (s : Walk) (roots tops : List (List Bytes)) : Prop :=
  ∀ root ∈ roots, ∀ top ∈ tops, ∀ names, root <+: names → names <+: top → names ≠ top →
    w.Has names → s.loaded.contains (w.ignoreFile names).key = true

/-- The second state knows the ignore files of directories below the roots, from above to below
and without a gap, and otherwise what the first one knows. -/
structure Known (roots : List (List Bytes)) (s t : Walk) (seen : List (List Bytes)) : Prop where
  within : ∀ u ∈ seen, (∀ n ∈ u, Path.IsName n) ∧ ∃ root ∈ roots, root <+: u ∧
    ∀ v, root <+: v → v <+: u → w.Has v → t.loaded.contains (w.ignoreFile v).key = true
  new : ∀ u ∈ seen, w.Has u ∧ w.fault u = none ∧
    s.loaded.contains (w.ignoreFile u).key = false
  ordered : seen.Pairwise fun u v => ¬v <+: u
  loaded : ∀ u, (∀ n ∈ u, Path.IsName n) →
    (t.loaded.contains (w.ignoreFile u).key = true ↔
      s.loaded.contains (w.ignoreFile u).key = true ∨ u ∈ seen)
  rules : t.rules = s.rules ++ seen.flatMap w.own

theorem Known.refl (roots : List (List Bytes)) (s : Walk) : w.Known roots s s [] where
  within := by simp
  new := by simp
  ordered := .nil
  loaded := by simp
  rules := by rw [List.flatMap_nil, List.append_nil]

variable {w} {roots tops : List (List Bytes)} {top : List Bytes} {p cwd input : Path}
  {s t u : Walk} {seen learned : List (List Bytes)} {directory : Directory}

/-! ### What the inputs before have left behind -/

/-- Nothing that the inputs before have left behind is above another input. -/
theorem Known.not_above (h : w.Known roots s t seen) (hclear : w.Clear s roots tops)
    (htop : top ∈ tops) {v : List Bytes} (hv : v ∈ seen) (hup : v <+: top) : v = top := by
  by_contra hne
  obtain ⟨hhas, -, hnew⟩ := h.new v hv
  obtain ⟨-, root, hroot, hbelow, -⟩ := h.within v hv
  rw [hclear root hroot top htop v hbelow hup hne hhas] at hnew
  exact absurd hnew (by simp)

/-- **For another input, what is known are the directories below it**: what is known above was
known from the beginning. -/
theorem Known.told (hslash : '/'.toUInt8 ∉ w.options.ignoreFileName) (h : w.Known roots s t seen)
    (hclear : w.Clear s roots tops) (hsub : roots ⊆ tops) (htop : top ∈ roots) :
    Walk.Told w top s t (seen.filter fun u => top.isPrefixOf u) := by
  have hmem {v : List Bytes} : v ∈ seen.filter (fun u => top.isPrefixOf u) ↔
      v ∈ seen ∧ top <+: v := by
    rw [List.mem_filter, List.isPrefixOf_iff_prefix]
  refine ⟨fun v hv => ⟨(hmem.mp hv).2, (h.within v (hmem.mp hv).1).1⟩,
    fun v hv => h.new v (hmem.mp hv).1, h.ordered.filter _, fun v hv x hx hxv hhas => ?_,
    fun v htop hv => ?_, fun q _ halong b => ?_⟩
  · obtain ⟨hplain, root, hroot, hbelow, hclosed⟩ := h.within v (hmem.mp hv).1
    by_cases hdown : root <+: x
    · exact hclosed x hdown hxv hhas
    · -- between this input and another one below it
      have hup := (List.prefix_or_prefix_of_prefix hbelow hxv).resolve_left hdown
      refine (h.loaded x (Walk.plain_of_begins hxv hplain)).mpr (.inl ?_)
      exact hclear top htop root (hsub hroot) x hx hup (fun heq => hdown (heq ▸ List.prefix_refl _))
        hhas
  · rw [h.loaded v hv, hmem, and_iff_left htop]
  · rw [h.rules]
    refine IgnoreRules.verdict_filter _ fun v hv hout r hr => ?_
    have hout : ¬top <+: v := fun hin => by
      rw [List.isPrefixOf_iff_prefix.mpr hin] at hout
      exact absurd hout (by simp)
    refine Walk.not_applies hslash (h.new v hv).1 (h.within v hv).1 (fun hbelow => ?_) hr b
    have hup : v <+: top := by
      rcases halong with hq | hq
      · exact hbelow.trans hq
      · exact (List.prefix_or_prefix_of_prefix hbelow hq).resolve_right hout
    exact absurd (h.not_above hclear (hsub htop) hv hup ▸ List.prefix_refl _) hout

/-- An input is ignored for what was known from the beginning. -/
theorem Known.isIgnored (hslash : '/'.toUInt8 ∉ w.options.ignoreFileName) (hp : p.Canonical)
    (h : w.Known roots s t seen) (hclear : w.Clear s roots tops) (htop : p.trunk ∈ tops)
    (isDirectory : Bool) : s.rules.isIgnored p isDirectory = t.rules.isIgnored p isDirectory := by
  refine IgnoreRules.isIgnored_congr fun q hq b => ?_
  have hbegins : q.trunk <+: p.trunk := hp.trunk_normalize ▸ Path.trunk_of_mem_prefixes hq
  rw [h.rules]
  refine (IgnoreRules.verdict_append_of_apart fun r hr => ?_).symm
  obtain ⟨v, hv, hr⟩ := List.mem_flatMap.mp hr
  refine Walk.not_applies hslash (h.new v hv).1 (h.within v hv).1 (fun hbelow => ?_) hr b
  obtain rfl := h.not_above hclear htop hv (hbelow.trans hbegins)
  exact hbegins.eq_of_length (Nat.le_antisymm hbegins.length_le hbelow.length_le)

/-- What is learned below a root comes after what was known. -/
theorem Known.learns (h : w.Known roots s t seen) (htop : top ∈ roots)
    (htold : Walk.Told w top s t (seen.filter fun u => top.isPrefixOf u))
    (hlearns : Walk.Learns w top t u learned) : w.Known roots s u (seen ++ learned) := by
  refine ⟨fun v hv => ?_, fun v hv => ?_, ?_, fun v hv => ?_, ?_⟩
  · rcases List.mem_append.mp hv with hv | hv
    · obtain ⟨hplain, root, hroot, hbelow, hclosed⟩ := h.within v hv
      refine ⟨hplain, root, hroot, hbelow, fun x hx hxv hhas => ?_⟩
      exact hlearns.mono (Walk.plain_of_begins hxv hplain) (hclosed x hx hxv hhas)
    · exact ⟨(hlearns.within v hv).2, top, htop, (hlearns.within v hv).1, hlearns.closed v hv⟩
  · rcases List.mem_append.mp hv with hv | hv
    · exact h.new v hv
    · obtain ⟨hhas, hfault, hnew⟩ := hlearns.new v hv
      refine ⟨hhas, hfault, Bool.eq_false_iff.mpr fun hs => ?_⟩
      rw [(h.loaded v (hlearns.within v hv).2).mpr (.inl hs)] at hnew
      exact absurd hnew (by simp)
  · refine List.pairwise_append.mpr ⟨h.ordered, hlearns.ordered, fun v hv x hx hxv => ?_⟩
    -- what leads to a directory that was known was known too
    obtain ⟨hhas, -, hnew⟩ := hlearns.new x hx
    have hx := (hlearns.within x hx).1
    have hv : v ∈ seen.filter fun u => top.isPrefixOf u :=
      List.mem_filter.mpr ⟨hv, List.isPrefixOf_iff_prefix.mpr (hx.trans hxv)⟩
    rw [htold.closed v hv x hx hxv hhas] at hnew
    exact absurd hnew (by simp)
  · by_cases hwithin : top <+: v
    · rw [hlearns.loaded v hwithin hv, h.loaded v hv, List.mem_append, or_assoc]
    · rw [hlearns.outside v hwithin hv, h.loaded v hv, List.mem_append]
      exact or_congr_right (or_iff_left fun hmem => hwithin (hlearns.within v hmem).1).symm
  · rw [hlearns.rules, h.rules, List.flatMap_append, List.append_assoc]

/-! ### One input and several -/

/-- **An input adds what it stands for** in the beginning, whatever inputs were before. -/
theorem addInput_alone (hslash : '/'.toUInt8 ∉ w.options.ignoreFileName)
    (hlawful : w.disk.root.Lawful) (hp : (input.absoluteFrom cwd).Canonical)
    (hclear : w.Clear s roots tops) (hsub : roots ⊆ tops)
    (htop : (input.absoluteFrom cwd).trunk ∈ tops)
    (hroot : w.disk.isDirectory (input.absoluteFrom cwd) = true →
      (input.absoluteFrom cwd).trunk ∈ roots) (h : w.Known roots s t seen) (files : PathSet) :
    SameResult Eq (fun more out => (∀ k, k ∈ out.1.paths.map Path.key ↔
      k ∈ files.paths.map Path.key ∨ k ∈ more.map Path.key) ∧ ∃ seen, w.Known roots s out.2 seen)
      (w.alone cwd s input) (w.addInput cwd files t input) := by
  rw [alone, addInput]
  simp only [h.isIgnored hslash hp hclear htop]
  split
  · -- a file is taken as it is
    refine .ok ⟨fun k => ?_, seen, h⟩
    dsimp only
    split
    · simp
    · rw [PathSet.mem_keys_insert]
      simp
  rw [Disk.isDirectory] at hroot
  cases hdirectory : w.disk.directory? (input.absoluteFrom cwd) with
  | none => exact .error rfl
  | some directory =>
    rw [hdirectory] at hroot
    have htold := h.told hslash hclear hsub (hroot rfl)
    simp only
    split
    · exact .ok ⟨fun k => by simp, seen, h⟩
    have henter := enter_told hslash hp htold
    generalize w.enter (input.absoluteFrom cwd) s = o,
      w.enter (input.absoluteFrom cwd) t = o' at henter ⊢
    cases henter with
    | error he => exact .error he
    | @ok x x' hx =>
      obtain ⟨told, htold', hnot⟩ := hx.told
      obtain ⟨first, hfirst⟩ := hx.learns
      have hwalk := walk_told hslash directory _ x { x' with found := [] } hp
        (Disk.lawful_of_directory? hlawful hdirectory) hx.known fun n _ =>
          ⟨_, { htold'.child hslash hnot n with }⟩
      show SameResult Eq _ (w.gather (input.absoluteFrom cwd) directory x)
        ((w.walk (input.absoluteFrom cwd) directory { x' with found := [] }).bind fun t =>
          .ok ((sorted t.found).foldl PathSet.insert files, t))
      generalize w.gather (input.absoluteFrom cwd) directory x = y,
        w.walk (input.absoluteFrom cwd) directory { x' with found := [] } = y' at hwalk ⊢
      cases hwalk with
      | error he => exact .error he
      | @ok more z hz =>
        obtain ⟨then', hthen⟩ := hz.learns
        refine .ok ⟨fun k => ?_, _, h.learns (hroot rfl) htold (hfirst.trans { hthen with })⟩
        have hperm : (sorted z.found).Perm more := by
          refine (List.mergeSort_perm z.found _).trans ?_
          rw [hz.found, List.append_nil]
          exact more.reverse_perm
        rw [PathSet.mem_keys_foldl_insert, (hperm.map Path.key).mem_iff]

variable (w) in
/-- The path is one of the files that the inputs stand for. -/
def StandsFor (cwd : Path) (s : Walk) (inputs : List Path) (k : Path.Key) : Prop :=
  ∃ input ∈ inputs, ∃ files, w.alone cwd s input = .ok files ∧ k ∈ files.map Path.key

/-- **Inputs add what each of them stands for**, if each of them stands for files. -/
theorem addInputs_alone (hslash : '/'.toUInt8 ∉ w.options.ignoreFileName)
    (hlawful : w.disk.root.Lawful) (hclear : w.Clear s roots tops) (hsub : roots ⊆ tops)
    {inputs : List Path} (hinputs : ∀ input ∈ inputs, (input.absoluteFrom cwd).Canonical ∧
      (input.absoluteFrom cwd).trunk ∈ tops ∧ (w.disk.isDirectory (input.absoluteFrom cwd) = true →
        (input.absoluteFrom cwd).trunk ∈ roots)) (h : w.Known roots s t seen) (files : PathSet) :
    ((∃ out, w.addInputs cwd files t inputs = .ok out) ↔
      ∀ input ∈ inputs, ∃ more, w.alone cwd s input = .ok more) ∧
    ∀ out, w.addInputs cwd files t inputs = .ok out → ∀ k, k ∈ out.paths.map Path.key ↔
      k ∈ files.paths.map Path.key ∨ w.StandsFor cwd s inputs k := by
  induction inputs generalizing t seen files with
  | nil =>
    refine ⟨⟨fun _ => by simp, fun _ => ⟨files, rfl⟩⟩, fun out hout k => ?_⟩
    rw [← Except.ok.inj hout]
    simp [StandsFor]
  | cons input rest ih =>
    obtain ⟨⟨hp, htop, hroot⟩, hrest⟩ := List.forall_mem_cons.mp hinputs
    have hadd := addInput_alone hslash hlawful hp hclear hsub htop hroot h files
    have haddInputs : w.addInputs cwd files t (input :: rest) =
        (w.addInput cwd files t input).bind fun out => w.addInputs cwd out.1 out.2 rest := rfl
    simp only [StandsFor, List.exists_mem_cons_iff, List.forall_mem_cons, haddInputs]
    generalize w.alone cwd s input = o, w.addInput cwd files t input = o' at hadd
    cases hadd with
    | error he => simp [Except.bind]
    | @ok more out hout =>
      obtain ⟨hkeys, seen, hknown⟩ := hout
      obtain ⟨hsome, hall⟩ := ih hrest hknown out.1
      refine ⟨⟨fun hex => ⟨⟨more, rfl⟩, hsome.mp hex⟩, fun hex => hsome.mpr hex.2⟩,
        fun all hok k => ?_⟩
      rw [hall all hok k, hkeys k, or_assoc]
      simp [StandsFor]

/-- A walk knows the ignore file of a directory that it has entered. -/
theorem loaded_enter (hslash : '/'.toUInt8 ∉ w.options.ignoreFileName) (hp : p.Canonical)
    (h : w.enter p s = .ok t) (hhas : w.Has p.trunk) :
    t.loaded.contains (w.ignoreFile p.trunk).key = true := by
  cases hknown : s.loaded.contains (w.ignoreFile p.trunk).key with
  | true =>
    rw [enter_known hslash hp fun _ => hknown] at h
    rwa [← Except.ok.inj h]
  | false =>
    rw [enter_new hslash hp hhas hknown] at h
    cases hfault : w.fault p.trunk with
    | some e =>
      rw [hfault] at h
      cases h
    | none =>
      rw [hfault] at h
      rw [← Except.ok.inj h]
      exact (contains_add hslash hhas.1 (plain_trunk hp) (plain_trunk hp) _).mpr (.inr rfl)

end Walker

namespace Path

/-- An input below a working directory is spelled by its names. -/
theorem canonical_absoluteFrom {p cwd : Path} (hcwd : cwd.isAbsolute = true)
    (hcwdRoot : cwd.isRoot = true → cwd = "/") (hroot : p.isRoot = true → p = "/") :
    (p.absoluteFrom cwd).Canonical := by
  rw [absoluteFrom]
  cases hp : p.isAbsolute with
  | true => exact canonical_normalize hp hroot
  | false =>
    refine canonical_normalize (isAbsolute_append_of_isAbsolute hcwd p) fun hslashes => ?_
    have hne : cwd.text ≠ [] := fun hnil => by
      rw [(text_eq_nil_iff cwd).mp hnil |>.1] at hcwd
      exact absurd hcwd (by simp)
    have happend : cwd / p = if Bytes.endsWith cwd.text "/" then ⟨cwd.text ++ p.text⟩
        else ⟨cwd.text ++ "/" ++ p.text⟩ := by
      show append cwd p = _
      rw [append, hp, isEmpty, List.isEmpty_eq_false_iff.mpr hne, Bool.or_false, if_neg (by simp)]
    have hall : ∀ b ∈ (cwd / p).text, isSlash b = true :=
      (names_eq_nil_iff _).mp ((isRoot_iff _).mp hslashes).2
    obtain ⟨more, hmore, hsub⟩ : ∃ more, (cwd / p).text = cwd.text ++ more ∧ p.text ⊆ more := by
      rw [happend]
      split
      · exact ⟨p.text, rfl, List.Subset.refl _⟩
      · exact ⟨"/" ++ p.text, List.append_assoc _ _ _, List.subset_append_right _ _⟩
    rw [hmore] at hall
    obtain rfl := hcwdRoot ((isRoot_iff _).mpr ⟨hcwd, (names_eq_nil_iff _).mpr fun b hb =>
      hall b (List.mem_append_left _ hb)⟩)
    -- a path of slashes that is not absolute is empty
    have hempty : p.text = [] := (text_eq_nil_iff p).mpr
      ⟨hp, (names_eq_nil_iff p).mpr fun b hb => hall b (List.mem_append_right _ (hsub hb))⟩
    rw [happend, hempty]
    rfl

end Path

/-- No ignore file but that of the working directory lies between inputs: in a directory that is
an input, or below it, and above another input. -/
def Disk.Unobstructed (d : Disk) (ignoreFileName : Bytes) (cwd : Path) (inputs : List Path) :
    Prop :=
  ∀ input ∈ inputs, d.isDirectory (input.absoluteFrom cwd) = true → ∀ other ∈ inputs, ∀ names,
    (input.absoluteFrom cwd).trunk <+: names → names <+: (other.absoluteFrom cwd).trunk →
    names ≠ (other.absoluteFrom cwd).trunk →
    d.isFile (Path.ofNames true (names ++ [ignoreFileName])) = true → names = cwd.normalize.trunk

/-- **Inputs of which none hides another one stand for the same files in every order**: where
no ignore file but that of the working directory lies between them, and they can be collected in
one order, they can be in every order, and the files are the same. -/
theorem Disk.collect_perm {d : Disk} (hlawful : d.root.Lawful) {options : WalkOptions}
    (hslash : '/'.toUInt8 ∉ options.ignoreFileName) {inputs inputs' : List Path}
    (hperm : inputs.Perm inputs') {cwd : Path} (hcwd : cwd.isAbsolute = true)
    (hroot : ∀ p ∈ cwd :: inputs, p.isRoot = true → p = "/")
    (hclear : d.Unobstructed options.ignoreFileName cwd inputs) {rules : IgnoreRules}
    {accepts : Path → Bool} {files : List Path}
    (h : d.collect inputs cwd rules accepts options = .ok files) :
    ∃ files', d.collect inputs' cwd rules accepts options = .ok files' ∧
      ∀ k, k ∈ files.map Path.key ↔ k ∈ files'.map Path.key := by
  have hcollect (inputs : List Path) : d.collect inputs cwd rules accepts options =
      ((Walker.mk d accepts options).enter cwd.normalize { rules }).bind fun s =>
        ((Walker.mk d accepts options).addInputs cwd .empty s inputs).map PathSet.paths := rfl
  obtain ⟨hcwdRoot, hroots⟩ := List.forall_mem_cons.mp hroot
  have hcanonical := Path.canonical_normalize hcwd hcwdRoot
  rw [hcollect] at h ⊢
  cases henter : (Walker.mk d accepts options).enter cwd.normalize { rules } with
  | error e =>
    rw [henter] at h
    cases h
  | ok s =>
    rw [henter] at h
    have hloaded := Walker.loaded_enter hslash hcanonical henter
    let trunk (input : Path) : List Bytes := (input.absoluteFrom cwd).trunk
    let folders := inputs.filter fun input => d.isDirectory (input.absoluteFrom cwd)
    have hclear' : (Walker.mk d accepts options).Clear s (folders.map trunk)
        (inputs.map trunk) := by
      intro root hroot top htop names hbelow habove hne hhas
      obtain ⟨input, hinput, rfl⟩ := List.mem_map.mp hroot
      obtain ⟨hinput, hfolder⟩ := List.mem_filter.mp hinput
      obtain ⟨other, hother, rfl⟩ := List.mem_map.mp htop
      obtain rfl := hclear input hinput hfolder other hother names hbelow habove hne hhas.2
      exact hloaded hhas
    have hinputs : ∀ input ∈ inputs, (input.absoluteFrom cwd).Canonical ∧
        trunk input ∈ inputs.map trunk ∧ (d.isDirectory (input.absoluteFrom cwd) = true →
          trunk input ∈ folders.map trunk) := fun input hinput =>
      ⟨Path.canonical_absoluteFrom hcwd hcwdRoot (hroots input hinput),
        List.mem_map_of_mem hinput, fun hfolder =>
          List.mem_map_of_mem (List.mem_filter.mpr ⟨hinput, hfolder⟩)⟩
    have hsub : folders.map trunk ⊆ inputs.map trunk :=
      List.map_subset _ (List.filter_subset_self _)
    have hknown := Walker.Known.refl (Walker.mk d accepts options) (folders.map trunk) s
    obtain ⟨hsome, hall⟩ :=
      Walker.addInputs_alone hslash hlawful hclear' hsub hinputs hknown .empty
    obtain ⟨hsome', hall'⟩ := Walker.addInputs_alone hslash hlawful hclear' hsub
      (fun input hinput => hinputs input (hperm.mem_iff.mpr hinput)) hknown .empty
    obtain ⟨out, hout, rfl⟩ : ∃ out, (Walker.mk d accepts options).addInputs cwd .empty s inputs =
        .ok out ∧ out.paths = files := by
      change Except.map PathSet.paths _ = _ at h
      cases hadd : (Walker.mk d accepts options).addInputs cwd .empty s inputs with
      | error e =>
        rw [hadd] at h
        cases h
      | ok out =>
        rw [hadd] at h
        exact ⟨out, rfl, Except.ok.inj h⟩
    obtain ⟨out', hout'⟩ := hsome'.mpr fun input hinput =>
      hsome.mp ⟨out, hout⟩ input (hperm.mem_iff.mpr hinput)
    refine ⟨out'.paths, by rw [Except.bind, hout']; rfl, fun k => ?_⟩
    rw [hall out hout k, hall' out' hout' k]
    simp only [Walker.StandsFor, hperm.mem_iff]

/-! ### A script and its directory -/

namespace Disk

/-- A directory that ignores one of its two scripts. -/
def twoScripts : Disk where
  root := .folder "sub" (.file ".gitignore" "x.js\n" (.file "x.js" "" (.file "y.js" "" .empty)))
    .empty

/-- The files that are taken there. -/
def script (p : Path) : Bool := p.extension == ".js"

/-- Walks there. -/
def scripts : Walker := { disk := twoScripts, accepts := script }

/-- What a walk there takes in. -/
def scriptRule : IgnoreRule where
  base := "/sub"
  pattern := .one (.single 'x') (.one (.single '.') (.one (.single 'j') (.one (.single 's') .done)))
  negated := false
  directoriesOnly := false
  anchored := false

/-- What a walk knows there. -/
def informed : Walk := { rules := [scriptRule], loaded := (∅ : Path.Set).add "/sub/.gitignore" }

theorem enter_twoScripts : scripts.enter "/sub" { rules := [] } = .ok informed := by
  have hfile : scripts.disk.isFile "/sub/.gitignore" = true := by cbv
  have hread : scripts.disk.read "/sub/.gitignore" = .ok "x.js\n" := by cbv
  have hdirectory : scripts.disk.directory = "/" := by cbv
  have hadd : IgnoreRules.addFile scripts.disk "/sub/.gitignore" [] = ([scriptRule], none) := by
    rw [IgnoreRules.addFile, hfile, hread, hdirectory]
    rfl
  rw [Walker.enter, show ("/sub" : Path) / (⟨scripts.options.ignoreFileName⟩ : Path) =
    "/sub/.gitignore" by decide]
  rw [hadd, hfile, if_neg (by decide)]
  rfl

theorem walk_twoScripts (s : Walk) (h : s.rules = [scriptRule]) :
    scripts.walk "/sub" (.file ".gitignore" "x.js\n" (.file "x.js" "" (.file "y.js" "" .empty)))
      { s with found := [] } = .ok { s with found := ["/sub/y.js"] } := by
  obtain ⟨rules, loaded, found⟩ := s
  obtain rfl : rules = [scriptRule] := h
  rfl

/-- The inputs there are one of the scripts and the directory. -/
theorem addInput_script (name : Bytes) (cwd : Path) (files : PathSet) (s : Walk) {input : Path}
    (hinput : input.absoluteFrom cwd = "/sub" / (⟨name⟩ : Path))
    (hfile : twoScripts.isFile ("/sub" / (⟨name⟩ : Path)) = true) :
    scripts.addInput cwd files s input =
      .ok (if s.rules.isIgnored ("/sub" / (⟨name⟩ : Path)) false then files
        else files.insert ("/sub" / (⟨name⟩ : Path)), s) := by
  rw [Walker.addInput, hinput]
  exact if_pos hfile

theorem addInput_folder (cwd : Path) (files : PathSet) {s t : Walk} {input : Path}
    (hinput : input.absoluteFrom cwd = "/sub")
    (hignored : s.rules.isIgnored "/sub" true = false)
    (henter : scripts.enter "/sub" s = .ok t) (hrules : t.rules = [scriptRule]) :
    scripts.addInput cwd files s input =
      .ok (files.insert "/sub/y.js", { t with found := ["/sub/y.js"] }) := by
  have hfile : scripts.disk.isFile "/sub" = false := by cbv
  have hdirectory : scripts.disk.directory? "/sub" = some
      (.file ".gitignore" "x.js\n" (.file "x.js" "" (.file "y.js" "" .empty))) := by cbv
  have hsorted : Walker.sorted ["/sub/y.js"] = ["/sub/y.js"] := List.mergeSort_singleton _
  rw [Walker.addInput, hinput, hfile, hdirectory, hignored, henter]
  simp only [bind, Except.bind, walk_twoScripts t hrules, hsorted]
  rfl

/-- **The order of inputs matters**: the script that its directory ignores is collected before
the directory, and not after it. -/
theorem collect_order_matters :
    twoScripts.collect ["/sub/x.js", "/sub"] "/" [] script {} = .ok ["/sub/x.js", "/sub/y.js"] ∧
      twoScripts.collect ["/sub", "/sub/x.js"] "/" [] script {} = .ok ["/sub/y.js"] := by
  have hnone : scripts.disk.isFile "/.gitignore" = false := by cbv
  have henter : scripts.enter (Path.normalize "/") { rules := [] } = .ok { rules := [] } := by
    rw [Walker.enter, show Path.normalize "/" / (⟨scripts.options.ignoreFileName⟩ : Path) =
      "/.gitignore" by decide, hnone]
    rfl
  have hfile : twoScripts.isFile ("/sub" / (⟨"x.js"⟩ : Path)) = true := by cbv
  have hcollect (inputs : List Path) : twoScripts.collect inputs "/" [] script {} =
      (scripts.enter (Path.normalize "/") { rules := [] }).bind fun s =>
        (scripts.addInputs "/" .empty s inputs).map PathSet.paths := rfl
  have hinput : Path.absoluteFrom "/sub/x.js" "/" = "/sub" / (⟨"x.js"⟩ : Path) := by decide
  have hscript (files : PathSet) (s : Walk) := addInput_script "x.js" "/" files s hinput hfile
  have hroot : Path.absoluteFrom "/sub" "/" = "/sub" := by decide
  have hfolder (files : PathSet) :=
    addInput_folder "/" files hroot (by decide) enter_twoScripts rfl
  rw [hcollect, hcollect, henter]
  constructor
  · show ((scripts.addInputs _ _ _ _).map PathSet.paths) = _
    rw [Walker.addInputs, hscript]
    show ((scripts.addInputs _ _ _ _).map PathSet.paths) = _
    rw [Walker.addInputs, hfolder]
    rfl
  · show ((scripts.addInputs _ _ _ _).map PathSet.paths) = _
    rw [Walker.addInputs, hfolder]
    show ((scripts.addInputs _ _ _ _).map PathSet.paths) = _
    rw [Walker.addInputs, hscript]
    rfl

/-- What is ignored by the working directory itself does not depend on the order. -/
theorem collect_perm_twoScripts :
    twoScripts.Unobstructed ".gitignore" "/sub" ["/sub", "/sub/y.js"] ∧
    twoScripts.collect ["/sub", "/sub/y.js"] "/sub" [] script {} = .ok ["/sub/y.js"] ∧
    ∃ files, twoScripts.collect ["/sub/y.js", "/sub"] "/sub" [] script {} = .ok files ∧
      ∀ k, k ∈ [Path.key "/sub/y.js"] ↔ k ∈ files.map Path.key := by
  have hfile : twoScripts.isFile ("/sub" / (⟨"y.js"⟩ : Path)) = true := by cbv
  have hloaded : scripts.enter "/sub" informed = .ok informed := by
    rw [Walker.enter]
    exact if_pos (.inr (.inr (by decide)))
  have hcollected : twoScripts.collect ["/sub", "/sub/y.js"] "/sub" [] script {} =
      .ok ["/sub/y.js"] := by
    show (scripts.enter (Path.normalize "/sub") { rules := [] }).bind (fun s =>
      (scripts.addInputs "/sub" .empty s ["/sub", "/sub/y.js"]).map PathSet.paths) = _
    rw [show Path.normalize "/sub" = "/sub" by decide, enter_twoScripts]
    show ((scripts.addInputs _ _ _ _).map PathSet.paths) = _
    rw [Walker.addInputs, addInput_folder "/sub" .empty (by decide) (by decide)
      hloaded rfl]
    show ((scripts.addInputs _ _ _ _).map PathSet.paths) = _
    rw [Walker.addInputs, addInput_script "y.js" "/sub" _ _ (by decide) hfile]
    rfl
  have hclear : twoScripts.Unobstructed ".gitignore" "/sub" ["/sub", "/sub/y.js"] := by
    intro input hinput hdirectory other hother names hbelow habove hne _
    have hscript : twoScripts.isDirectory "/sub/y.js" = false := by cbv
    have hother : (other.absoluteFrom "/sub").trunk <+: ["sub", "y.js"] := by
      rcases List.mem_pair.mp hother with rfl | rfl <;> decide
    rcases List.mem_pair.mp hinput with rfl | rfl
    · -- only the directory itself is above the script
      have hroot : (Path.absoluteFrom "/sub" "/sub").trunk = ["sub"] := by decide
      have hcwd : (Path.normalize "/sub").trunk = ["sub"] := by decide
      rw [hroot] at hbelow
      rw [hcwd]
      rcases List.prefix_concat_iff.mp (habove.trans hother : names <+: ["sub"] ++ ["y.js"]) with
        heq | hup
      · refine absurd (habove.eq_of_length (Nat.le_antisymm habove.length_le ?_)) hne
        exact heq ▸ hother.length_le
      · exact hup.eq_of_length (Nat.le_antisymm hup.length_le hbelow.length_le)
    · rw [show Path.absoluteFrom "/sub/y.js" "/sub" = "/sub/y.js" by decide, hscript]
        at hdirectory
      exact absurd hdirectory (by simp)
  exact ⟨hclear, hcollected, collect_perm (by decide) (by decide) (.swap _ _ _)
    (by decide) (by decide) hclear hcollected⟩

end Disk

end ScriptLint
