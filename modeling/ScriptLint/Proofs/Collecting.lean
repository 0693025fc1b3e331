/-
The files that an input stands for.

The ignore files of a tree are found in the order in which directories list their entries,
and their rules come in this order too.  What is found does not depend on it:

* **`Walker.sorted_congr`** — files in whatever order have one order by paths;
* **`Disk.collect_reordered`** — for every order, collecting fails, or for every order it
  returns the same files, in path order and each once.
-/
import Mathlib.Data.List.Nodup
import ScriptLint.Proofs.Gathering

namespace ScriptLint

/-! ### Files in path order -/

/-- Path by path further on in path order, so none of them twice. -/
def Ascending (files : List Path) : Prop :=
  (files.map Path.key).Pairwise fun k k' => compare k k' = .lt

/-- Distinct paths are kept in their order. -/
theorem PathSet.paths_foldl_insert {files : List Path} (h : (files.map Path.key).Nodup)
    (s : PathSet) (hnew : ∀ p ∈ files, s.contains p = false) :
    (files.foldl PathSet.insert s).paths = s.paths ++ files := by
  induction files generalizing s with
  | nil => exact (List.append_nil _).symm
  | cons p rest ih =>
    rw [List.map_cons, List.nodup_cons] at h
    have hinsert : (s.insert p).paths = s.paths ++ [p] := by
      rw [insert, if_neg (by rw [hnew p List.mem_cons_self]; simp)]
    rw [List.foldl_cons, ih h.2, hinsert, List.append_assoc]
    · rfl
    · intro q hq
      by_contra hcontains
      obtain ⟨x, hx, hkey⟩ := (contains_iff _ _).mp ((Bool.not_eq_false _).mp hcontains)
      rw [hinsert, List.mem_append, List.mem_singleton] at hx
      rcases hx with hx | rfl
      · have hold : s.contains q = true := (contains_iff _ _).mpr ⟨x, hx, hkey⟩
        rw [hnew q (List.mem_cons_of_mem _ hq)] at hold
        exact absurd hold (by simp)
      · exact h.1 (hkey ▸ List.mem_map_of_mem hq)

namespace Walker

/-- **Files in whatever order have one order by paths**, if none is there twice. -/
theorem sorted_congr {files files' : List Path} (h : files.Perm files')
    (hnodup : (files.map Path.key).Nodup) :
    sorted files = sorted files' ∧ Ascending (sorted files) := by
  have htrans (p q r : Path) (hpq : (compare p.key q.key).isLE = true)
      (hqr : (compare q.key r.key).isLE = true) : (compare p.key r.key).isLE = true :=
    Std.TransCmp.isLE_trans hpq hqr
  have hswap (k k' : Path.Key) : compare k' k = (compare k k').swap := Std.OrientedCmp.eq_swap
  have htotal (p q : Path) : ((compare p.key q.key).isLE || (compare q.key p.key).isLE) = true := by
    rw [hswap p.key q.key]
    cases compare p.key q.key <;> rfl
  have hsorted (l : List Path) : (sorted l).Pairwise fun p q => (compare p.key q.key).isLE = true :=
    List.pairwise_mergeSort htrans htotal l
  have hperm (l : List Path) : (sorted l).Perm l := List.mergeSort_perm l _
  have hkeys : ((sorted files).map Path.key).Nodup :=
    ((hperm files).map Path.key).nodup_iff.mpr hnodup
  constructor
  · refine List.Perm.eq_of_pairwise (fun p q hp hq hpq hqp => ?_) (hsorted files) (hsorted files')
      ((hperm files).trans (h.trans (hperm files').symm))
    have hkey : p.key = q.key := by
      rw [hswap p.key q.key] at hqp
      cases hcompare : compare p.key q.key with
      | eq => exact Std.LawfulEqOrd.eq_of_compare hcompare
      | lt => rw [hcompare] at hqp; exact absurd hqp (by decide)
      | gt => rw [hcompare] at hpq; exact absurd hpq (by decide)
    have hq : q ∈ sorted files :=
      (hperm files).mem_iff.mpr (h.mem_iff.mpr ((hperm files').mem_iff.mp hq))
    exact List.inj_on_of_nodup_map hkeys hp hq hkey
  · refine List.pairwise_map.mpr ((hsorted files).imp₂ (fun p q hle hne => ?_)
      (List.pairwise_map.mp hkeys))
    cases hcompare : compare p.key q.key with
    | lt => rfl
    | eq => exact absurd (Std.LawfulEqOrd.eq_of_compare hcompare) hne
    | gt => rw [hcompare] at hle; exact absurd hle (by decide)

/-! ### Disks whose directories are listed in another order -/

variable {d d' : Disk} {accepts : Path → Bool} {options : WalkOptions}

/-- The ignore file of a directory is the same. -/
theorem enter_reordered (h : d.Reordered d') (hlawful : d.root.Lawful) (p : Path) (s : Walk) :
    (Walker.mk d accepts options).enter p s = (Walker.mk d' accepts options).enter p s := by
  have hadd (rules : IgnoreRules) (file : Path) : rules.addFile d file = rules.addFile d' file := by
    rw [IgnoreRules.addFile, IgnoreRules.addFile, Disk.isFile_reordered h hlawful,
      Disk.read_reordered h hlawful, Disk.directory_reordered h]
  simp only [enter, hadd, Disk.isFile_reordered h hlawful]

/-- So is what the entries of a directory contribute. -/
theorem gather_reordered_disk (h : d.Reordered d') (hlawful : d.root.Lawful) (inner : Directory)
    (p : Path) (s : Walk) : (Walker.mk d accepts options).gather p inner s =
      (Walker.mk d' accepts options).gather p inner s := by
  induction inner generalizing p s with
  | empty => rfl
  | file name text rest ih =>
    rw [gather, gather, ih]
    rfl
  | link name target rest ih =>
    rw [gather, gather, ih, linked, linked, enter_reordered h hlawful]
    simp only [Disk.isDirectory_reordered h hlawful, Disk.isFile_reordered h hlawful]
    rfl
  | folder name inner rest hinner ih =>
    have hgather : (Walker.mk d accepts options).gather (p / (⟨name⟩ : Path)) inner =
        (Walker.mk d' accepts options).gather (p / (⟨name⟩ : Path)) inner := funext (hinner _)
    rw [gather, gather, ih, hgather, enter_reordered h hlawful]
    rfl

/-- Two ways to fail or to return the same files, in path order. -/
abbrev SamePaths : Outcome (List Path) → Outcome (List Path) → Prop :=
  SameResult (fun _ _ => True) fun files files' => files = files' ∧ Ascending files

/-- The files of a directory that is walked. -/
theorem walked_reordered (h : d.Reordered d') (hlawful : d.root.Lawful)
    (hslash : '/'.toUInt8 ∉ options.ignoreFileName) {inner inner' : Directory}
    (hinner : inner.Reordered inner') (hlawful' : inner.Lawful) {p : Path} (hp : p.Solid)
    (s : Walk) (hs : s.found = []) :
    SamePaths
      (((Walker.mk d accepts options).walk p inner s).map fun t =>
        ((sorted t.found).foldl PathSet.insert PathSet.empty).paths)
      (((Walker.mk d' accepts options).walk p inner' s).map fun t =>
        ((sorted t.found).foldl PathSet.insert PathSet.empty).paths) := by
  have hwalk := walk_gathers (w := Walker.mk d accepts options) hslash inner p s s hp hlawful'
    fun _ _ => .refl _ s
  have hwalk' := walk_gathers (w := Walker.mk d' accepts options) hslash inner' p s s hp
    (hinner.lawful hlawful') fun _ _ => .refl _ s
  have hfiles := gather_reordered (w := Walker.mk d accepts options) hinner p s
  have hnodup (files : List Path)
      (hfiles : (Walker.mk d accepts options).gather p inner s = .ok files) :
      (files.map Path.key).Nodup := (nodup_gather hlawful' hfiles).2
  rw [← gather_reordered_disk h hlawful] at hwalk'
  generalize (Walker.mk d accepts options).gather p inner s = o,
    (Walker.mk d accepts options).gather p inner' s = o',
    (Walker.mk d accepts options).walk p inner s = x,
    (Walker.mk d' accepts options).walk p inner' s = x' at hwalk hwalk' hfiles hnodup ⊢
  cases hfiles with
  | error =>
    cases hwalk with
    | error =>
      cases hwalk' with
      | error => exact .error trivial
  | @ok files files' hperm =>
    cases hwalk with
    | @ok _ t ht =>
      cases hwalk' with
      | @ok _ t' ht' =>
        have hkeys := hnodup files rfl
        have hfound : t.found = files.reverse := by rw [ht.found, hs, List.append_nil]
        have hfound' : t'.found = files'.reverse := by rw [ht'.found, hs, List.append_nil]
        have hreverse : t.found.Perm t'.found := by
          rw [hfound, hfound']
          exact (files.reverse_perm.trans hperm).trans files'.reverse_perm.symm
        have hfoundKeys : (t.found.map Path.key).Nodup := by
          rw [hfound]
          exact ((files.reverse_perm).map Path.key).nodup_iff.mpr hkeys
        obtain ⟨hsame, hascending⟩ := sorted_congr hreverse hfoundKeys
        have hsortedKeys : ((sorted t.found).map Path.key).Nodup :=
          ((List.mergeSort_perm t.found _).map Path.key).nodup_iff.mpr hfoundKeys
        have hpaths := PathSet.paths_foldl_insert hsortedKeys PathSet.empty fun p _ => by rfl
        refine .ok ⟨congrArg (fun l => (l.foldl PathSet.insert PathSet.empty).paths) hsame, ?_⟩
        show Ascending ((sorted t.found).foldl PathSet.insert PathSet.empty).paths
        rw [hpaths]
        exact hascending

/-- The files of an input. -/
theorem addInput_reordered (h : d.Reordered d') (hlawful : d.root.Lawful)
    (hslash : '/'.toUInt8 ∉ options.ignoreFileName) (cwd input : Path) (s : Walk) :
    SamePaths
      (((Walker.mk d accepts options).addInput cwd .empty s input).map fun x => x.1.paths)
      (((Walker.mk d' accepts options).addInput cwd .empty s input).map fun x => x.1.paths) := by
  have hdirectory := Disk.directory?_reordered h hlawful (input.absoluteFrom cwd)
  have hinner (inner : Directory) : d.directory? (input.absoluteFrom cwd) = some inner →
      inner.Lawful := Disk.lawful_of_directory? hlawful
  have hsolid : (input.absoluteFrom cwd).Solid := Path.solid_normalize _
  rw [addInput, addInput]
  simp only [Disk.isFile_reordered h hlawful]
  split
  · -- a file is taken as it is
    refine .ok ⟨rfl, ?_⟩
    show Ascending (if _ then PathSet.empty else PathSet.empty.insert _).paths
    split
    · exact List.Pairwise.nil
    · exact List.pairwise_singleton _ _
  generalize d.directory? (input.absoluteFrom cwd) = o,
    d'.directory? (input.absoluteFrom cwd) = o' at hdirectory hinner ⊢
  cases hdirectory with
  | none => exact .error trivial
  | @some inner inner' hreordered =>
    simp only
    split
    · exact .ok ⟨rfl, List.Pairwise.nil⟩
    rw [enter_reordered h hlawful]
    cases (Walker.mk d' accepts options).enter (input.absoluteFrom cwd) s with
    | error e => exact .error trivial
    | ok t =>
      have hwalked := @walked_reordered d d' accepts options h hlawful hslash inner inner' hreordered
        (hinner inner rfl) _ hsolid { t with found := [] } rfl
      have hmap (o : Outcome Walk) : (do
          let t ← o
          return ((sorted t.found).foldl PathSet.insert PathSet.empty, t)).map
            (fun x : PathSet × Walk => x.1.paths) =
          o.map fun t => ((sorted t.found).foldl PathSet.insert PathSet.empty).paths := by
        cases o <;> rfl
      rw [← hmap, ← hmap] at hwalked
      exact hwalked

end Walker

/-- **What a single input stands for does not depend on the order in which directories are
listed**: either collecting fails in every order, or it returns in every order the same
files, in path order and each once.  The ignore files of the tree, which have any one name,
have any rules, and so has the beginning. -/
theorem Disk.collect_reordered {d d' : Disk} (h : d.Reordered d') (hlawful : d.root.Lawful)
    {options : WalkOptions} (hslash : '/'.toUInt8 ∉ options.ignoreFileName) (input cwd : Path)
    (rules : IgnoreRules) (accepts : Path → Bool) :
    ((∃ e, d.collect [input] cwd rules accepts options = .error e) ∧
      ∃ e, d'.collect [input] cwd rules accepts options = .error e) ∨
    ∃ files, d.collect [input] cwd rules accepts options = .ok files ∧
      d'.collect [input] cwd rules accepts options = .ok files ∧ Ascending files := by
  have hsingle (w : Walker) (s : Walk) :
      (do return (← w.addInputs cwd .empty s [input]).paths) =
        (w.addInput cwd .empty s input).map fun x => x.1.paths := by
    rw [Walker.addInputs]
    cases w.addInput cwd .empty s input <;> rfl
  have hcollect (d : Disk) : d.collect [input] cwd rules accepts options =
      ((Walker.mk d accepts options).enter cwd.normalize { rules }).bind fun s =>
        ((Walker.mk d accepts options).addInput cwd .empty s input).map fun x => x.1.paths := by
    rw [collect]
    show (Walker.enter _ _ _).bind _ = _
    simp only [hsingle]
  rw [hcollect, hcollect, Walker.enter_reordered h hlawful]
  cases (Walker.mk d' accepts options).enter cwd.normalize { rules } with
  | error e => exact .inl ⟨⟨e, rfl⟩, e, rfl⟩
  | ok s =>
    have hinput := @Walker.addInput_reordered d d' accepts options h hlawful hslash cwd input s
    show ((∃ e, ((Walker.mk d accepts options).addInput cwd .empty s input).map _ = _) ∧
      ∃ e, ((Walker.mk d' accepts options).addInput cwd .empty s input).map _ = _) ∨
      ∃ files, ((Walker.mk d accepts options).addInput cwd .empty s input).map _ = _ ∧
        ((Walker.mk d' accepts options).addInput cwd .empty s input).map _ = _ ∧ _
    generalize ((Walker.mk d accepts options).addInput cwd .empty s input).map _ = x,
      ((Walker.mk d' accepts options).addInput cwd .empty s input).map _ = x' at hinput ⊢
    cases hinput with
    | error => exact .inl ⟨⟨_, rfl⟩, _, rfl⟩
    | ok hsame =>
      obtain ⟨rfl, hascending⟩ := hsame
      exact .inr ⟨_, rfl, rfl, hascending⟩

/-- Two directories with a script of the same name, which the first one ignores. -/
def Disk.twoFolders : Disk where
  root := .folder "a" (.file ".gitignore" "x.js\n" (.file "x.js" "" (.file "y.js" "" .empty)))
    (.folder "b" (.file "x.js" "" .empty) .empty)

/-- The same directories, listed the other way round. -/
def Disk.twoFoldersBack : Disk where
  root := .folder "b" (.file "x.js" "" .empty)
    (.folder "a" (.file ".gitignore" "x.js\n" (.file "y.js" "" (.file "x.js" "" .empty))) .empty)

/-- Where a script is ignored in one directory and taken in another, the same is collected
in whatever order they are listed. -/
theorem Disk.collect_reordered_twoFolders : twoFolders.Reordered twoFoldersBack ∧
    (((∃ e, twoFolders.collect [⟨"/"⟩] ⟨"/"⟩ [] (fun _ => true) {} = .error e) ∧
      ∃ e, twoFoldersBack.collect [⟨"/"⟩] ⟨"/"⟩ [] (fun _ => true) {} = .error e) ∨
    ∃ files, twoFolders.collect [⟨"/"⟩] ⟨"/"⟩ [] (fun _ => true) {} = .ok files ∧
      twoFoldersBack.collect [⟨"/"⟩] ⟨"/"⟩ [] (fun _ => true) {} = .ok files ∧
      Ascending files) := by
  have hinner : (Directory.cons "x.js" (.file "") (.cons "y.js" (.file "") .empty)).Reordered
      (.cons "y.js" (.file "") (.cons "x.js" (.file "") .empty)) := .swap
  have hfolder : twoFolders.root.Reordered
      (.cons "a" (.folder (.file ".gitignore" "x.js\n" (.file "y.js" "" (.file "x.js" "" .empty))))
        (.cons "b" (.folder (.file "x.js" "" .empty)) .empty)) := .folder hinner.file (.refl _)
  have hreordered : twoFolders.Reordered twoFoldersBack := ⟨hfolder.trans .swap, rfl⟩
  exact ⟨hreordered, collect_reordered hreordered (by decide) (by decide)
    ⟨"/"⟩ ⟨"/"⟩ [] fun _ => true⟩

end ScriptLint
