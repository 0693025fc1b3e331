/-
Normal forms of paths.

Names are resolved one after the other against those that are kept so far, and what is kept always
has one shape: names that stand for themselves, above a run of `..` that is empty below the root.
What has this shape stays as it is when it is resolved, so that a normal form is its own; and as
the names in front of others are resolved first, they may just as well have been resolved before:

* **`Path.keep`** — one more name, and **`Path.collapse_append`** — more names behind others;
* **`Path.Leveled`** — the shape of what is kept, with `Leveled.keep` for one name and
  `Leveled.collapse` for all of them;
* **`Path.collapse_of_leveled`** — what has the shape stays;
* **`Path.shape_normalize`**, **`Path.normalize_normalize`**, **`Path.normalize_append`** — what it
  means for paths;
* **`Path.normalize_canonical`** — all of it, and what a specifier leads to.
-/
import ScriptLint.Proofs.Folders

namespace ScriptLint

namespace Path

/-! ### One name after the other -/

/-- The names kept so far, last one first, after one more name. -/
def keep (rooted : Bool) (kept : List Bytes) (name : Bytes) : List Bytes :=
  if name = "." then kept
  else if name = ".." then
    match kept with
    | [] => if rooted then [] else [name]
    | last :: before => if last = ".." then name :: kept else before
  else if name = [] ∧ kept = [] then kept
  else name :: kept

theorem collapse_cons (rooted : Bool) (kept : List Bytes) (name : Bytes) (rest : List Bytes) :
    collapse rooted kept (name :: rest) = collapse rooted (keep rooted kept name) rest := by
  rw [collapse.eq_def]
  unfold keep
  simp only
  split
  · rfl
  split
  · cases kept with
    | nil => rfl
    | cons last before =>
      simp only
      split <;> rfl
  split <;> rfl

/-- Resolving names and then more of them is resolving them all. -/
theorem collapse_append (rooted : Bool) (kept names more : List Bytes) :
    collapse rooted kept (names ++ more) =
      collapse rooted (collapse rooted kept names).reverse more := by
  induction names generalizing kept with
  | nil => rw [List.nil_append, collapse, List.reverse_reverse]
  | cons name rest ih => rw [List.cons_append, collapse_cons, collapse_cons, ih]

/-- Names, last one first, that stand for themselves above a run of `..`; below the root there is
no such run. -/
def Leveled (rooted : Bool) (kept : List Bytes) : Prop :=
  ∃ up down, kept = down ++ List.replicate up (".." : Bytes) ∧ (∀ name ∈ down, Stands name) ∧
    (rooted = true → up = 0)

variable {rooted : Bool} {kept names : List Bytes}

theorem Leveled.nil : Leveled rooted [] := ⟨0, [], rfl, by simp, fun _ => rfl⟩

/-- One more name keeps the run of `..` below the others. -/
theorem Leveled.keep (h : Leveled rooted kept) (name : Bytes) :
    Leveled rooted (keep rooted kept name) := by
  obtain ⟨up, down, rfl, hdown, hup⟩ := h
  unfold Path.keep
  split
  · exact ⟨up, down, rfl, hdown, hup⟩
  rename_i hdot
  split
  · rename_i hdots
    cases down with
    | nil =>
      cases up with
      | zero =>
        cases rooted with
        | true => exact .nil
        | false => exact ⟨1, [], by rw [hdots]; rfl, by simp, by simp⟩
      | succ up =>
        -- there is nothing to take back
        refine ⟨up + 2, [], ?_, by simp, fun h => absurd (hup h) (by simp)⟩
        rw [hdots, List.nil_append, List.nil_append]
        exact if_pos rfl
    | cons last before =>
      have hlast := hdown last List.mem_cons_self
      exact ⟨up, before, if_neg hlast.2, fun n hn => hdown n (List.mem_cons_of_mem _ hn), hup⟩
  rename_i hdots
  split
  · exact ⟨up, down, rfl, hdown, hup⟩
  · exact ⟨up, name :: down, rfl, List.forall_mem_cons.mpr ⟨⟨hdot, hdots⟩, hdown⟩, hup⟩

/-- So it is with all names. -/
theorem Leveled.collapse (h : Leveled rooted kept) (names : List Bytes) :
    Leveled rooted (collapse rooted kept names).reverse := by
  induction names generalizing kept with
  | nil => rwa [Path.collapse, List.reverse_reverse]
  | cons name rest ih =>
    rw [collapse_cons]
    exact ih (h.keep name)

/-- A run of `..` is kept, if not below the root. -/
theorem collapse_replicate (n up : Nat) (rest : List Bytes) :
    collapse false (List.replicate n (".." : Bytes)) (List.replicate up (".." : Bytes) ++ rest) =
      collapse false (List.replicate (n + up) (".." : Bytes)) rest := by
  induction up generalizing n with
  | zero => rfl
  | succ up ih =>
    have hkeep : keep false (List.replicate n (".." : Bytes)) ".." =
        List.replicate (n + 1) (".." : Bytes) := by
      cases n <;> rfl
    rw [List.replicate_succ, List.cons_append, collapse_cons, hkeep, ih, Nat.add_right_comm,
      Nat.add_assoc]

/-- **What has the shape of a normal form stays.** -/
theorem collapse_of_leveled (h : Leveled rooted names.reverse) (hhead : names.head? ≠ some []) :
    collapse rooted [] names = names := by
  obtain ⟨up, down, hnames, hdown, hup⟩ := h
  obtain rfl : names = List.replicate up (".." : Bytes) ++ down.reverse := by
    rw [← List.reverse_reverse names, hnames, List.reverse_append, List.reverse_replicate]
  have hstands : ∀ name ∈ down.reverse, Stands name := fun name hname =>
    hdown name (List.mem_reverse.mp hname)
  cases up with
  | zero =>
    exact collapse_of_forall_stands hstands (.inr hhead)
  | succ up =>
    cases rooted with
    | true => exact absurd (hup rfl) (by simp)
    | false =>
      have hrun := collapse_replicate 0 (up + 1) down.reverse
      rw [Nat.zero_add] at hrun
      rw [← List.replicate_zero, hrun, collapse_of_forall_stands hstands (.inl (by simp)),
        List.reverse_replicate]

/-- What is left of names stays as it is. -/
theorem collapse_collapse (rooted : Bool) (names : List Bytes) :
    collapse rooted [] (collapse rooted [] names) = collapse rooted [] names :=
  collapse_of_leveled (Leveled.nil.collapse names) (head?_collapse (by simp))

/-! ### From names to paths -/

/-- A slash at the end is kept behind names, and dropped where there are none. -/
theorem collapse_concat_nil (rooted : Bool) (names : List Bytes) :
    collapse rooted [] (names ++ [[]]) =
      if collapse rooted [] names = [] then [] else collapse rooted [] names ++ [[]] := by
  rw [collapse_append, collapse_cons, collapse]
  by_cases hnil : collapse rooted [] names = []
  · rw [if_pos hnil, hnil]
    cases rooted <;> decide
  · have hkeep : keep rooted (collapse rooted [] names).reverse [] =
        [] :: (collapse rooted [] names).reverse := by
      unfold keep
      rw [if_neg (by decide), if_neg (by decide), if_neg (by simpa using hnil)]
    rw [if_neg hnil, hkeep, List.reverse_cons, List.reverse_reverse]

/-- Without the slash at its end, what is left of the names of a path comes from its trunk. -/
theorem filter_collapse (rooted : Bool) (p : Path) :
    (collapse rooted [] p.names).filter (· ≠ []) = collapse rooted [] p.trunk := by
  have hfilled : (collapse rooted [] p.trunk).filter (· ≠ []) =
      collapse rooted [] p.trunk := by
    refine List.filter_eq_self.mpr fun name hname => ?_
    have hmem := ((mem_collapse hname).resolve_left List.not_mem_nil).1
    simpa using ne_nil_of_mem_trunk hmem
  rw [names_eq_trunk]
  split
  · rw [collapse_concat_nil]
    split
    · rename_i hnil
      rw [hnil, List.filter_nil]
    · -- the name that the slash is goes, and no other one is empty
      rw [List.filter_append, hfilled]
      exact List.append_nil _
  · exact hfilled

theorem normalize_of_isRoot {p : Path} (h : p.isRoot = true) : p.normalize = p := if_pos h

/-- What is left of the names of a path is none, or a path of names. -/
theorem normalize_of_not_isRoot {p : Path} (h : p.isRoot = false) : p.normalize =
    if collapse p.isAbsolute [] p.names = [] ∧ !p.isAbsolute then ("." : Path)
    else ofNames p.isAbsolute (collapse p.isAbsolute [] p.names) :=
  if_neg (by rw [h]; simp)

/-- So it is with the root, if it is spelled with one slash. -/
theorem normalize_eq {p : Path} (hroot : p.isRoot = true → p = "/") : p.normalize =
    if collapse p.isAbsolute [] p.names = [] ∧ !p.isAbsolute then ("." : Path)
    else ofNames p.isAbsolute (collapse p.isAbsolute [] p.names) := by
  cases h : p.isRoot with
  | true =>
    rw [normalize_of_isRoot h, hroot h]
    decide
  | false => exact normalize_of_not_isRoot h

/-- The names of what is left of a path. -/
theorem names_ofNames_collapse (p : Path) :
    (ofNames p.isAbsolute (collapse p.isAbsolute [] p.names)).names =
      collapse p.isAbsolute [] p.names := by
  refine names_ofNames_of_filled (fun name hname => ?_) ?_ (head?_collapse (by simp))
  · exact slash_of_mem_names ((mem_collapse hname).resolve_left List.not_mem_nil).1
  · refine filled_collapse (by simp) fun name hname => ?_
    rw [dropLast_names] at hname
    simpa using (List.mem_filter.mp hname).2

/-- A normal form made of slashes is the path itself or the root. -/
theorem eq_root_of_isRoot_normalize {p : Path} (h : p.normalize.isRoot = true) :
    p.isRoot = true ∨ p.normalize = "/" := by
  refine (Bool.eq_false_or_eq_true p.isRoot).imp_right fun hroot => ?_
  obtain ⟨habsolute, hnames⟩ := (isRoot_iff _).mp h
  rw [isAbsolute_normalize] at habsolute
  have hnormalize := normalize_of_not_isRoot hroot
  rw [if_neg (by simp [habsolute])] at hnormalize
  rw [hnormalize, names_ofNames_collapse] at hnames
  rw [hnormalize, hnames, habsolute]
  rfl

/-- **A normal form is its own.** -/
theorem normalize_normalize (p : Path) : p.normalize.normalize = p.normalize := by
  cases hroot : p.isRoot with
  | true =>
    rw [normalize_of_isRoot hroot, normalize_of_isRoot hroot]
  | false =>
    have hnormalize := normalize_of_not_isRoot hroot
    -- the normal form may be the root although the path is not, as of `/..`
    rw [@normalize_eq p.normalize fun hslashes =>
      (eq_root_of_isRoot_normalize hslashes).resolve_left (by simp [hroot])]
    rw [isAbsolute_normalize]
    split at hnormalize
    · rename_i hdot
      have habsolute : p.isAbsolute = false := by simpa using hdot.2
      rw [hnormalize, habsolute]
      decide
    · rename_i hdot
      have hnames : p.normalize.names = collapse p.isAbsolute [] p.names := by
        rw [hnormalize, names_ofNames_collapse]
      rw [hnames, collapse_collapse, if_neg hdot, hnormalize]

/-- **A normal form has no `.` but the lone one, and `..` only in a run at its beginning**, which
is empty below the root. -/
theorem shape_normalize (p : Path) : (("." : Bytes) ∈ p.normalize.names → p.normalize = ".") ∧
    ∃ up down, p.normalize.names = List.replicate up (".." : Bytes) ++ down ∧
      (".." : Bytes) ∉ down ∧ (p.normalize.isAbsolute = true → up = 0) := by
  cases hroot : p.isRoot with
  | true =>
    rw [normalize_of_isRoot hroot, ((isRoot_iff p).mp hroot).2]
    exact ⟨fun hdot => absurd hdot List.not_mem_nil, 0, [], rfl, List.not_mem_nil, fun _ => rfl⟩
  | false =>
    have hnormalize := normalize_of_not_isRoot hroot
    split at hnormalize
    · rw [hnormalize]
      exact ⟨fun _ => rfl, 0, ["."], rfl, by decide, fun _ => rfl⟩
    have hnames : p.normalize.names = collapse p.isAbsolute [] p.names := by
      rw [hnormalize, names_ofNames_collapse]
    obtain ⟨up, down, hkept, hdown, hup⟩ :=
      (Leveled.nil : Leveled p.isAbsolute []).collapse p.names
    rw [hnames, isAbsolute_normalize]
    constructor
    · intro hdot
      exact absurd rfl ((mem_collapse hdot).resolve_left List.not_mem_nil).2.1
    · refine ⟨up, down.reverse, ?_, fun hdots => ?_, hup⟩
      · rw [← List.reverse_reverse (collapse p.isAbsolute [] p.names), hkept,
          List.reverse_append, List.reverse_replicate]
      · exact (hdown _ (List.mem_reverse.mp hdots)).2 rfl

/-- **A path of this shape has the key of its normal form.** -/
theorem key_normalize_of_shape {p : Path} (hp : p.text ≠ []) {up : Nat} {down : List Bytes}
    (hnames : p.names = List.replicate up (".." : Bytes) ++ down) (hdown : ∀ n ∈ down, Stands n)
    (hup : p.isAbsolute = true → up = 0) : p.normalize.key = p.key := by
  cases hroot : p.isRoot with
  | true => rw [normalize_of_isRoot hroot]
  | false =>
    have hleveled : Leveled p.isAbsolute p.names.reverse := by
      refine ⟨up, down.reverse, ?_, fun n hn => hdown n (List.mem_reverse.mp hn), hup⟩
      rw [hnames, List.reverse_append, List.reverse_replicate]
    have hcollapse := collapse_of_leveled hleveled p.head?_names
    have hkeeps : ¬(p.names = [] ∧ (!p.isAbsolute) = true) := fun h =>
      hp ((text_eq_nil_iff p).mpr ⟨by simpa using h.2, h.1⟩)
    have hself := names_ofNames_collapse p
    have hnormalize := normalize_of_not_isRoot hroot
    rw [hcollapse] at hself
    rw [hcollapse, if_neg hkeeps] at hnormalize
    rw [key, isAbsolute_normalize, hnormalize, hself, key]

/-! ### Paths below other ones -/

theorem isAbsolute_append_of_relative (p : Path) {q : Path} (hq : q.isAbsolute = false) :
    (p / q).isAbsolute = p.isAbsolute := by
  rcases p.text_append hq with ⟨hempty, htext⟩ | ⟨stem, -, -, hsame, htext⟩
  · rw [((text_eq_nil_iff p).mp hempty).1, ← hq, isAbsolute, htext, isAbsolute]
  · rw [hsame, ← htext]

/-- The two parts of a path below another one: of that one the trunk counts. -/
theorem parts_append (p : Path) {q : Path} (hq : q.isAbsolute = false) :
    lead (p / q).text = p.trunk ++ lead q.text ∧ final (p / q).text = final q.text := by
  rcases p.text_append hq with ⟨hempty, htext⟩ | ⟨stem, hstem, -, -, htext⟩
  · rw [htext, trunk, hempty]
    exact ⟨rfl, rfl⟩
  · have hne := Bytes.splitOn_ne_nil '/' q.text
    rw [lead, final, htext, Bytes.splitOn_append_cons, List.dropLast_append_of_ne_nil hne,
      List.filter_append, ← hstem, List.getLast?_append_of_ne_nil _ hne]
    exact ⟨rfl, rfl⟩

/-- What is left of the names of a path below another one. -/
theorem collapse_names_append (rooted : Bool) (p : Path) {q : Path} (hq : q.isAbsolute = false) :
    collapse rooted [] (p / q).names =
      collapse rooted [] (p.trunk ++ (lead q.text ++ [final q.text])) := by
  rw [names_eq, (p.parts_append hq).1, (p.parts_append hq).2, ← List.append_assoc]
  split
  · rename_i hnil
    rw [hnil.1, hnil.2, collapse_concat_nil]
    rfl
  · rfl

/-- Only the root is spelled with slashes alone below a path that is not. -/
theorem eq_root_of_isRoot_append {p q : Path} (hq : q.isAbsolute = false)
    (hp : p.isRoot = true → p = "/") (h : (p / q).isRoot = true) : p / q = "/" := by
  obtain ⟨habsolute, hnames⟩ := (isRoot_iff _).mp h
  have hslashes := (names_eq_nil_iff _).mp hnames
  rcases p.text_append hq with ⟨-, htext⟩ | ⟨stem, hstem, -, hsame, htext⟩
  · rw [isAbsolute, htext, ← isAbsolute, hq] at habsolute
    cases habsolute
  rw [htext] at hslashes
  have hempty : q = ⟨[]⟩ := by
    have hnil : q.text = [] := (text_eq_nil_iff q).mpr ⟨hq, (names_eq_nil_iff q).mpr fun b hb =>
      hslashes b (List.mem_append_right _ (List.mem_cons_of_mem _ hb))⟩
    rw [← hnil]
  have htrunk : p.trunk = [] := by
    rw [← hstem, filled_eq_nil_iff]
    exact fun b hb => hslashes b (List.mem_append_left _ hb)
  have hroot : p.isRoot = true := by
    refine (isRoot_iff p).mpr ⟨?_, ?_⟩
    · rw [hsame, ← htext]
      exact habsolute
    · rw [names_eq_trunk, htrunk, if_neg fun hnot => hnot.1 rfl]
  rw [hp hroot, hempty]
  decide

/-- What is left of a path and of its normal form is the same for what stands below them. -/
theorem collapse_trunk_normalize (p : Path) :
    collapse p.isAbsolute [] p.normalize.trunk = collapse p.isAbsolute [] p.trunk := by
  cases hroot : p.isRoot with
  | true => rw [normalize_of_isRoot hroot]
  | false =>
    have hnormalize := normalize_of_not_isRoot hroot
    split at hnormalize
    · rename_i hdot
      have hnil : collapse p.isAbsolute [] p.trunk = [] := by
        rw [← filter_collapse, hdot.1, List.filter_nil]
      rw [hnil, hnormalize]
      cases p.isAbsolute <;> decide
    · have htrunk : p.normalize.trunk = collapse p.isAbsolute [] p.trunk := by
        rw [hnormalize, trunk_ofNames fun name hname => slash_of_mem_names
          ((mem_collapse hname).resolve_left List.not_mem_nil).1, filter_collapse]
      rw [htrunk, collapse_collapse]

/-- **A path below another one has the normal form of the path below the normal form.** -/
theorem normalize_append (p q : Path) : (p / q).normalize = (p.normalize / q).normalize := by
  cases hq : q.isAbsolute with
  | true => rw [append_of_isAbsolute _ hq, append_of_isAbsolute _ hq]
  | false =>
    cases hroot : p.isRoot with
    | true => rw [normalize_of_isRoot hroot]
    | false =>
      have hp : p.isRoot = true → p = "/" := fun hslashes =>
        absurd (hroot.symm.trans hslashes) (by simp)
      have hn : p.normalize.isRoot = true → p.normalize = "/" := fun hslashes =>
        (eq_root_of_isRoot_normalize hslashes).resolve_left (by simp [hroot])
      -- the names in front are resolved first, and may have been before
      have hnames : collapse p.isAbsolute [] (p / q).names =
          collapse p.isAbsolute [] (p.normalize / q).names := by
        rw [collapse_names_append _ _ hq, collapse_names_append _ _ hq, collapse_append,
          collapse_append _ _ p.normalize.trunk, collapse_trunk_normalize]
      rw [normalize_eq (eq_root_of_isRoot_append hq hp),
        normalize_eq (eq_root_of_isRoot_append hq hn), isAbsolute_append_of_relative _ hq,
        isAbsolute_append_of_relative _ hq, isAbsolute_normalize, hnames]

theorem absoluteFrom_normalize (p base : Path) :
    p.absoluteFrom base.normalize = p.absoluteFrom base := by
  rw [absoluteFrom, absoluteFrom]
  split
  · rfl
  · exact (normalize_append base p).symm

end Path

/-- **Normal forms are canonical, and paths may be put together before or after they are taken.**  A
normal form is its own; it has no `.` but the lone one, and `..` only in a run at the beginning of
a relative path, and what has this shape stays the same path; and a specifier leads to the same
file from a directory and from its normal form. -/
theorem Path.normalize_canonical :
    (∀ p : Path, p.normalize.normalize = p.normalize ∧
      (("." : Bytes) ∈ p.normalize.names → p.normalize = ".") ∧
      ∃ up down, p.normalize.names = List.replicate up (".." : Bytes) ++ down ∧
        (".." : Bytes) ∉ down ∧ (p.normalize.isAbsolute = true → up = 0)) ∧
    (∀ (p : Path) (up : Nat) (down : List Bytes), p.text ≠ [] →
      p.names = List.replicate up (".." : Bytes) ++ down → (∀ n ∈ down, Stands n) →
      (p.isAbsolute = true → up = 0) → p.normalize.key = p.key) ∧
    (∀ p q : Path, (p / q).normalize = (p.normalize / q).normalize) ∧
    ∀ (r : Resolver) (isFile : Path → Bool) (directory : Path) (specifier : Bytes),
      r.resolve isFile directory.normalize specifier = r.resolve isFile directory specifier := by
  refine ⟨fun p => ⟨normalize_normalize p, shape_normalize p⟩,
    fun p up down hp hnames hdown hup => key_normalize_of_shape hp hnames hdown hup,
    normalize_append, fun r isFile directory specifier => ?_⟩
  rw [Resolver.resolve, Resolver.resolve, Resolver.candidates, Resolver.candidates,
    absoluteFrom_normalize]

/-- A path that goes up twice, with slashes that do not count and one that does. -/
theorem Path.normalize_canonical_upwards :
    let p : Path := "a/./../../b//c/"
    let normal : Path := "../b/c/"
    p.normalize = normal ∧ normal.normalize = normal ∧
      normal.normalize.key = normal.key ∧ (p / ("../d" : Path)).normalize = "../b/d" ∧
      (normal / ("../d" : Path)).normalize = "../b/d" ∧
      ("./" : Path).normalize = "." := by
  intro p normal
  obtain ⟨hcanonical, hshape, happend, -⟩ := normalize_canonical
  have hnormal : p.normalize = normal := by decide
  refine ⟨hnormal, hnormal ▸ (hcanonical p).1, ?_, by decide, ?_, ?_⟩
  · exact hshape normal 1 ["b", "c", []] (by decide) (by decide) (by decide) (by decide)
  · rw [← hnormal, ← happend]
    decide
  · exact (hcanonical "./").2.1 (by decide)

end ScriptLint
