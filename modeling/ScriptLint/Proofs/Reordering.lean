/-
Trees whose directories are listed in another order.

A directory lists its entries in some order.  Where no directory of a tree has two entries
of one name, the order does not matter for what a path leads to:

* **`Directory.Lawful`** — the names of every directory are distinct;
* **`Directory.Reordered`** — the entries of any directories of a tree are listed in another
  order;
* **`Directory.Reordered.of_perm`** — every order of the entries is one of these;
* **`Disk.locate_reordered`** — a path leads to the same place;
* **`Disk.isFile_reordered`**, **`Disk.read_reordered`**, **`Disk.directory?_reordered`** —
  so it names the same file, or directories that differ in the order of entries alone.
-/
import Mathlib.Data.List.Perm.Basic
import ScriptLint.Disk
import ScriptLint.Proofs.Below

namespace ScriptLint

/-- Two results that fail alike or are values of which `R` holds. -/
inductive SameResult {ε α β : Type} (E : ε → ε → Prop) (R : α → β → Prop) :
    Except ε α → Except ε β → Prop where
  | error {e e' : ε} (h : E e e') : SameResult E R (.error e) (.error e')
  | ok {a : α} {b : β} (h : R a b) : SameResult E R (.ok a) (.ok b)

namespace Directory

/-! ### Lawful trees -/

/-- The names of the entries. -/
def names : Directory → List Bytes
  | .empty => []
  | .file name _ rest => name :: rest.names
  | .link name _ rest => name :: rest.names
  | .folder name _ rest => name :: rest.names

/-- The names in every directory of the tree are distinct, and entries can have them. -/
def Lawful : Directory → Prop
  | .empty => True
  | .file name _ rest => Path.IsName name ∧ name ∉ rest.names ∧ rest.Lawful
  | .link name _ rest => Path.IsName name ∧ name ∉ rest.names ∧ rest.Lawful
  | .folder name inner rest =>
    Path.IsName name ∧ name ∉ rest.names ∧ inner.Lawful ∧ rest.Lawful

/-- Whether a tree is lawful can be told. -/
instance decidableLawful : (d : Directory) → Decidable d.Lawful
  | .empty => isTrue trivial
  | .file _ _ rest | .link _ _ rest =>
    have := decidableLawful rest
    inferInstanceAs (Decidable (_ ∧ _ ∧ _))
  | .folder _ inner rest =>
    have := decidableLawful inner
    have := decidableLawful rest
    inferInstanceAs (Decidable (_ ∧ _ ∧ _ ∧ _))

end Directory

/-- The entry is no directory, or a lawful one. -/
def Entry.Lawful : Entry → Prop
  | .folder inner => inner.Lawful
  | _ => True

namespace Directory

variable {name name' : Bytes} {e e' : Entry} {d d' rest : Directory}

@[simp] theorem names_cons : (cons name e rest).names = name :: rest.names := by
  cases e <;> rfl

theorem lawful_cons : (cons name e rest).Lawful ↔
    Path.IsName name ∧ name ∉ rest.names ∧ e.Lawful ∧ rest.Lawful := by
  cases e <;> simp [cons, Lawful, Entry.Lawful]

theorem entry?_cons : Directory.entry? name' (cons name e rest) =
    if name = name' then some e else rest.entry? name' := by
  cases e <;> rfl

theorem Lawful.isName (h : d.Lawful) (hname : name ∈ d.names) : Path.IsName name := by
  induction d with
  | empty => exact absurd hname List.not_mem_nil
  | file n text rest ih | link n target rest ih =>
    rcases List.mem_cons.mp hname with rfl | hname
    · exact h.1
    · exact ih h.2.2 hname
  | folder n inner rest _ ih =>
    rcases List.mem_cons.mp hname with rfl | hname
    · exact h.1
    · exact ih h.2.2.2 hname

theorem Lawful.of_entry (h : d.Lawful) (he : d.entry? name = some e) : e.Lawful := by
  induction d with
  | empty => cases he
  | file n text rest ih | link n target rest ih =>
    rw [ Directory.entry?] at he
    split at he
    · rw [← Option.some.inj he]
      exact trivial
    · exact ih h.2.2 he
  | folder n inner rest _ ih =>
    rw [ Directory.entry?] at he
    split at he
    · rw [← Option.some.inj he]
      exact h.2.2.1
    · exact ih h.2.2.2 he

/-- Induction over the entries of a tree. -/
theorem cons_induction {motive : Directory → Prop} (hempty : motive .empty)
    (hcons : ∀ name e rest, (∀ inner, e = .folder inner → motive inner) → motive rest →
      motive (cons name e rest)) (d : Directory) : motive d := by
  induction d with
  | empty => exact hempty
  | file name text rest ih => exact hcons name (.file text) rest (by simp) ih
  | link name target rest ih => exact hcons name (.link target) rest (by simp) ih
  | folder name inner rest hinner ih =>
    exact hcons name (.folder inner) rest (fun d hd => Entry.folder.inj hd ▸ hinner) ih

/-! ### Other orders -/

/-- The entries of some directories of the tree are listed in another order. -/
inductive Reordered : Directory → Directory → Prop where
  | empty : Reordered .empty .empty
  | file {name text : Bytes} {rest rest' : Directory} (h : Reordered rest rest') :
      Reordered (.file name text rest) (.file name text rest')
  | link {name : Bytes} {target : Path} {rest rest' : Directory} (h : Reordered rest rest') :
      Reordered (.link name target rest) (.link name target rest')
  | folder {name : Bytes} {inner inner' rest rest' : Directory} (hinner : Reordered inner inner')
      (h : Reordered rest rest') :
      Reordered (.folder name inner rest) (.folder name inner' rest')
  | swap {name name' : Bytes} {e e' : Entry} {rest : Directory} :
      Reordered (cons name e (cons name' e' rest)) (cons name' e' (cons name e rest))
  | trans {d₁ d₂ d₃ : Directory} (h : Reordered d₁ d₂) (h' : Reordered d₂ d₃) : Reordered d₁ d₃

namespace Reordered

theorem refl (d : Directory) : d.Reordered d := by
  induction d with
  | empty => exact .empty
  | file name text rest ih => exact ih.file
  | link name target rest ih => exact ih.link
  | folder name inner rest hinner ih => exact hinner.folder ih

theorem cons (h : d.Reordered d') : (cons name e d).Reordered (Directory.cons name e d') := by
  cases e with
  | file text => exact h.file
  | link target => exact h.link
  | folder inner => exact (refl inner).folder h

theorem names_perm (h : d.Reordered d') : d.names.Perm d'.names := by
  induction h with
  | empty => exact .nil
  | file _ ih | link _ ih | folder _ _ _ ih => exact ih.cons _
  | swap =>
    simp only [names_cons]
    exact List.Perm.swap _ _ _
  | trans _ _ ih ih' => exact ih.trans ih'

theorem lawful (h : d.Reordered d') (hlawful : d.Lawful) : d'.Lawful := by
  induction h with
  | empty => exact hlawful
  | file h ih | link h ih =>
    obtain ⟨hname, hnew, hrest⟩ := hlawful
    exact ⟨hname, fun hmem => hnew (h.names_perm.mem_iff.mpr hmem), ih hrest⟩
  | folder _ h hinner ih =>
    obtain ⟨hname, hnew, hlawful, hrest⟩ := hlawful
    exact ⟨hname, fun hmem => hnew (h.names_perm.mem_iff.mpr hmem), hinner hlawful, ih hrest⟩
  | swap =>
    simp only [lawful_cons, names_cons, List.mem_cons, not_or] at hlawful ⊢
    obtain ⟨hname, ⟨hne, hnew⟩, he, hname', hnew', he', hrest⟩ := hlawful
    exact ⟨hname', ⟨Ne.symm hne, hnew'⟩, he', hname, hnew, he, hrest⟩
  | trans _ _ ih ih' => exact ih' (ih hlawful)

end Reordered

/-! ### Every order is one of these -/

/-- The entries with their names, in the order in which they are listed. -/
def entries : Directory → List (Bytes × Entry)
  | .empty => []
  | .file name text rest => (name, .file text) :: rest.entries
  | .link name target rest => (name, .link target) :: rest.entries
  | .folder name inner rest => (name, .folder inner) :: rest.entries

/-- The directory that lists the given entries. -/
def ofEntries : List (Bytes × Entry) → Directory
  | [] => .empty
  | (name, e) :: rest => cons name e (ofEntries rest)

theorem ofEntries_entries (d : Directory) : ofEntries d.entries = d := by
  induction d with
  | empty => rfl
  | file _ _ _ ih | link _ _ _ ih | folder _ _ _ _ ih => rw [entries, ofEntries, ih]; rfl

/-- A directory that lists the same entries in whatever order. -/
theorem Reordered.of_perm (h : d.entries.Perm d'.entries) : d.Reordered d' := by
  have hlists {l l' : List (Bytes × Entry)} (h : l.Perm l') :
      (ofEntries l).Reordered (ofEntries l') := by
    induction h with
    | nil => exact .empty
    | cons x _ ih => exact ih.cons
    | swap => exact .swap
    | trans _ _ ih ih' => exact ih.trans ih'
  have hentries := hlists h
  rwa [ofEntries_entries, ofEntries_entries] at hentries

end Directory

/-! ### What a name stands for -/

/-- The entries are the same, or directories that are listed in another order. -/
inductive Entry.Reordered : Entry → Entry → Prop where
  | same (e : Entry) : Reordered e e
  | folder {inner inner' : Directory} (h : inner.Reordered inner') :
      Reordered (.folder inner) (.folder inner')

theorem Entry.Reordered.trans {e₁ e₂ e₃ : Entry} (h : e₁.Reordered e₂) (h' : e₂.Reordered e₃) :
    e₁.Reordered e₃ := by
  cases h with
  | same => exact h'
  | folder h =>
    cases h' with
    | same => exact .folder h
    | folder h' => exact .folder (h.trans h')

namespace Directory.Reordered

variable {name : Bytes} {d d' : Directory}

theorem entry_rel (h : d.Reordered d') (hlawful : d.Lawful) (name : Bytes) :
    Option.Rel Entry.Reordered ( d.entry? name) ( d'.entry? name) := by
  have hif {e e' : Entry} {o o' : Option Entry} {c : Prop} [Decidable c] (he : e.Reordered e')
      (ho : Option.Rel Entry.Reordered o o') :
      Option.Rel Entry.Reordered (if c then some e else o) (if c then some e' else o') := by
    split
    · exact .some he
    · exact ho
  have hrefl (o : Option Entry) : Option.Rel Entry.Reordered o o := by
    cases o with
    | none => exact .none
    | some e => exact .some (.same e)
  induction h with
  | empty => exact .none
  | file _ ih | link _ ih => exact hif (.same _) (ih hlawful.2.2)
  | folder hinner _ _ ih => exact hif (.folder hinner) (ih hlawful.2.2.2)
  | @swap n n' e e' rest =>
    -- the two names are distinct, so one of them is asked for at most
    have hne : n ≠ n' := by
      rw [lawful_cons, names_cons, List.mem_cons, not_or] at hlawful
      exact hlawful.2.1.1
    simp only [entry?_cons]
    by_cases hn : n = name
    · rw [if_pos hn, if_neg fun hn' => hne (hn.trans hn'.symm), if_pos hn]
      exact hrefl _
    · rw [if_neg hn, if_neg hn]
      exact hrefl _
  | @trans d₁ d₂ d₃ h h' ih ih' =>
    have hfirst := ih hlawful
    have hsecond := ih' (h.lawful hlawful)
    generalize d₁.entry? name = o₁, d₂.entry? name = o₂, d₃.entry? name = o₃ at hfirst hsecond ⊢
    cases hfirst with
    | none =>
      cases hsecond with
      | none => exact .none
    | some he =>
      cases hsecond with
      | some he' => exact .some (he.trans he')

/-- So does a list of names. -/
theorem find? (h : d.Reordered d') (hlawful : d.Lawful) (names : List Bytes) :
    Option.Rel Entry.Reordered (d.find? names) (d'.find? names) := by
  induction names generalizing d d' with
  | nil => exact .some (.folder h)
  | cons name rest ih =>
    cases rest with
    | nil => exact h.entry_rel hlawful name
    | cons next more =>
      have hentry := h.entry_rel hlawful name
      have hinner (e : Entry) : d.entry? name = some e → e.Lawful := hlawful.of_entry
      rw [Directory.find?, Directory.find?]
      · generalize d.entry? name = o, d'.entry? name = o' at hentry hinner ⊢
        cases hentry with
        | none => exact .none
        | some he =>
          cases he with
          | same =>
            rename_i e
            cases e with
            | file | link => exact .none
            | folder inner => exact ih (refl inner) (hinner _ rfl)
          | folder he => exact ih he (hinner _ rfl)
      · simp
      · simp

end Directory.Reordered

theorem Directory.Lawful.find? {d : Directory} (h : d.Lawful) {names : List Bytes} {e : Entry}
    (he : d.find? names = some e) : e.Lawful := by
  induction names generalizing d with
  | nil =>
    rw [Directory.find?] at he
    rw [← Option.some.inj he]
    exact h
  | cons name rest ih =>
    cases rest with
    | nil => exact h.of_entry he
    | cons next more =>
      rw [Directory.find?] at he
      · split at he
        · rename_i inner hinner
          exact ih (h.of_entry hinner) he
        · cases he
      · simp

/-! ### Where a path leads -/

/-- The places are the same, apart from the order in which directories are listed. -/
inductive Place.Reordered : Place → Place → Prop where
  | taken {names : List Bytes} {e e' : Entry} (h : e.Reordered e') :
      Reordered (.taken names e) (.taken names e')
  | free {names : List Bytes} : Reordered (.free names) (.free names)

/-- The disks have the same working directory and trees that are listed in another order. -/
structure Disk.Reordered (d d' : Disk) : Prop where
  root : d.root.Reordered d'.root
  workingNames : d.workingNames = d'.workingNames

namespace Disk

/-- A walk along names ends at the same place. -/
theorem walk_reordered {root root' : Directory} (h : root.Reordered root')
    (hlawful : root.Lawful) (links : Nat) (here names : List Bytes) :
    SameResult Eq Place.Reordered (walk root links here names) (walk root' links here names) := by
  have hfind := h.find? hlawful here.reverse
  have hfound (e : Entry) : root.find? here.reverse = some e → e.Lawful := hlawful.find?
  cases names with
  | nil =>
    rw [walk, walk]
    generalize root.find? here.reverse = o, root'.find? here.reverse = o' at hfind ⊢
    cases hfind with
    | none => exact .error rfl
    | some he => exact .ok (.taken he)
  | cons name rest =>
    rw [walk, walk]
    generalize root.find? here.reverse = o, root'.find? here.reverse = o' at hfind hfound ⊢
    cases hfind with
    | none => exact .error rfl
    | @some e e' he =>
      -- two directories stand in the place of one another
      have hcases : (∃ inner inner', e = .folder inner ∧ e' = .folder inner' ∧
          inner.Reordered inner') ∨ e = e' ∧ ∀ inner, e ≠ .folder inner := by
        cases he with
        | same =>
          cases e with
          | file | link => exact .inr ⟨rfl, by simp⟩
          | folder inner => exact .inl ⟨inner, inner, rfl, rfl, .refl inner⟩
        | folder he => exact .inl ⟨_, _, rfl, rfl, he⟩
      rcases hcases with ⟨inner, inner', rfl, rfl, hinner⟩ | ⟨rfl, hplain⟩
      · have hentry := hinner.entry_rel (hfound _ rfl) name
        simp only
        split
        · exact walk_reordered h hlawful links here rest
        split
        · exact walk_reordered h hlawful links here.tail rest
        split
        · exact .error rfl
        generalize inner.entry? name = o, inner'.entry? name = o' at hentry ⊢
        cases hentry with
        | none =>
          simp only
          split
          · exact .ok .free
          · exact .error rfl
        | @some e e' he =>
          cases he with
          | same =>
            cases e with
            | file text => exact walk_reordered h hlawful links (name :: here) rest
            | folder inner => exact walk_reordered h hlawful links (name :: here) rest
            | link target =>
              cases links with
              | zero => exact .error rfl
              | succ links => exact walk_reordered h hlawful links _ _
          | folder he => exact walk_reordered h hlawful links (name :: here) rest
      · cases e with
        | file | link => exact .error rfl
        | folder inner => exact absurd rfl (hplain inner)
termination_by (links, names.length)

variable {d d' : Disk}

/-- **A path leads to the same place, whatever the order in which directories are listed.** -/
theorem locate_reordered (h : d.Reordered d') (hlawful : d.root.Lawful) (p : Path) :
    SameResult Eq Place.Reordered (d.locate p) (d'.locate p) := by
  rw [locate, locate, h.workingNames]
  split
  · exact .error rfl
  split
  · exact .error rfl
  · exact walk_reordered h.root hlawful _ _ _

theorem isFile_reordered (h : d.Reordered d') (hlawful : d.root.Lawful) (p : Path) :
    d.isFile p = d'.isFile p := by
  have hplace := locate_reordered h hlawful p
  rw [isFile, isFile]
  generalize d.locate p = x, d'.locate p = x' at hplace ⊢
  cases hplace with
  | error he => rfl
  | ok hplace =>
    cases hplace with
    | free => rfl
    | taken he => cases he <;> rfl

theorem read_reordered (h : d.Reordered d') (hlawful : d.root.Lawful) (p : Path) :
    d.read p = d'.read p := by
  have hplace := locate_reordered h hlawful p
  rw [read, read]
  generalize d.locate p = x, d'.locate p = x' at hplace ⊢
  cases hplace with
  | error he => rw [he]
  | ok hplace =>
    cases hplace with
    | free => rfl
    | taken he => cases he <;> rfl

/-- The directory is listed in another order. -/
theorem directory?_reordered (h : d.Reordered d') (hlawful : d.root.Lawful) (p : Path) :
    Option.Rel Directory.Reordered (d.directory? p) (d'.directory? p) := by
  have hplace := locate_reordered h hlawful p
  rw [directory?, directory?]
  generalize d.locate p = x, d'.locate p = x' at hplace ⊢
  cases hplace with
  | error he => exact .none
  | ok hplace =>
    cases hplace with
    | free => exact .none
    | taken he =>
      cases he with
      | same =>
        rename_i e
        cases e with
        | file | link => exact .none
        | folder inner => exact .some (.refl inner)
      | folder he => exact .some he

theorem isDirectory_reordered (h : d.Reordered d') (hlawful : d.root.Lawful) (p : Path) :
    d.isDirectory p = d'.isDirectory p := by
  have hdirectory := directory?_reordered h hlawful p
  rw [isDirectory, isDirectory]
  generalize d.directory? p = o, d'.directory? p = o' at hdirectory ⊢
  cases hdirectory <;> rfl

theorem directory_reordered (h : d.Reordered d') : d.directory = d'.directory := by
  rw [directory, directory, h.workingNames]

/-- What a walk ends at is found under its names. -/
theorem find?_of_walk {root : Directory} {links : Nat} {here names names' : List Bytes} {e : Entry}
    (h : walk root links here names = .ok (.taken names' e)) : root.find? names' = some e := by
  cases names with
  | nil =>
    rw [walk] at h
    split at h
    · rename_i hfound
      cases h
      exact hfound
    · cases h
  | cons name rest =>
    rw [walk] at h
    split at h
    · split at h
      · exact find?_of_walk h
      split at h
      · exact find?_of_walk h
      split at h
      · cases h
      split at h
      · split at h <;> cases h
      · cases h
      · exact find?_of_walk h
      · exact find?_of_walk h
    · cases h
    · cases h
termination_by (links, names.length)

/-- A directory that is found is lawful. -/
theorem lawful_of_directory? (hlawful : d.root.Lawful) {p : Path} {inner : Directory}
    (h : d.directory? p = some inner) : inner.Lawful := by
  rw [directory?, locate] at h
  split at h
  · rename_i names inner' hplace
    rw [← Option.some.inj h]
    split at hplace
    · cases hplace
    split at hplace
    · cases hplace
    · exact hlawful.find? (find?_of_walk hplace)
  · cases h

end Disk

end ScriptLint
