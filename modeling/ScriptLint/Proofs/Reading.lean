/-
What reading and writing leave as it was.

Files in memory are a table by the keys of paths.  A read counts itself and a
write replaces one text; both leave every other file, every plan and the set of
files alone:

* **`MemoryFiles.find?_attemptRead`**, **`MemoryFiles.find?_attemptWrite`** —
  the files after a read and after a write;
* **`MemoryFiles.attemptRead_fst`** — what a read answers depends on the plans
  and on the file alone;
* **`MemoryFiles.mem_attemptRead`**, **`MemoryFiles.mem_attemptWrite`** — the set of
  files stays.
-/
import Mathlib.Tactic.Common
import ScriptLint.Files

namespace ScriptLint.MemoryFiles

variable (m : MemoryFiles)

theorem find?_congr {p q : Path} (h : p.key = q.key) : m.find? p = m.find? q := by
  rw [find?, h, find?]

theorem isFile_eq (p : Path) : FileStore.isFile m p = m.files.contains p.key := rfl

theorem isFile_iff (p : Path) : FileStore.isFile m p = true ↔ (m.find? p).isSome = true := by
  rw [isFile_eq, Std.TreeMap.contains_eq_isSome_getElem?, find?]

theorem content_eq (p : Path) : m.content p = (m.find? p).map MemoryFile.text := rfl

theorem reads_eq (p : Path) : m.reads p = ((m.find? p).map MemoryFile.reads).getD 0 := rfl

theorem writes_eq (p : Path) : m.writes p = ((m.find? p).map MemoryFile.writes).getD 0 := rfl

/-- The file of a path after a file was put under a path. -/
theorem find?_insert (p q : Path) (f : MemoryFile) :
    find? { m with files := m.files.insert p.key f } q =
      if p.key = q.key then some f else m.find? q := by
  simp [find?, Std.TreeMap.getElem?_insert]

/-- Putting a file in the place of another one makes no new file. -/
theorem mem_insert_of_find? {p : Path} {f : MemoryFile} (hf : m.find? p = some f)
    (f' : MemoryFile) (k : Path.Key) : k ∈ m.files.insert p.key f' ↔ k ∈ m.files := by
  rw [Std.TreeMap.mem_insert, Std.LawfulEqOrd.compare_eq_iff_eq]
  refine or_iff_right_of_imp fun hk => ?_
  rw [← hk]
  exact Std.TreeMap.isSome_getElem?_iff_mem.mp (Option.isSome_iff_exists.mpr ⟨f, hf⟩)

variable {m} in
theorem isFile_congr {m' : MemoryFiles} (h : ∀ k, k ∈ m'.files ↔ k ∈ m.files) (p : Path) :
    FileStore.isFile m' p = FileStore.isFile m p := by
  rw [isFile_eq, isFile_eq, Bool.eq_iff_iff, Std.TreeMap.contains_iff_mem,
    Std.TreeMap.contains_iff_mem, h]

variable {m} in
/-- Stores with the same files have equally many. -/
theorem bound_congr {m' : MemoryFiles} (h : ∀ k, k ∈ m'.files ↔ k ∈ m.files) :
    FileStore.bound m' = FileStore.bound m := by
  show m'.files.size = m.files.size
  rw [← Std.TreeMap.length_keys, ← Std.TreeMap.length_keys]
  refine (List.perm_ext_iff_of_nodup Std.TreeMap.nodup_keys Std.TreeMap.nodup_keys).mpr ?_ |>.length_eq
  intro k
  rw [Std.TreeMap.mem_keys, Std.TreeMap.mem_keys, h]

/-! ### Reading -/

/-- What a read answers depends on the plans and on the file alone. -/
theorem attemptRead_fst {m m' : MemoryFiles} {p : Path} (hplans : m.plans = m'.plans)
    (hfind : m.find? p = m'.find? p) : (m.attemptRead p).1 = (m'.attemptRead p).1 := by
  unfold attemptRead
  rw [hplans]
  split
  · rfl
  · simp only [read, hfind]
    cases m'.find? p <;> rfl

@[simp] theorem plans_attemptRead (p : Path) : (m.attemptRead p).2.plans = m.plans := by
  unfold attemptRead
  split
  · rfl
  · simp only [read]
    cases m.find? p <;> rfl

/-- A read changes a file by counting itself, if at all. -/
theorem find?_attemptRead (p q : Path) :
    (m.attemptRead p).2.find? q = m.find? q ∨
      p.key = q.key ∧ ∃ f, m.find? q = some f ∧
        (m.attemptRead p).2.find? q = some { f with reads := f.reads + 1 } := by
  unfold attemptRead
  split
  · exact .inl rfl
  · simp only [read]
    cases hf : m.find? p with
    | none => exact .inl rfl
    | some f =>
      simp only [find?_insert]
      by_cases hk : p.key = q.key
      · exact .inr ⟨hk, f, by rw [← find?_congr m hk, hf], by rw [if_pos hk]⟩
      · exact .inl (by rw [if_neg hk])

theorem find?_attemptRead_of_ne {p q : Path} (h : p.key ≠ q.key) :
    (m.attemptRead p).2.find? q = m.find? q :=
  (find?_attemptRead m p q).resolve_right fun h' => h h'.1

theorem content_attemptRead (p q : Path) : (m.attemptRead p).2.content q = m.content q := by
  rw [content_eq, content_eq]
  rcases find?_attemptRead m p q with h | ⟨_, f, hf, h⟩
  · rw [h]
  · rw [h, hf]; rfl

theorem mem_attemptRead (p : Path) (k : Path.Key) :
    k ∈ (m.attemptRead p).2.files ↔ k ∈ m.files := by
  unfold attemptRead
  split
  · rfl
  · simp only [read]
    cases hf : m.find? p with
    | none => rfl
    | some f => exact mem_insert_of_find? m hf _ k

theorem isFile_attemptRead (p q : Path) :
    FileStore.isFile (m.attemptRead p).2 q = FileStore.isFile m q :=
  isFile_congr (mem_attemptRead m p) q

/-- A read counts at most once, and only for its own path. -/
theorem reads_attemptRead (p q : Path) :
    (m.attemptRead p).2.reads q ≤ m.reads q + if p.key = q.key then 1 else 0 := by
  rw [reads_eq, reads_eq]
  rcases find?_attemptRead m p q with h | ⟨hk, f, hf, h⟩
  · rw [h]; omega
  · rw [h, hf, if_pos hk]; exact Nat.le_refl _

theorem writes_attemptRead (p q : Path) : (m.attemptRead p).2.writes q = m.writes q := by
  rw [writes_eq, writes_eq]
  rcases find?_attemptRead m p q with h | ⟨_, f, hf, h⟩
  · rw [h]
  · rw [h, hf]; rfl

/-- A text that was read is the content. -/
theorem content_of_attemptRead {p : Path} {text : Bytes} (h : (m.attemptRead p).1 = .ok text) :
    m.content p = some text := by
  unfold attemptRead at h
  split at h
  · exact absurd h (by simp)
  · simp only [read] at h
    cases hf : m.find? p with
    | none => rw [hf] at h; exact absurd h (by simp [Except.mapError])
    | some f =>
      rw [hf] at h
      simp only at h
      split at h
      · rw [content_eq, hf]
        simpa [Except.mapError] using h
      · exact absurd h (by simp [Except.mapError])

/-- A file that was read is there. -/
theorem isSome_of_attemptRead {p : Path} {text : Bytes} (h : (m.attemptRead p).1 = .ok text) :
    (m.find? p).isSome = true := by
  rw [← Option.isSome_map (f := MemoryFile.text), ← content_eq, content_of_attemptRead m h]
  rfl

/-! ### Writing -/

/-- Whether a write succeeds depends on the plans alone. -/
theorem attemptWrite_fst {m m' : MemoryFiles} {p q : Path} (hplans : m.plans = m'.plans)
    (h : p.key = q.key) (text : Bytes) :
    (m.attemptWrite p text).1 = (m'.attemptWrite q text).1 := by
  simp only [attemptWrite, hplans, h]
  split <;> rfl

@[simp] theorem plans_attemptWrite (p : Path) (text : Bytes) :
    (m.attemptWrite p text).2.plans = m.plans := by
  simp only [attemptWrite]
  split <;> rfl

theorem attemptWrite_snd_of_error {p : Path} {text : Bytes} {e : Mishap}
    (h : (m.attemptWrite p text).1 = .error e) : (m.attemptWrite p text).2 = m := by
  simp only [attemptWrite] at h ⊢
  split at h <;> simp_all

theorem find?_attemptWrite_of_ne {p q : Path} (h : p.key ≠ q.key) (text : Bytes) :
    (m.attemptWrite p text).2.find? q = m.find? q := by
  simp only [attemptWrite]
  split
  · rfl
  · rfl
  · simp only [write, find?_insert, if_neg h]

theorem content_attemptWrite_self {p q : Path} (h : p.key = q.key) {text : Bytes}
    (hok : (m.attemptWrite p text).1 = .ok ()) :
    (m.attemptWrite p text).2.content q = some text := by
  simp only [attemptWrite] at hok ⊢
  split at hok
  · exact absurd hok (by simp)
  · exact absurd hok (by simp)
  · simp only [content_eq, write, find?_insert, if_pos h, Option.map_some]

/-- Writing to a file that is there makes no new file. -/
theorem mem_attemptWrite {p : Path} (hp : FileStore.isFile m p = true) (text : Bytes)
    (k : Path.Key) : k ∈ (m.attemptWrite p text).2.files ↔ k ∈ m.files := by
  obtain ⟨f, hf⟩ := Option.isSome_iff_exists.mp ((isFile_iff m p).mp hp)
  simp only [attemptWrite]
  split
  · rfl
  · rfl
  · exact mem_insert_of_find? m hf _ k

theorem reads_attemptWrite (p q : Path) (text : Bytes) :
    (m.attemptWrite p text).2.reads q = m.reads q := by
  by_cases h : p.key = q.key
  · simp only [attemptWrite]
    split
    · rfl
    · rfl
    · simp only [reads_eq, write, find?_insert, if_pos h, ← find?_congr m h]
      cases m.find? p <;> rfl
  · rw [reads_eq, reads_eq, find?_attemptWrite_of_ne m h]

/-- A write counts if it succeeds, and only for its own path. -/
theorem writes_attemptWrite (p q : Path) (text : Bytes) :
    (m.attemptWrite p text).2.writes q =
      m.writes q + if p.key = q.key ∧ (m.attemptWrite p text).1 = .ok () then 1 else 0 := by
  by_cases h : p.key = q.key
  · cases hout : (m.attemptWrite p text).1 with
    | error e =>
      rw [attemptWrite_snd_of_error m hout, if_neg (by simp)]
      rfl
    | ok _ =>
      rw [if_pos ⟨h, rfl⟩]
      simp only [attemptWrite] at hout ⊢
      split at hout
      · exact absurd hout (by simp)
      · exact absurd hout (by simp)
      · simp only [writes_eq, write, find?_insert, if_pos h, ← find?_congr m h]
        cases m.find? p <;> rfl
  · rw [writes_eq, writes_eq, find?_attemptWrite_of_ne m h, if_neg fun h' => h h'.1]
    rfl

end ScriptLint.MemoryFiles
