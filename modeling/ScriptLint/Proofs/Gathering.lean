/-
What the entries of a directory contribute to a walk.

A walk carries the rules that it has learned in one entry on to the next.  As they say
nothing about it, each entry contributes the files that the rules of the directories above
it leave, and a walk finds what the entries contribute:

* **`Walker.gather`** — the files that the entries of a directory contribute, each of them
  told from the directories above alone;
* **`Walker.walk_gathers`** — a walk finds just these, in any state that knows the same;
* **`Walker.gather_reordered`** — in another order the entries contribute the same files;
* **`Walker.nodup_gather`** — and no file twice.
-/
import ScriptLint.Proofs.Locality

namespace ScriptLint

namespace Walker

variable (w : Walker)

/-! ### What the entries contribute -/

/-- The file, if it is taken. -/
def taken (p : Path) (s : Walk) : List Path :=
  if w.accepts p && !s.rules.isIgnored p false then [p] else []

/-- What a link contributes: the file that it leads to. -/
def linked (target : Path) (name : Bytes) (s : Walk) : Outcome (List Path) :=
  if w.disk.isDirectory target then
    if w.skips s name target then .ok [] else (w.enter target s).map fun _ => []
  else if w.disk.isFile target then .ok (w.taken target s) else .ok []

/-- The files below a directory in a state that knows the rules of the directories above
and its own: what is learned in one entry is not carried on to the next. -/
def gather (p : Path) : Directory → Walk → Outcome (List Path)
  | .empty, _ => .ok []
  | .file name _ rest, s => (gather p rest s).map (w.taken (p / (⟨name⟩ : Path)) s ++ ·)
  | .link name _ rest, s =>
    (w.linked (p / (⟨name⟩ : Path)) name s).bind fun own => (gather p rest s).map (own ++ ·)
  | .folder name inner rest, s =>
    (if w.skips s name (p / (⟨name⟩ : Path)) then .ok []
      else (w.enter (p / (⟨name⟩ : Path)) s).bind (gather (p / (⟨name⟩ : Path)) inner)).bind
        fun own => (gather p rest s).map (own ++ ·)

/-- The files that one entry contributes. -/
def share (p : Path) (name : Bytes) (s : Walk) : Entry → Outcome (List Path)
  | .file _ => .ok (w.taken (p / (⟨name⟩ : Path)) s)
  | .link _ => w.linked (p / (⟨name⟩ : Path)) name s
  | .folder inner =>
    if w.skips s name (p / (⟨name⟩ : Path)) then .ok []
    else (w.enter (p / (⟨name⟩ : Path)) s).bind (w.gather (p / (⟨name⟩ : Path)) inner)

/-- The files that one entry makes a walk find, and what the walk learns there. -/
def turn (p : Path) (name : Bytes) (s : Walk) : Entry → Outcome Walk
  | .file _ => .ok (w.visit (p / (⟨name⟩ : Path)) s)
  | .link _ =>
    let target : Path := p / (⟨name⟩ : Path)
    if w.disk.isDirectory target then
      if w.skips s name target then .ok s else w.enter target s
    else if w.disk.isFile target then .ok (w.visit target s) else .ok s
  | .folder inner =>
    let folder : Path := p / (⟨name⟩ : Path)
    if w.skips s name folder then .ok s else (w.enter folder s).bind (w.walk folder inner)

variable {w} {p : Path} {name : Bytes} {e : Entry} {rest : Directory} {s s' : Walk}

theorem gather_cons : w.gather p (Directory.cons name e rest) s =
    (w.share p name s e).bind fun own => (w.gather p rest s).map (own ++ ·) := by
  cases e <;> rfl

theorem walk_cons : w.walk p (Directory.cons name e rest) s =
    (w.turn p name s e).bind (w.walk p rest) := by
  cases e with
  | file text => rfl
  | link target =>
    rw [Directory.cons, walk, turn]
    split
    · split <;> rfl
    · split <;> rfl
  | folder inner =>
    rw [Directory.cons, walk, turn]
    split
    · rfl
    · show (w.enter _ s).bind _ = _
      cases w.enter (p / (⟨name⟩ : Path)) s <;> rfl

/-! ### A walk finds what the entries contribute -/

/-- The ignore file of a directory is taken in alike in states that know the same. -/
theorem enter_alike (hslash : '/'.toUInt8 ∉ w.options.ignoreFileName) (hp : p.Solid)
    (hname : Path.IsName name) (h : Walk.Alike (p / (⟨name⟩ : Path)) s s') :
    SameResult Eq (fun t t' => Walk.Alike (p / (⟨name⟩ : Path)) t t' ∧ t'.found = s'.found ∧
      Walk.Grown (p / (⟨name⟩ : Path)) s' t')
      (w.enter (p / (⟨name⟩ : Path)) s) (w.enter (p / (⟨name⟩ : Path)) s') := by
  by_cases hnone : w.options.ignoreFileName = []
  · rw [enter, enter, if_pos (.inl hnone), if_pos (.inl hnone)]
    exact .ok ⟨h, rfl, .refl _ _⟩
  obtain ⟨file, hfile⟩ : ∃ file : Path, file = p / (⟨name⟩ : Path) /
    (⟨w.options.ignoreFileName⟩ : Path) := ⟨_, rfl⟩
  have hbelow : (p / (⟨name⟩ : Path)).trunk <+: file.key.names := by
    rw [hfile, Path.key_names, Path.names_child _ hslash hnone]
    exact List.prefix_append _ _
  obtain ⟨more, fault, hbase, hadd⟩ := IgnoreRules.exists_addFile w.disk file
  rw [enter, enter, ← hfile]
  simp only [h.loaded _ hbelow, hadd]
  split
  · exact .ok ⟨h, rfl, .refl _ _⟩
  cases fault with
  | some e => exact .error rfl
  | none =>
    refine .ok ⟨⟨fun q hq b => ?_, fun k hk => ?_⟩, rfl, ⟨more, rfl, fun r hr => ?_⟩, fun k hk => ?_⟩
    · exact IgnoreRules.verdict_append_congr (h.verdict q hq b) more
    · simp only [Path.Set.add, Std.TreeMap.contains_insertIfNew, h.loaded k hk]
    · exact IgnoreRules.within_addFile hp hname hnone hslash (hfile ▸ hbase r hr)
    · have hne : file.key ≠ k := fun heq => hk (heq ▸ hbelow)
      simp [Path.Set.add, Std.TreeMap.contains_insertIfNew, hne]

/-- The files are what the walk has found since a state, and all it has learned is within the
path. -/
structure Gathers (p : Path) (s : Walk) (files : List Path) (t : Walk) : Prop where
  found : t.found = files.reverse ++ s.found
  grown : Walk.Grown p s t

theorem Gathers.nil (p : Path) (s : Walk) : Gathers p s [] s := ⟨rfl, .refl p s⟩

/-- A file is taken alike in states that know the same. -/
theorem gathers_visit (hp : p.Solid) (hname : Path.IsName name)
    (h : Walk.Alike (p / (⟨name⟩ : Path)) s s') :
    Gathers (p / (⟨name⟩ : Path)) s' (w.taken (p / (⟨name⟩ : Path)) s)
      (w.visit (p / (⟨name⟩ : Path)) s') := by
  rw [taken, visit, h.isIgnored hp hname]
  split
  · exact ⟨rfl, ⟨[], (List.append_nil _).symm, by simp⟩, fun _ _ => rfl⟩
  · exact .nil _ _

/-- An entry contributes what a walk finds in it. -/
theorem turn_gathers (hslash : '/'.toUInt8 ∉ w.options.ignoreFileName) (hp : p.Solid)
    (hname : Path.IsName name) (h : Walk.Alike (p / (⟨name⟩ : Path)) s s')
    (hinner : ∀ inner, e = .folder inner → ∀ t t', Walk.Alike (p / (⟨name⟩ : Path)) t t' →
      SameResult Eq (Gathers (p / (⟨name⟩ : Path)) t') (w.gather (p / (⟨name⟩ : Path)) inner t)
        (w.walk (p / (⟨name⟩ : Path)) inner t')) :
    SameResult Eq (Gathers (p / (⟨name⟩ : Path)) s') (w.share p name s e) (w.turn p name s' e) := by
  have hskips : w.skips s name (p / (⟨name⟩ : Path)) = w.skips s' name (p / (⟨name⟩ : Path)) := by
    rw [skips, skips, h.isIgnored hp hname]
  have henter := enter_alike hslash hp hname h
  cases e with
  | file text => exact .ok (gathers_visit hp hname h)
  | link target =>
    rw [share, turn, linked]
    simp only [hskips]
    split
    · split
      · exact .ok (.nil _ _)
      · generalize w.enter (p / (⟨name⟩ : Path)) s = o, w.enter (p / (⟨name⟩ : Path)) s' = o' at henter
        cases henter with
        | error he => exact .error he
        | ok ht => exact .ok ⟨ht.2.1, ht.2.2⟩
    · split
      · exact .ok (gathers_visit hp hname h)
      · exact .ok (.nil _ _)
  | folder inner =>
    rw [share, turn]
    simp only [hskips]
    split
    · exact .ok (.nil _ _)
    · generalize w.enter (p / (⟨name⟩ : Path)) s = o, w.enter (p / (⟨name⟩ : Path)) s' = o' at henter
      cases henter with
      | error he => exact .error he
      | @ok t t' ht =>
        obtain ⟨halike, hfound, hgrown⟩ := ht
        have hwalk := hinner inner rfl t t' halike
        show SameResult Eq _ (w.gather (p / (⟨name⟩ : Path)) inner t)
          (w.walk (p / (⟨name⟩ : Path)) inner t')
        generalize w.gather (p / (⟨name⟩ : Path)) inner t = x,
          w.walk (p / (⟨name⟩ : Path)) inner t' = x' at hwalk ⊢
        cases hwalk with
        | error he => exact .error he
        | ok hu => exact .ok ⟨hfound ▸ hu.found, hgrown.trans hu.grown⟩

/-- **A walk finds what the entries contribute**, in every state that knows the same of
them. -/
theorem walk_gathers (hslash : '/'.toUInt8 ∉ w.options.ignoreFileName) (d : Directory) (p : Path)
    (s s' : Walk) (hp : p.Solid) (hlawful : d.Lawful)
    (h : ∀ name ∈ d.names, Walk.Alike (p / (⟨name⟩ : Path)) s s') :
    SameResult Eq (Gathers p s') (w.gather p d s) (w.walk p d s') := by
  induction d using Directory.cons_induction generalizing p s s' with
  | hempty => exact .ok (.nil p s')
  | hcons name e rest hinner ih =>
    rw [Directory.names_cons] at h
    obtain ⟨hname, hnew, he, hrest⟩ := Directory.lawful_cons.mp hlawful
    have hturn := turn_gathers (e := e) hslash hp hname (h name List.mem_cons_self)
      fun inner heq t t' halike => by
        have hlawful : inner.Lawful := by rwa [heq] at he
        exact hinner inner heq _ t t' (hp.child hname) hlawful fun n hn =>
          halike.child (hlawful.isName hn)
    rw [gather_cons, walk_cons]
    generalize w.share p name s e = x, w.turn p name s' e = x' at hturn ⊢
    cases hturn with
    | error he => exact .error he
    | @ok own t ht =>
      -- what was learned in the entry changes nothing for the others
      have hwalk := ih p s t hp hrest fun n hn => (h n (List.mem_cons_of_mem _ hn)).trans
        (ht.grown.alike hname (hrest.isName hn) fun heq => hnew (heq ▸ hn))
      show SameResult Eq _ ((w.gather p rest s).map (own ++ ·)) (w.walk p rest t)
      generalize w.gather p rest s = y, w.walk p rest t = y' at hwalk ⊢
      cases hwalk with
      | error he => exact .error he
      | ok hu =>
        refine .ok ⟨?_, (ht.grown.of_child hname).trans hu.grown⟩
        rw [hu.found, ht.found, List.reverse_append, List.append_assoc]

/-! ### Other orders -/

/-- Two ways to fail or to list the same files. -/
abbrev SameFiles : Outcome (List Path) → Outcome (List Path) → Prop :=
  SameResult (fun _ _ => True) List.Perm

theorem SameFiles.refl (o : Outcome (List Path)) : SameFiles o o := by
  cases o with
  | error e => exact .error trivial
  | ok files => exact .ok (List.Perm.refl files)

theorem SameFiles.trans {o₁ o₂ o₃ : Outcome (List Path)} (h : SameFiles o₁ o₂)
    (h' : SameFiles o₂ o₃) : SameFiles o₁ o₃ := by
  cases h with
  | error =>
    cases h' with
    | error => exact .error trivial
  | ok h =>
    cases h' with
    | ok h' => exact .ok (h.trans h')

/-- What comes first and what follows. -/
theorem SameFiles.append {o₁ o₁' o₂ o₂' : Outcome (List Path)} (h₁ : SameFiles o₁ o₁')
    (h₂ : SameFiles o₂ o₂') : SameFiles (o₁.bind fun own => o₂.map (own ++ ·))
      (o₁'.bind fun own => o₂'.map (own ++ ·)) := by
  cases h₁ with
  | error => exact .error trivial
  | ok h₁ =>
    cases h₂ with
    | error => exact .error trivial
    | ok h₂ => exact .ok (h₁.append h₂)

/-- The order of two entries does not matter. -/
theorem SameFiles.swap (o₁ o₂ o : Outcome (List Path)) :
    SameFiles (o₁.bind fun own => (o₂.bind fun own => o.map (own ++ ·)).map (own ++ ·))
      (o₂.bind fun own => (o₁.bind fun own => o.map (own ++ ·)).map (own ++ ·)) := by
  cases o₁ with
  | error =>
    cases o₂ with
    | error | ok => exact .error trivial
  | ok files₁ =>
    cases o₂ with
    | error => exact .error trivial
    | ok files₂ =>
      cases o with
      | error => exact .error trivial
      | ok files => exact .ok (List.perm_append_comm_assoc files₁ files₂ files)

/-- **In another order the entries contribute the same files.** -/
theorem gather_reordered {d d' : Directory} (h : d.Reordered d') (p : Path) (s : Walk) :
    SameFiles (w.gather p d s) (w.gather p d' s) := by
  induction h generalizing p s with
  | empty => exact .refl _
  | @file name text rest rest' _ ih =>
    exact SameFiles.append (.refl (.ok (w.taken (p / (⟨name⟩ : Path)) s))) (ih p s)
  | @link name target rest rest' _ ih =>
    exact SameFiles.append (.refl (w.linked (p / (⟨name⟩ : Path)) name s)) (ih p s)
  | @folder name inner inner' rest rest' _ _ hinner ih =>
    refine SameFiles.append ?_ (ih p s)
    split
    · exact .refl _
    · cases w.enter (p / (⟨name⟩ : Path)) s with
      | error e => exact .error trivial
      | ok t => exact hinner _ t
  | swap =>
    simp only [gather_cons]
    exact .swap _ _ _
  | trans _ _ ih ih' => exact (ih p s).trans (ih' p s)

/-! ### No file twice -/

/-- The files are at the path or below it, and none is there twice. -/
structure Spread (p : Path) (files : List Path) : Prop where
  below : ∀ f ∈ files, p.trunk <+: f.names
  nodup : (files.map Path.key).Nodup

theorem Spread.nil (p : Path) : Spread p [] := ⟨by simp, by simp⟩

theorem spread_taken (p : Path) (hname : Path.IsName name) (s : Walk) :
    Spread (p / (⟨name⟩ : Path)) (w.taken (p / (⟨name⟩ : Path)) s) := by
  rw [taken]
  split
  · refine ⟨fun f hf => ?_, by simp⟩
    rw [List.mem_singleton.mp hf, Path.names_child p hname.slash hname.ne_nil,
      Path.trunk_child p hname.slash hname.ne_nil]
  · exact .nil _

/-- What an entry contributes is at its path or below. -/
theorem spread_share {files : List Path} (hname : Path.IsName name)
    (hinner : ∀ inner, e = .folder inner → ∀ t files,
      w.gather (p / (⟨name⟩ : Path)) inner t = .ok files → Spread (p / (⟨name⟩ : Path)) files)
    (h : w.share p name s e = .ok files) : Spread (p / (⟨name⟩ : Path)) files := by
  cases e with
  | file text =>
    rw [← Except.ok.inj h]
    exact spread_taken p hname s
  | link target =>
    rw [share, linked] at h
    split at h
    · split at h
      · rw [← Except.ok.inj h]
        exact .nil _
      · cases henter : w.enter (p / (⟨name⟩ : Path)) s with
        | error e =>
          rw [henter] at h
          cases h
        | ok t =>
          rw [henter] at h
          rw [← Except.ok.inj h]
          exact .nil _
    · split at h
      · rw [← Except.ok.inj h]
        exact spread_taken p hname s
      · rw [← Except.ok.inj h]
        exact .nil _
  | folder inner =>
    rw [share] at h
    split at h
    · rw [← Except.ok.inj h]
      exact .nil _
    · cases henter : w.enter (p / (⟨name⟩ : Path)) s with
      | error e =>
        rw [henter] at h
        cases h
      | ok t =>
        rw [henter] at h
        exact hinner inner rfl t files h

/-- **The entries contribute no file twice.** -/
theorem nodup_gather {d : Directory} (hlawful : d.Lawful) {files : List Path}
    (h : w.gather p d s = .ok files) :
    (∀ f ∈ files, ∃ name ∈ d.names, (p / (⟨name⟩ : Path)).trunk <+: f.names) ∧
      (files.map Path.key).Nodup := by
  induction d using Directory.cons_induction generalizing p s files with
  | hempty =>
    rw [← Except.ok.inj h]
    exact ⟨by simp, by simp⟩
  | hcons name e rest hinner ih =>
    obtain ⟨hname, hnew, he, hrest⟩ := Directory.lawful_cons.mp hlawful
    rw [gather_cons] at h
    obtain ⟨own, hown, h⟩ : ∃ own, w.share p name s e = .ok own ∧
        (w.gather p rest s).map (own ++ ·) = .ok files := by
      cases hshare : w.share p name s e with
      | error e =>
        rw [hshare] at h
        cases h
      | ok own =>
        rw [hshare] at h
        exact ⟨own, rfl, h⟩
    obtain ⟨more, hmore, h⟩ : ∃ more, w.gather p rest s = .ok more ∧ own ++ more = files := by
      cases hgather : w.gather p rest s with
      | error e =>
        rw [hgather] at h
        cases h
      | ok more =>
        rw [hgather] at h
        exact ⟨more, rfl, Except.ok.inj h⟩
    have hspread : Spread (p / (⟨name⟩ : Path)) own :=
      spread_share hname (fun inner heq t files hfiles => by
        have hlawful : inner.Lawful := by rwa [heq] at he
        obtain ⟨hbelow, hnodup⟩ := hinner inner heq hlawful hfiles
        refine ⟨fun f hf => ?_, hnodup⟩
        obtain ⟨n, hn, hbegins⟩ := hbelow f hf
        have hn := hlawful.isName hn
        rw [Path.trunk_child _ hn.slash hn.ne_nil] at hbegins
        exact (List.prefix_append _ _).trans hbegins) hown
    obtain ⟨hbelow, hnodup⟩ := ih hrest hmore
    rw [← h, Directory.names_cons]
    refine ⟨fun f hf => ?_, ?_⟩
    · rcases List.mem_append.mp hf with hf | hf
      · exact ⟨name, List.mem_cons_self, hspread.below f hf⟩
      · obtain ⟨n, hn, hbegins⟩ := hbelow f hf
        exact ⟨n, List.mem_cons_of_mem _ hn, hbegins⟩
    · rw [List.map_append]
      refine List.nodup_append.mpr ⟨hspread.nodup, hnodup, fun k hk k' hk' heq => ?_⟩
      -- nothing is below two entries
      obtain ⟨f, hf, rfl⟩ := List.mem_map.mp hk
      obtain ⟨f', hf', rfl⟩ := List.mem_map.mp hk'
      obtain ⟨n, hn, hbegins⟩ := hbelow f' hf'
      rw [← Path.names_congr heq] at hbegins
      exact hnew (Path.eq_of_below hname (hrest.isName hn) (hspread.below f hf) hbegins ▸ hn)

end Walker

end ScriptLint
