/-
Paths below a directory, by names alone.

An entry of a directory has a path that is one name longer than that of the directory, and a
rule is about the paths that are longer than its base.  So what a rule is about can be read
off names:

* **`Path.trunk`** — the names of a path, without the empty one after a trailing slash;
* **`Path.names_child`**, **`Path.trunk_child`** — the names of an entry;
* **`Path.of_mem_prefixes`** — what leads to a path has a part of its names;
* **`Path.key_normalize_of_plain`**, **`Path.stands_of_mem_normalize`** — normal forms;
* **`IgnoreRule.below_of_subject?`** — a rule is about no other paths than those below its base.
-/
import Mathlib.Data.List.Infix
import ScriptLint.Ignore
import ScriptLint.Proofs.Spelling

namespace ScriptLint

namespace Bytes

theorem splitOn_of_not_mem {separator : UInt8} {text : Bytes} (h : separator ∉ text) :
    splitOn separator text = [text] := by
  rw [splitOn_eq]
  exact List.splitOn_eq_singleton h

theorem splitOn_append_cons (separator : UInt8) (a b : Bytes) :
    splitOn separator (a ++ separator :: b) = splitOn separator a ++ splitOn separator b := by
  simp only [splitOn_eq, List.splitOn_append_cons_self]

/-- A field does not have the separator in it. -/
theorem not_mem_of_mem_splitOn {separator : UInt8} {text field : Bytes}
    (h : field ∈ splitOn separator text) : separator ∉ field := by
  induction text generalizing field with
  | nil =>
    rw [splitOn, List.mem_singleton] at h
    rw [h]
    exact List.not_mem_nil
  | cons b rest ih =>
    rw [splitOn] at h
    split at h
    · rcases List.mem_cons.mp h with rfl | h
      · exact List.not_mem_nil
      · exact ih h
    · rename_i hb
      obtain ⟨first, more, hfields⟩ := List.exists_cons_of_ne_nil (splitOn_ne_nil separator rest)
      rw [hfields] at h ih
      rcases List.mem_cons.mp h with rfl | h
      · rw [List.mem_cons, not_or]
        exact ⟨Ne.symm hb, ih List.mem_cons_self⟩
      · exact ih (List.mem_cons_of_mem _ h)

end Bytes

namespace Path

/-! ### Names -/

/-- A name that stands for itself. -/
def Stands (name : Bytes) : Prop := name ≠ "." ∧ name ≠ ".."

/-- A name that an entry of a directory can have. -/
structure IsName (name : Bytes) : Prop where
  ne_nil : name ≠ []
  slash : '/'.toUInt8 ∉ name
  stands : Stands name

instance (name : Bytes) : Decidable (Stands name) := inferInstanceAs (Decidable (_ ∧ _))

instance (name : Bytes) : Decidable (IsName name) :=
  decidable_of_iff (name ≠ [] ∧ '/'.toUInt8 ∉ name ∧ Stands name)
    ⟨fun h => ⟨h.1, h.2.1, h.2.2⟩, fun h => ⟨h.ne_nil, h.slash, h.stands⟩⟩

/-- The names of a path, without the empty one that stands for a trailing slash. -/
def trunk (p : Path) : List Bytes := Bytes.filled '/' p.text

theorem names_eq_trunk (p : Path) :
    p.names = if p.trunk ≠ [] ∧ (Bytes.splitOn '/' p.text).getLast? = some [] then
      p.trunk ++ [[]] else p.trunk := rfl

theorem mem_names_of_mem_trunk {p : Path} {name : Bytes} (h : name ∈ p.trunk) :
    name ∈ p.names := by
  rw [names_eq_trunk]
  split
  · exact List.mem_append_left _ h
  · exact h

theorem ne_nil_of_mem_trunk {p : Path} {name : Bytes} (h : name ∈ p.trunk) : name ≠ [] := by
  simpa using (List.mem_filter.mp h).2

/-- No first name is empty. -/
theorem head?_names (p : Path) : p.names.head? ≠ some [] := by
  intro hhead
  have htrunk (hhead : p.trunk.head? = some []) : False :=
    ne_nil_of_mem_trunk (List.mem_of_mem_head? hhead) rfl
  rw [names_eq_trunk] at hhead
  split at hhead
  · rename_i hslash
    obtain ⟨first, more, hcons⟩ := List.exists_cons_of_ne_nil hslash.1
    rw [hcons] at hhead
    exact htrunk (hcons ▸ hhead)
  · exact htrunk hhead

theorem slash_of_mem_names {p : Path} {name : Bytes} (h : name ∈ p.names) :
    '/'.toUInt8 ∉ name := by
  have htrunk (hname : name ∈ p.trunk) : '/'.toUInt8 ∉ name :=
    Bytes.not_mem_of_mem_splitOn (List.mem_of_mem_filter hname)
  rw [names_eq_trunk] at h
  split at h
  · rcases List.mem_append.mp h with h | h
    · exact htrunk h
    · rw [List.mem_singleton.mp h]
      exact List.not_mem_nil
  · exact htrunk h

/-! ### The path of an entry -/

/-- Below a path stands its text, a slash and the text of a relative path, unless the first one is
empty. -/
theorem text_append (p : Path) {q : Path} (hq : q.isAbsolute = false) :
    p.text = [] ∧ (p / q).text = q.text ∨
    ∃ stem, Bytes.filled '/' stem = p.trunk ∧ p.text ≠ [] ∧ isAbsolute p =
      isAbsolute ⟨stem ++ '/'.toUInt8 :: q.text⟩ ∧
        (p / q).text = stem ++ '/'.toUInt8 :: q.text := by
  show p.text = [] ∧ (append p q).text = q.text ∨ ∃ stem, _ ∧ _ ∧ _ ∧
    (append p q).text = stem ++ '/'.toUInt8 :: q.text
  by_cases hempty : p.text = []
  · left
    rw [append, isEmpty, hempty]
    exact ⟨rfl, by simp⟩
  right
  have hnot : ¬(q.isAbsolute || p.isEmpty) = true := by
    rw [hq, isEmpty, Bool.false_or, List.isEmpty_iff]
    exact hempty
  rw [append, if_neg hnot]
  by_cases hend : Bytes.endsWith p.text "/" = true
  · -- the text ends with the slash
    obtain ⟨stem, last, htext⟩ := (List.eq_nil_or_concat' p.text).resolve_left hempty
    obtain rfl : last = '/'.toUInt8 := by
      have hlast := (final_eq_nil_iff hempty).mp ((endsWith_slash_iff hempty).mp hend)
      simpa [htext] using hlast
    refine ⟨stem, ?_, hempty, ?_, ?_⟩
    · rw [trunk, htext, Bytes.filled_append_cons]
      exact (List.append_nil _).symm
    · obtain ⟨text⟩ := p
      obtain rfl : text = stem ++ ['/'.toUInt8] := htext
      cases stem with
      | nil => rw [List.nil_append, List.nil_append, isAbsolute_cons, isAbsolute_cons]
      | cons b rest =>
        rw [List.cons_append, List.cons_append, isAbsolute_cons, isAbsolute_cons]
    · rw [if_pos hend, htext, List.append_assoc]
      rfl
  · refine ⟨p.text, rfl, hempty, ?_, ?_⟩
    · exact (isAbsolute_append _ hempty).symm
    · rw [if_neg hend, List.append_assoc]
      rfl

section

variable (p : Path) {name : Bytes} (hslash : '/'.toUInt8 ∉ name)
include hslash

/-- A name makes no path absolute. -/
theorem isAbsolute_name : isAbsolute ⟨name⟩ = false := by
  cases name with
  | nil => rfl
  | cons b rest =>
    rw [isAbsolute_cons, beq_eq_false_iff_ne]
    exact fun hb => hslash (hb ▸ List.mem_cons_self)

/-- So it is with a name. -/
theorem text_child : p.text = [] ∧ (p / (⟨name⟩ : Path)).text = name ∨
    ∃ stem, Bytes.filled '/' stem = p.trunk ∧ p.text ≠ [] ∧ isAbsolute p =
      isAbsolute ⟨stem ++ '/'.toUInt8 :: name⟩ ∧
        (p / (⟨name⟩ : Path)).text = stem ++ '/'.toUInt8 :: name :=
  p.text_append (isAbsolute_name hslash)

theorem isAbsolute_child : (p / (⟨name⟩ : Path)).isAbsolute = p.isAbsolute := by
  obtain ⟨htext⟩ := p
  rcases text_child ⟨htext⟩ hslash with ⟨rfl, hchild⟩ | ⟨stem, -, -, habsolute, hchild⟩
  · rw [isAbsolute, hchild]
    exact isAbsolute_name hslash
  · rw [habsolute, isAbsolute, hchild]
    rfl

/-- An entry has one name more than its directory. -/
theorem trunk_child (hname : name ≠ []) : (p / (⟨name⟩ : Path)).trunk = p.trunk ++ [name] := by
  have hfilled : Bytes.filled '/' name = [name] := by
    rw [Bytes.filled, Bytes.splitOn_of_not_mem hslash]
    simp [hname]
  rcases text_child p hslash with ⟨hempty, hchild⟩ | ⟨stem, hstem, -, -, hchild⟩
  · rw [trunk, hchild, hfilled, trunk, hempty]
    rfl
  · rw [trunk, hchild, Bytes.filled_append_cons, hstem, hfilled]

theorem names_child (hname : name ≠ []) : (p / (⟨name⟩ : Path)).names = p.trunk ++ [name] := by
  have hlast : (Bytes.splitOn '/' (p / (⟨name⟩ : Path)).text).getLast? = some name := by
    rcases text_child p hslash with ⟨hempty, hchild⟩ | ⟨stem, -, -, -, hchild⟩
    · rw [hchild, Bytes.splitOn_of_not_mem hslash]
      rfl
    · rw [hchild, Bytes.splitOn_append_cons, Bytes.splitOn_of_not_mem hslash, List.getLast?_concat]
  rw [names_eq_trunk, hlast, if_neg fun h => hname (Option.some.inj h.2)]
  exact trunk_child p hslash hname

end

/-! ### What leads to a path -/

/-- What leads through names from a path on begins with its names. -/
theorem of_mem_through {p x : Path} {names : List Bytes} (hx : x ∈ p.through names)
    (hslash : ∀ name ∈ names, '/'.toUInt8 ∉ name) :
    x.isAbsolute = p.isAbsolute ∧
      ((∀ name ∈ names, name ≠ []) → x.names <+: p.trunk ++ names) := by
  induction names generalizing p with
  | nil => exact absurd hx List.not_mem_nil
  | cons name rest ih =>
    have hname := hslash name List.mem_cons_self
    rcases List.mem_cons.mp hx with rfl | hx
    · refine ⟨isAbsolute_child p hname, fun hne => ?_⟩
      rw [names_child p hname (hne name List.mem_cons_self), List.append_cons p.trunk name rest]
      exact List.prefix_append _ _
    · obtain ⟨habsolute, hbegins⟩ := ih hx fun n hn => hslash n (List.mem_cons_of_mem _ hn)
      refine ⟨habsolute.trans (isAbsolute_child p hname), fun hne => ?_⟩
      have hrest := hbegins fun n hn => hne n (List.mem_cons_of_mem _ hn)
      rw [trunk_child p hname (hne name List.mem_cons_self), List.append_assoc] at hrest
      exact hrest

/-- What leads to a path is absolute if the path is, and has a part of its names. -/
theorem of_mem_prefixes {p x : Path} (hx : x ∈ p.prefixes) : x.isAbsolute = p.isAbsolute ∧
    ((∀ name ∈ p.names, name ≠ []) → x.names <+: p.names) := by
  have hslash : ∀ name ∈ p.names, '/'.toUInt8 ∉ name := fun name hname =>
    slash_of_mem_names hname
  rw [prefixes] at hx
  split at hx
  · rename_i habsolute
    rcases List.mem_cons.mp hx with rfl | hx
    · exact ⟨habsolute.symm, fun _ => List.nil_prefix⟩
    · obtain ⟨hsame, hbegins⟩ := of_mem_through hx hslash
      exact ⟨hsame.trans habsolute.symm, hbegins⟩
  · rename_i hrelative
    obtain ⟨hsame, hbegins⟩ := of_mem_through hx hslash
    exact ⟨hsame.trans (Bool.not_eq_true _ ▸ hrelative).symm, hbegins⟩

/-! ### Normal forms -/

/-- Joined names are cut where they were joined. -/
theorem splitOn_join {names : List Bytes} (hne : names ≠ [])
    (hslash : ∀ name ∈ names, '/'.toUInt8 ∉ name) :
    Bytes.splitOn '/' (Bytes.join "/" names) = names := by
  induction names with
  | nil => exact absurd rfl hne
  | cons name rest ih =>
    have hname := hslash name List.mem_cons_self
    cases rest with
    | nil => exact Bytes.splitOn_of_not_mem hname
    | cons next more =>
      have hmore := ih (List.cons_ne_nil next more) fun n hn => hslash n (List.mem_cons_of_mem _ hn)
      have hjoin : Bytes.join "/" (name :: next :: more) =
          name ++ '/'.toUInt8 :: Bytes.join "/" (next :: more) := by
        rw [Bytes.join.eq_3 _ _ _ (by simp), List.append_assoc]
        rfl
      rw [hjoin, Bytes.splitOn_append_cons, Bytes.splitOn_of_not_mem hname, hmore]
      rfl

/-- The names of a path below the root. -/
theorem splitOn_ofNames {names : List Bytes} (hne : names ≠ [])
    (hslash : ∀ name ∈ names, '/'.toUInt8 ∉ name) :
    Bytes.splitOn '/' (ofNames true names).text = [] :: names := by
  have htext : (ofNames true names).text = [] ++ '/'.toUInt8 :: Bytes.join "/" names := rfl
  rw [htext, Bytes.splitOn_append_cons, splitOn_join hne hslash]
  rfl

/-- Names that stand for themselves are kept, with an empty one at the end. -/
theorem collapse_of_forall_stands {rooted : Bool} {kept names : List Bytes}
    (h : ∀ n ∈ names, Stands n) (hfirst : kept ≠ [] ∨ names.head? ≠ some []) :
    collapse rooted kept names = kept.reverse ++ names := by
  induction names generalizing kept with
  | nil => rw [collapse, List.append_nil]
  | cons name rest ih =>
    obtain ⟨hdot, hdots⟩ := h name List.mem_cons_self
    have hstays : ¬(name = [] ∧ kept = []) := fun hnil =>
      hfirst.elim (fun hne => hne hnil.2) fun hne => hne (congrArg some hnil.1)
    have hrest := @ih (name :: kept) (fun n hn => h n (List.mem_cons_of_mem _ hn))
      (.inl (List.cons_ne_nil _ _))
    rw [collapse.eq_def]
    simp only
    rw [if_neg hdot, if_neg hdots, if_neg hstays, hrest, List.reverse_cons, List.append_assoc]
    rfl

/-- So they are where none of them is empty. -/
theorem collapse_of_stands {rooted : Bool} {kept names : List Bytes}
    (h : ∀ name ∈ names, name ≠ [] ∧ Stands name) :
    collapse rooted kept names = kept.reverse ++ names :=
  collapse_of_forall_stands (fun n hn => (h n hn).2)
    (.inr fun hhead => (h [] (List.mem_of_mem_head? hhead)).1 rfl)

/-- An absolute path of names that stand for themselves is in normal form. -/
theorem key_normalize_of_plain {p : Path} (habsolute : p.isAbsolute = true)
    (h : ∀ name ∈ p.names, name ≠ [] ∧ Stands name) : p.normalize.key = p.key := by
  unfold normalize
  split
  · rfl
  · rename_i hroot
    have hne : p.names ≠ [] := fun hnil => hroot ((isRoot_iff p).mpr ⟨habsolute, hnil⟩)
    rw [collapse_of_stands h, habsolute]
    show (if p.names = [] ∧ (!true) = true then (".": Path) else ofNames true p.names).key = _
    rw [if_neg (fun hnil => hne hnil.1)]
    have hsplit := splitOn_ofNames hne fun name hname => slash_of_mem_names hname
    have hfilter : p.names.filter (· ≠ []) = p.names :=
      List.filter_eq_self.mpr fun name hname => by simpa using (h name hname).1
    have htrunk : (ofNames true p.names).trunk = p.names := by
      rw [trunk, Bytes.filled, hsplit, List.filter_cons_of_neg (by simp), hfilter]
    have hlast : (Bytes.splitOn '/' (ofNames true p.names).text).getLast? ≠ some [] := by
      rw [hsplit, List.getLast?_cons, List.getLast?_eq_some_getLast hne, Option.getD_some]
      exact fun hnil => (h _ (List.getLast_mem hne)).1 (Option.some.inj hnil)
    have hnames : (ofNames true p.names).names = p.names := by
      rw [names_eq_trunk (ofNames true p.names), htrunk, if_neg fun hnil => hlast hnil.2]
    rw [key, hnames, key, habsolute]
    rfl

/-- What is left of names: names that were there, no `.`, and no `..` below the root. -/
theorem mem_collapse {rooted : Bool} {kept names : List Bytes} {name : Bytes}
    (h : name ∈ collapse rooted kept names) :
    name ∈ kept ∨ name ∈ names ∧ name ≠ "." ∧ (rooted = true → name ≠ "..") := by
  induction names generalizing kept with
  | nil =>
    rw [collapse, List.mem_reverse] at h
    exact .inl h
  | cons first rest ih =>
    have hlater {kept' : List Bytes} (hsub : ∀ n ∈ kept', n ∈ kept)
        (h : name ∈ collapse rooted kept' rest) :
        name ∈ kept ∨ name ∈ first :: rest ∧ name ≠ "." ∧ (rooted = true → name ≠ "..") :=
      (ih h).imp (hsub name) fun ⟨hname, hstands⟩ => ⟨List.mem_cons_of_mem _ hname, hstands⟩
    rw [collapse.eq_def] at h
    simp only at h
    split at h
    · exact hlater (fun _ => id) h
    rename_i hdot
    split at h
    · rename_i hdots
      cases kept with
      | nil =>
        -- below the root `..` is dropped, and kept elsewhere
        cases rooted with
        | true => exact hlater (fun _ => id) h
        | false =>
          refine (ih h).elim (fun hname => ?_) fun ⟨hname, hstands⟩ =>
            .inr ⟨List.mem_cons_of_mem _ hname, hstands⟩
          rw [List.mem_singleton.mp hname]
          exact .inr ⟨List.mem_cons_self, hdot, by simp⟩
      | cons last before =>
        simp only at h
        split at h
        · rename_i hlast
          refine (ih h).elim (fun hname => ?_) fun ⟨hname, hstands⟩ =>
            .inr ⟨List.mem_cons_of_mem _ hname, hstands⟩
          rcases List.mem_cons.mp hname with rfl | hname
          · exact .inl (hdots.trans hlast.symm ▸ List.mem_cons_self)
          · exact .inl hname
        · exact hlater (fun n hn => List.mem_cons_of_mem _ hn) h
    rename_i hdots
    split at h
    · exact hlater (fun _ => id) h
    · refine (ih h).elim (fun hname => ?_) fun ⟨hname, hstands⟩ =>
        .inr ⟨List.mem_cons_of_mem _ hname, hstands⟩
      rcases List.mem_cons.mp hname with rfl | hname
      · exact .inr ⟨List.mem_cons_self, hdot, fun _ => hdots⟩
      · exact .inl hname

/-- What is left of names does not begin with an empty one. -/
theorem head?_collapse {rooted : Bool} {kept names : List Bytes} (h : kept.getLast? ≠ some []) :
    (collapse rooted kept names).head? ≠ some [] := by
  induction names generalizing kept with
  | nil =>
    rw [collapse, List.head?_reverse]
    exact h
  | cons name rest ih =>
    have hmore (hkept : kept ≠ []) : (name :: kept).getLast? ≠ some [] := by
      obtain ⟨last, before, rfl⟩ := List.exists_cons_of_ne_nil hkept
      rw [List.getLast?_cons_cons]
      exact h
    rw [collapse.eq_def]
    simp only
    split
    · exact ih h
    split
    · rename_i hdots
      cases kept with
      | nil =>
        refine ih ?_
        cases rooted with
        | true => simp
        | false =>
          rw [hdots]
          decide
      | cons last before =>
        simp only
        split
        · exact ih (hmore (List.cons_ne_nil last before))
        · refine ih ?_
          cases before with
          | nil => simp
          | cons next more => rwa [List.getLast?_cons_cons] at h
    split
    · exact ih h
    · rename_i hempty
      refine ih ?_
      by_cases hkept : kept = []
      · rw [hkept]
        simpa using fun hname => hempty ⟨hname, hkept⟩
      · exact hmore hkept

theorem isAbsolute_normalize (p : Path) : p.normalize.isAbsolute = p.isAbsolute := by
  unfold normalize
  split
  · rfl
  cases habsolute : p.isAbsolute with
  | true =>
    simp only [Bool.not_true, Bool.false_eq_true, and_false, if_false]
    rfl
  | false =>
    simp only [Bool.not_false, and_true]
    split
    · rfl
    · rename_i hne
      obtain ⟨first, rest, hnames⟩ := List.exists_cons_of_ne_nil hne
      -- the first name has a byte, and this is no slash
      have hhead : (collapse false [] p.names).head? ≠ some [] := head?_collapse (by simp)
      have hfirst : first ≠ [] := fun hnil => hhead (by rw [hnames, hnil]; rfl)
      obtain ⟨b, tail, rfl⟩ := List.exists_cons_of_ne_nil hfirst
      have hmem : b :: tail ∈ collapse false [] p.names := hnames ▸ List.mem_cons_self
      have hslash := slash_of_mem_names
        ((mem_collapse hmem).resolve_left List.not_mem_nil).1
      have htext : ∃ more, ofNames false ((b :: tail) :: rest) = ⟨b :: more⟩ := by
        cases rest with
        | nil => exact ⟨tail, rfl⟩
        | cons next more => exact ⟨tail ++ "/" ++ Bytes.join "/" (next :: more), rfl⟩
      obtain ⟨more, hmore⟩ := htext
      rw [hnames, hmore, isAbsolute_cons, beq_eq_false_iff_ne]
      exact fun hb => hslash (hb ▸ List.mem_cons_self)

/-- Below the root, the names of a normal form stand for themselves. -/
theorem stands_of_mem_normalize {p : Path} (habsolute : p.isAbsolute = true) {name : Bytes}
    (h : name ∈ p.normalize.trunk) : Stands name := by
  unfold normalize at h
  split at h
  · rename_i hroot
    have hnames := ((isRoot_iff p).mp hroot).2
    have hmem := mem_names_of_mem_trunk h
    rw [hnames] at hmem
    exact absurd hmem List.not_mem_nil
  · rw [habsolute] at h
    simp only [Bool.not_true, Bool.false_eq_true, and_false, if_false] at h
    by_cases hnil : collapse true [] p.names = []
    · rw [hnil] at h
      have hempty : (ofNames true []).trunk = [] := by decide
      exact absurd (hempty ▸ h) List.not_mem_nil
    have hslash : ∀ n ∈ collapse true [] p.names, '/'.toUInt8 ∉ n := fun n hn =>
      slash_of_mem_names ((mem_collapse hn).resolve_left List.not_mem_nil).1
    have hmem : name ∈ collapse true [] p.names := by
      rw [trunk, Bytes.filled, splitOn_ofNames hnil hslash] at h
      have hne := (List.mem_filter.mp h).2
      exact (List.mem_cons.mp (List.mem_of_mem_filter h)).resolve_left (by simpa using hne)
    obtain ⟨-, hdot, hdots⟩ := (mem_collapse hmem).resolve_left List.not_mem_nil
    exact ⟨hdot, hdots rfl⟩

/-! ### The way from a base -/

theorem dropCommon_eq {a b x y : List Bytes} (h : dropCommon a b = (x, y)) :
    ∃ common, a = common ++ x ∧ b = common ++ y := by
  induction a generalizing b with
  | nil =>
    rw [dropCommon.eq_2 _ _ (by simp)] at h
    obtain ⟨rfl, rfl⟩ := Prod.mk.inj h
    exact ⟨[], rfl, rfl⟩
  | cons first rest ih =>
    cases b with
    | nil =>
      rw [dropCommon.eq_2 _ _ (by simp)] at h
      obtain ⟨rfl, rfl⟩ := Prod.mk.inj h
      exact ⟨[], rfl, rfl⟩
    | cons first' rest' =>
      rw [dropCommon] at h
      split at h
      · rename_i heq
        obtain ⟨common, hrest, hrest'⟩ := ih h
        exact ⟨first :: common, by rw [hrest]; rfl, by rw [hrest', heq]; rfl⟩
      · obtain ⟨rfl, rfl⟩ := Prod.mk.inj h
        exact ⟨[], rfl, rfl⟩

/-- Names that stand for themselves lead down. -/
theorem descent_of_stands {names : List Bytes} (h : ∀ name ∈ names, name ≠ [] ∧ Stands name) :
    descent names = names.length := by
  have hfold (n : Int) : names.foldl (fun (n : Int) (name : Bytes) => if name = ".." then n - 1
      else if name = [] ∨ name = "." then n else n + 1) n = n + names.length := by
    induction names generalizing n with
    | nil => exact (Int.add_zero n).symm
    | cons name rest ih =>
      obtain ⟨hne, hdot, hdots⟩ := h name List.mem_cons_self
      rw [List.foldl_cons, if_neg hdots, if_neg (not_or.mpr ⟨hne, hdot⟩),
        ih (fun n hn => h n (List.mem_cons_of_mem _ hn)), List.length_cons]
      omega
  exact (hfold 0).trans (Int.zero_add _)

/-- The text leads up first. -/
def LeadsUp (p : Path) : Prop :=
  ∃ rest, p.text = ".." ++ rest ∧ (rest = [] ∨ rest.head? = some '/'.toUInt8)

theorem LeadsUp.append {p : Path} (h : p.LeadsUp) {name : Bytes} (hslash : '/'.toUInt8 ∉ name) :
    (p / (⟨name⟩ : Path)).LeadsUp := by
  obtain ⟨rest, htext, hrest⟩ := h
  have hnot : ¬((⟨name⟩ : Path).isAbsolute || p.isEmpty) = true := by
    rw [isAbsolute_name hslash, isEmpty, htext, Bool.false_or, List.isEmpty_iff,
      List.append_eq_nil_iff]
    exact fun hnil => absurd hnil.1 (by decide)
  show (Path.append p ⟨name⟩).LeadsUp
  rw [Path.append, if_neg hnot]
  split
  · rename_i hend
    refine ⟨rest ++ name, by rw [htext, List.append_assoc], .inr ?_⟩
    rcases hrest with rfl | hrest
    · rw [htext] at hend
      exact absurd hend (by decide)
    · rw [List.head?_append, hrest]
      rfl
  · refine ⟨rest ++ "/" ++ name, by rw [htext]; simp only [List.append_assoc], .inr ?_⟩
    rcases hrest with rfl | hrest
    · rfl
    · rw [List.head?_append, List.head?_append, hrest]
      rfl

theorem LeadsUp.names {p : Path} (h : p.LeadsUp) : p.names.head? = some (".." : Bytes) := by
  obtain ⟨rest, htext, hrest⟩ := h
  have htrunk : ∃ more, p.trunk = (".." : Bytes) :: more := by
    cases rest with
    | nil =>
      rw [List.append_nil] at htext
      exact ⟨[], by rw [trunk, htext]; decide⟩
    | cons b rest =>
      obtain rfl : b = '/'.toUInt8 := by simpa using hrest
      refine ⟨Bytes.filled '/' rest, ?_⟩
      rw [trunk, htext, Bytes.filled_append_cons]
      rfl
  obtain ⟨more, htrunk⟩ := htrunk
  rw [names_eq_trunk, htrunk]
  split <;> rfl

/-- Names behind `..` do not change that a way leads up. -/
theorem leadsUp_foldl (n : Nat) {rest : List Bytes} (hslash : ∀ name ∈ rest, '/'.toUInt8 ∉ name) :
    ((List.replicate (n + 1) (".." : Bytes) ++ rest).foldl
      (fun (q : Path) name => q / (⟨name⟩ : Path)) ⟨[]⟩).LeadsUp := by
  have hfold (names : List Bytes) (hslash : ∀ name ∈ names, '/'.toUInt8 ∉ name) {q : Path}
      (hq : q.LeadsUp) : (names.foldl (fun (q : Path) name => q / (⟨name⟩ : Path)) q).LeadsUp := by
    induction names generalizing q with
    | nil => exact hq
    | cons name more ih =>
      exact ih (fun m hm => hslash m (List.mem_cons_of_mem _ hm))
        (hq.append (hslash name List.mem_cons_self))
  rw [List.replicate_succ, List.cons_append, List.foldl_cons]
  refine hfold _ (fun name hname => ?_) ⟨[], rfl, .inl rfl⟩
  rcases List.mem_append.mp hname with hname | hname
  · rw [List.eq_of_mem_replicate hname]
    decide
  · exact hslash name hname

/-- Where names of the base are left that lead down, the way to the path leads up. -/
theorem leadsUp_of_descent {p base : Path} (hsame : p.isAbsolute = base.isAbsolute)
    {rest above : List Bytes} (hdrop : dropCommon p.names base.names = (rest, above))
    (hdescent : 0 < descent above) : (p.lexicallyRelative base).LeadsUp := by
  obtain ⟨common, hp, -⟩ := dropCommon_eq hdrop
  obtain ⟨n, hn⟩ : ∃ n : Nat, descent above = (n + 1 : Nat) :=
    ⟨(descent above - 1).toNat, by omega⟩
  unfold lexicallyRelative
  rw [if_neg (not_not_intro hsame), hdrop]
  split
  · rename_i hnil
    rw [(Prod.mk.inj hnil).2] at hdescent
    exact absurd hdescent (by decide)
  · rename_i rest' above' _ hpair
    obtain ⟨rfl, rfl⟩ := Prod.mk.inj hpair
    simp only [hn]
    rw [if_neg (by omega), if_neg (by omega), Int.toNat_natCast]
    exact leadsUp_foldl n fun name hname =>
      slash_of_mem_names (hp ▸ List.mem_append_right _ hname)

/-- From a base whose names do not begin a path, the way leads up or there is none. -/
theorem lexicallyRelative_eq {p base : Path} (hsame : p.isAbsolute = base.isAbsolute)
    (hbase : ∀ name ∈ base.names, name ≠ [] ∧ Stands name) (hnot : ¬base.names <+: p.names) :
    (p.lexicallyRelative base).LeadsUp := by
  obtain ⟨⟨rest, above⟩, hdrop⟩ : ∃ x, x = dropCommon p.names base.names := ⟨_, rfl⟩
  obtain ⟨common, hp, hb⟩ := dropCommon_eq hdrop.symm
  have habove : above ≠ [] := by
    rintro rfl
    rw [List.append_nil] at hb
    exact hnot ⟨rest, by rw [hb, hp]⟩
  have hup : descent above = above.length := descent_of_stands fun name hname =>
    hbase name (by rw [hb]; exact List.mem_append_right _ hname)
  refine leadsUp_of_descent hsame hdrop.symm ?_
  have := List.length_pos_iff.mpr habove
  omega

end Path

namespace IgnoreRule

variable {r : IgnoreRule} {p : Path}

/-- The way from a base that is itself the path, or that is no base of it. -/
theorem isAbsolute_of_subject? (h : (r.subject? p).isSome = true) :
    p.isAbsolute = r.base.isAbsolute := by
  by_contra hne
  unfold subject? Path.lexicallyRelative at h
  rw [if_pos hne, if_pos (.inl rfl)] at h
  exact absurd h (by simp)

/-- **A rule is about no other paths than those below its base.** -/
theorem below_of_subject? (h : (r.subject? p).isSome = true)
    (hbase : ∀ name ∈ r.base.names, name ≠ [] ∧ Path.Stands name) :
    r.base.names <+: p.names ∧ p.names ≠ r.base.names := by
  have hsame := isAbsolute_of_subject? h
  unfold subject? at h
  constructor
  · by_contra hnot
    rw [if_pos (.inr (.inr (Path.lexicallyRelative_eq hsame hbase hnot).names))] at h
    exact absurd h (by simp)
  · intro heq
    have hself (names : List Bytes) : Path.dropCommon names names = ([], []) := by
      induction names with
      | nil => rfl
      | cons name rest ih => rw [Path.dropCommon, if_pos rfl, ih]
    have hdot : p.lexicallyRelative r.base = ("." : Path) := by
      unfold Path.lexicallyRelative
      rw [if_neg (not_not_intro hsame), heq, hself]
    rw [hdot, if_pos (.inr (.inl (by decide)))] at h
    exact absurd h (by simp)

theorem isSome_of_applies {isDirectory : Bool} (h : r.applies p isDirectory = true) :
    (r.subject? p).isSome = true := by
  rw [applies, Bool.and_eq_true] at h
  cases hsubject : r.subject? p with
  | none =>
    rw [hsubject] at h
    exact absurd h.2 (by simp)
  | some text => rfl

end IgnoreRule

end ScriptLint
