/-
Arguments that are written out and read back.

An option and its value, a flag and a plain argument can be written in several ways, and short
forms share a dash.  Told as a relation between what is said and how it is written, a command line
is written piece by piece, each behind the others, and reading takes one piece after the other:

* **`Arguments.Occurrence`** — what is said, and **`Arguments.take`** what it adds;
* **`Arguments.Flags`**, **`Arguments.Spells`** — how it may be written;
* **`Arguments.readLong_inline`**, **`Arguments.readShort_flags`** and their kin — how one piece
  is read;
* **`Arguments.readAll_of_spells`** — the pieces one after the other;
* **`Arguments.parse_spells`** — what is written is read back.
-/
import Mathlib.Data.List.Nodup
import Mathlib.Data.List.Pairwise
import Mathlib.Data.List.TakeWhile
import ScriptLint.CommandLine.Lint

namespace ScriptLint

namespace Arguments

variable {specs : List OptionSpec} {spec : OptionSpec} {a : Arguments} {names : List Bytes}
  {name value bytes text : Bytes} {b : UInt8} {rest : List Bytes} {next : Option Bytes}

/-! ### What is said and how it is written -/

/-- What one piece of a command line says. -/
inductive Occurrence where
  | value (name value : Bytes)
  | flag (name : Bytes)
  | positional (text : Bytes)
  deriving DecidableEq, Repr

/-- The arguments with what one more piece says. -/
def take (a : Arguments) : Occurrence → Arguments
  | .value name value => a.give name value
  | .flag name => a.raise name
  | .positional text => { a with positional := a.positional ++ [text] }

/-- Options can be told apart, by their names and by their short forms, and neither is one that has
another meaning. -/
structure Distinct (specs : List OptionSpec) : Prop where
  names : (specs.map OptionSpec.name).Nodup
  plain : ∀ spec ∈ specs, spec.name ≠ [] ∧ '='.toUInt8 ∉ spec.name
  shorts : (specs.filterMap OptionSpec.short).Nodup
  reserved : ∀ spec ∈ specs, spec.short.bind commonShort? = none

/-- Flags by the bytes of their short forms. -/
inductive Flags (specs : List OptionSpec) : List Bytes → Bytes → Prop where
  | nil : Flags specs [] []
  | common {b : UInt8} {name : Bytes} {names : List Bytes} {bytes : Bytes}
      (hshort : commonShort? b = some name) (hrest : Flags specs names bytes) :
      Flags specs (name :: names) (b :: bytes)
  | own {b : UInt8} {spec : OptionSpec} {names : List Bytes} {bytes : Bytes}
      (hspec : spec ∈ specs) (hshort : spec.short = some b) (hflag : spec.takesValue = false)
      (hrest : Flags specs names bytes) : Flags specs (spec.name :: names) (b :: bytes)

/-- What command lines say, for each way in which it may be written.  The short form that stands
directly behind a dash is no dash. -/
inductive Spells (specs : List OptionSpec) : List Occurrence → List Bytes → Prop where
  | nil : Spells specs [] []
  | inline {spec : OptionSpec} {value : Bytes} {os : List Occurrence} {rest : List Bytes}
      (hspec : spec ∈ specs) (htakes : spec.takesValue = true) (hvalue : value ≠ [])
      (hrest : Spells specs os rest) :
      Spells specs (.value spec.name value :: os) (("--" ++ (spec.name ++ "=" ++ value)) :: rest)
  | apart {spec : OptionSpec} {value : Bytes} {os : List Occurrence} {rest : List Bytes}
      (hspec : spec ∈ specs) (htakes : spec.takesValue = true) (hvalue : value ≠ [])
      (hrest : Spells specs os rest) :
      Spells specs (.value spec.name value :: os) (("--" ++ spec.name) :: value :: rest)
  | flag {spec : OptionSpec} {os : List Occurrence} {rest : List Bytes}
      (hspec : spec ∈ specs) (hflag : spec.takesValue = false) (hrest : Spells specs os rest) :
      Spells specs (.flag spec.name :: os) (("--" ++ spec.name) :: rest)
  | common {name : Bytes} {os : List Occurrence} {rest : List Bytes}
      (hname : name ∈ commonFlags) (hother : ∀ spec ∈ specs, spec.name ≠ name)
      (hrest : Spells specs os rest) :
      Spells specs (.flag name :: os) (("--" ++ name) :: rest)
  | group {names : List Bytes} {bytes : Bytes} {os : List Occurrence} {rest : List Bytes}
      (hflags : Flags specs names bytes) (hne : bytes ≠ [])
      (hdash : bytes.head? ≠ some '-'.toUInt8) (hrest : Spells specs os rest) :
      Spells specs (names.map .flag ++ os) (("-" ++ bytes) :: rest)
  | groupInline {names : List Bytes} {bytes value : Bytes} {b : UInt8} {spec : OptionSpec}
      {os : List Occurrence} {rest : List Bytes}
      (hflags : Flags specs names bytes) (hspec : spec ∈ specs) (hshort : spec.short = some b)
      (htakes : spec.takesValue = true) (hdash : (bytes ++ [b]).head? ≠ some '-'.toUInt8)
      (hvalue : value ≠ []) (hrest : Spells specs os rest) :
      Spells specs (names.map .flag ++ .value spec.name value :: os)
        (("-" ++ (bytes ++ b :: value)) :: rest)
  | groupApart {names : List Bytes} {bytes value : Bytes} {b : UInt8} {spec : OptionSpec}
      {os : List Occurrence} {rest : List Bytes}
      (hflags : Flags specs names bytes) (hspec : spec ∈ specs) (hshort : spec.short = some b)
      (htakes : spec.takesValue = true) (hdash : (bytes ++ [b]).head? ≠ some '-'.toUInt8)
      (hvalue : value ≠ []) (hrest : Spells specs os rest) :
      Spells specs (names.map .flag ++ .value spec.name value :: os)
        (("-" ++ (bytes ++ [b])) :: value :: rest)
  | positional {text : Bytes} {os : List Occurrence} {rest : List Bytes}
      (hne : text ≠ []) (hplain : text.head? = some '-'.toUInt8 → text = "-")
      (hrest : Spells specs os rest) : Spells specs (.positional text :: os) (text :: rest)
  | ended {texts : List Bytes} (hne : ∀ text ∈ texts, text ≠ []) :
      Spells specs (texts.map .positional) ("--" :: texts)

/-! ### Options by their names -/

theorem byName?_of_mem (h : Distinct specs) (hspec : spec ∈ specs) :
    byName? specs spec.name = some spec := by
  cases hfind : byName? specs spec.name with
  | none =>
    have hnone := List.find?_eq_none.mp hfind spec (List.mem_reverse.mpr hspec)
    exact absurd (decide_eq_true rfl) hnone
  | some found =>
    have hfound := List.mem_reverse.mp (List.mem_of_find?_eq_some hfind)
    have hname : found.name = spec.name := by simpa using List.find?_some hfind
    rw [List.inj_on_of_nodup_map h.names hfound hspec hname]

theorem byName?_eq_none (h : ∀ spec ∈ specs, spec.name ≠ name) : byName? specs name = none :=
  List.find?_eq_none.mpr fun spec hspec => by simpa using h spec (List.mem_reverse.mp hspec)

theorem byShort?_of_mem (h : Distinct specs) (hspec : spec ∈ specs) (hshort : spec.short = some b) :
    byShort? specs b = some spec := by
  cases hfind : byShort? specs b with
  | none =>
    have hnone := List.find?_eq_none.mp hfind spec (List.mem_reverse.mpr hspec)
    exact absurd (decide_eq_true hshort) hnone
  | some found =>
    have hfound := List.mem_reverse.mp (List.mem_of_find?_eq_some hfind)
    have hshort' : found.short = some b := by simpa using List.find?_some hfind
    -- not every option has a short form, so the options are told apart in pairs
    by_contra hne
    have hsymm : Std.Symm fun s s' : OptionSpec =>
        ∀ c, s.short = some c → ∀ c', s'.short = some c' → c ≠ c' :=
      ⟨fun _ _ hdiffer c hc c' hc' => (hdiffer c' hc' c hc).symm⟩
    exact (List.pairwise_filterMap.mp h.shorts).forall hfound hspec
      (fun heq => hne (congrArg some heq)) b hshort' b hshort rfl

theorem commonShort?_of_mem (h : Distinct specs) (hspec : spec ∈ specs)
    (hshort : spec.short = some b) : commonShort? b = none := by
  have hreserved := h.reserved spec hspec
  rwa [hshort, Option.bind_some] at hreserved

/-! ### Reading one piece -/

theorem not_isEquals (hname : '='.toUInt8 ∉ name) : ∀ b ∈ name, (!isEquals b) = true := by
  intro b hb
  rw [isEquals, Bool.not_eq_true', beq_eq_false_iff_ne]
  exact fun heq => hname (heq ▸ hb)

/-- The text of an option before and behind the equals sign. -/
theorem cut_equals (hname : '='.toUInt8 ∉ name) (value : Bytes) :
    (name ++ "=" ++ value).takeWhile (!isEquals ·) = name ∧
      ((name ++ "=" ++ value).dropWhile (!isEquals ·)).tail? = some value := by
  rw [List.append_assoc]
  constructor
  · rw [List.takeWhile_append_of_pos (not_isEquals hname)]
    exact List.append_nil name
  · rw [List.dropWhile_append_of_pos (not_isEquals hname)]
    rfl

theorem cut_plain (hname : '='.toUInt8 ∉ name) :
    name.takeWhile (!isEquals ·) = name ∧ (name.dropWhile (!isEquals ·)).tail? = none := by
  rw [List.takeWhile_eq_self_iff.mpr (not_isEquals hname),
    List.dropWhile_eq_nil_iff.mpr (not_isEquals hname)]
  exact ⟨rfl, rfl⟩

theorem readLong_inline (h : Distinct specs) (hspec : spec ∈ specs)
    (htakes : spec.takesValue = true) (hvalue : value ≠ []) :
    a.readLong specs next (spec.name ++ "=" ++ value) = (a.give spec.name value, .ok false) := by
  obtain ⟨hname, hinline⟩ := cut_equals (h.plain spec hspec).2 value
  rw [readLong, hname, hinline, byName?_of_mem h hspec]
  simp [htakes, hvalue]

theorem readLong_apart (h : Distinct specs) (hspec : spec ∈ specs)
    (htakes : spec.takesValue = true) (hvalue : value ≠ []) :
    a.readLong specs (some value) spec.name = (a.give spec.name value, .ok true) := by
  obtain ⟨hname, hinline⟩ := cut_plain (h.plain spec hspec).2
  rw [readLong, hname, hinline, byName?_of_mem h hspec]
  simp [htakes, hvalue]

theorem readLong_flag (h : Distinct specs) (hspec : spec ∈ specs)
    (hflag : spec.takesValue = false) :
    a.readLong specs next spec.name = (a.raise spec.name, .ok false) := by
  obtain ⟨hname, hinline⟩ := cut_plain (h.plain spec hspec).2
  rw [readLong, hname, hinline, byName?_of_mem h hspec]
  simp [hflag]

theorem readLong_common (hname : name ∈ commonFlags) (hother : ∀ spec ∈ specs, spec.name ≠ name) :
    a.readLong specs next name = (a.raise name, .ok false) := by
  have hplain : ∀ name ∈ commonFlags, '='.toUInt8 ∉ name := by decide
  obtain ⟨hcut, hinline⟩ := cut_plain (hplain name hname)
  rw [readLong, hcut, hinline, byName?_eq_none hother]
  exact if_pos ⟨List.contains_iff_mem.mpr hname, rfl⟩

/-- The flags of a group are raised, and the rest of it is read. -/
theorem readShort_flags (h : Distinct specs) (hflags : Flags specs names bytes) (more : Bytes) :
    readShort specs next a (bytes ++ more) =
      readShort specs next ((names.map Occurrence.flag).foldl take a) more := by
  induction hflags generalizing a with
  | nil => rfl
  | common hshort _ ih =>
    rw [List.cons_append, readShort, hshort]
    exact ih
  | @own b spec _ _ hspec hshort hflag _ ih =>
    rw [List.cons_append, readShort, commonShort?_of_mem h hspec hshort,
      byShort?_of_mem h hspec hshort]
    simp only [hflag, Bool.not_false, if_true]
    exact ih

theorem readShort_inline (h : Distinct specs) (hspec : spec ∈ specs) (hshort : spec.short = some b)
    (htakes : spec.takesValue = true) (hvalue : value ≠ []) :
    readShort specs next a (b :: value) = (a.give spec.name value, .ok false) := by
  rw [readShort, commonShort?_of_mem h hspec hshort, byShort?_of_mem h hspec hshort]
  simp [htakes, hvalue]

theorem readShort_apart (h : Distinct specs) (hspec : spec ∈ specs) (hshort : spec.short = some b)
    (htakes : spec.takesValue = true) (hvalue : value ≠ []) :
    readShort specs (some value) a [b] = (a.give spec.name value, .ok true) := by
  rw [readShort, commonShort?_of_mem h hspec hshort, byShort?_of_mem h hspec hshort]
  simp [htakes, hvalue]

/-! ### Reading one argument -/

theorem readOption_short (hdash : bytes.head? ≠ some '-'.toUInt8) :
    a.readOption specs next ("-" ++ bytes) = readShort specs next a bytes := by
  have hsingle : ¬Bytes.startsWith ("-" ++ bytes) "--" = true := by
    -- a second dash would be the first short form
    intro hstart
    obtain ⟨more, hmore⟩ := List.isPrefixOf_iff_prefix.mp hstart
    have hbytes : bytes = '-'.toUInt8 :: more := (List.cons.inj hmore).2.symm
    exact hdash (congrArg List.head? hbytes)
  rw [readOption, if_neg hsingle]
  rfl

/-- An argument that is an option is read as one, and if the argument behind it is its value, that
one is taken, too. -/
theorem readAll_option {argument : Bytes} {a' : Arguments} {taken : Bool}
    (hoption : isOption argument = true) (hends : argument ≠ "--")
    (hread : a.readOption specs rest.head? argument = (a', .ok taken)) :
    readAll specs false a (argument :: rest) =
      readAll specs false a' (bif taken then rest.tail else rest) := by
  have hne : argument ≠ [] := fun hnil => by
    rw [hnil] at hoption
    cases hoption
  rw [readAll.eq_def]
  simp only
  rw [if_neg hne, if_neg fun hdashes => hends hdashes.1,
    if_neg fun hplain => absurd hoption (by simpa using hplain), hread]
  cases taken with
  | false => rfl
  | true => cases rest <;> rfl

theorem isOption_long (htext : text ≠ []) :
    isOption ("--" ++ text) = true ∧ "--" ++ text ≠ ("--" : Bytes) := by
  constructor
  · rw [isOption, List.length_append, Bool.and_eq_true, decide_eq_true_eq]
    exact ⟨rfl, Nat.lt_of_lt_of_le Nat.one_lt_two (Nat.le_add_right 2 _)⟩
  · exact fun heq => htext (List.append_right_eq_self.mp heq)

theorem isOption_short (hne : bytes ≠ []) (hdash : bytes.head? ≠ some '-'.toUInt8) :
    isOption ("-" ++ bytes) = true ∧ "-" ++ bytes ≠ ("--" : Bytes) := by
  constructor
  · rw [isOption, List.length_append, Bool.and_eq_true, decide_eq_true_eq]
    exact ⟨rfl, Nat.lt_add_of_pos_right (List.length_pos_iff.mpr hne)⟩
  · intro heq
    have hbytes : bytes = ['-'.toUInt8] := (List.cons.inj heq).2
    exact hdash (congrArg List.head? hbytes)

theorem isOption_plain (hplain : text.head? = some '-'.toUInt8 → text = "-") :
    isOption text = false := by
  rw [← Bool.not_eq_true, isOption, Bool.and_eq_true, decide_eq_true_eq]
  rintro ⟨hstart, hlength⟩
  obtain ⟨more, hmore⟩ := List.isPrefixOf_iff_prefix.mp hstart
  rw [hplain (by rw [← hmore]; rfl)] at hlength
  exact absurd hlength (by decide)

/-- Once options have ended, every argument is a plain one. -/
theorem readAll_ended (hne : ∀ text ∈ rest, text ≠ []) :
    readAll specs true a rest = ((rest.map Occurrence.positional).foldl take a, none) := by
  induction rest generalizing a with
  | nil => rfl
  | cons text rest ih =>
    obtain ⟨htext, hrest⟩ := List.forall_mem_cons.mp hne
    rw [readAll.eq_def]
    simp only
    rw [if_neg htext, if_neg (by simp), if_pos (.inl trivial), ih hrest]
    rfl

/-! ### Reading them all -/

/-- **What is written is read one piece after the other.** -/
theorem readAll_of_spells (h : Distinct specs) {os : List Occurrence} {arguments : List Bytes}
    (hspells : Spells specs os arguments) (a : Arguments) :
    readAll specs false a arguments = (os.foldl take a, none) := by
  -- whatever the arguments are so far, one piece is read and the others are left
  induction hspells generalizing a with
  | nil => rfl
  | @inline spec value _ _ hspec htakes hvalue _ ih =>
    obtain ⟨hoption, hends⟩ := @isOption_long (spec.name ++ "=" ++ value) (by simp [hvalue])
    exact (readAll_option hoption hends (readLong_inline h hspec htakes hvalue)).trans (ih _)
  | @apart spec value _ rest hspec htakes hvalue _ ih =>
    obtain ⟨hoption, hends⟩ := isOption_long (h.plain _ hspec).1
    have hread : a.readOption specs (value :: rest).head? ("--" ++ spec.name) =
        (a.give spec.name value, .ok true) := readLong_apart h hspec htakes hvalue
    exact (readAll_option hoption hends hread).trans (ih _)
  | flag hspec hflag _ ih =>
    obtain ⟨hoption, hends⟩ := isOption_long (h.plain _ hspec).1
    exact (readAll_option hoption hends (readLong_flag h hspec hflag)).trans (ih _)
  | @common name _ _ hname hother _ ih =>
    have hne : ∀ name ∈ commonFlags, name ≠ [] := by decide
    obtain ⟨hoption, hends⟩ := isOption_long (hne name hname)
    exact (readAll_option hoption hends (readLong_common hname hother)).trans (ih _)
  | @group names bytes _ rest hflags hne hdash _ ih =>
    obtain ⟨hoption, hends⟩ := isOption_short hne hdash
    have hread := @readShort_flags specs a _ _ rest.head? h hflags []
    rw [List.append_nil, readShort, ← readOption_short hdash] at hread
    rw [List.foldl_append]
    exact (readAll_option hoption hends hread).trans (ih _)
  | @groupInline names bytes value b spec _ rest hflags hspec hshort htakes hdash hvalue _ ih =>
    have hdash' : (bytes ++ b :: value).head? ≠ some '-'.toUInt8 := by
      rwa [List.append_cons, List.head?_append_of_ne_nil _ (by simp)]
    obtain ⟨hoption, hends⟩ := isOption_short (by simp) hdash'
    have hread := @readShort_flags specs a _ _ rest.head? h hflags (b :: value)
    rw [readShort_inline h hspec hshort htakes hvalue, ← readOption_short hdash'] at hread
    rw [List.foldl_append]
    exact (readAll_option hoption hends hread).trans (ih _)
  | @groupApart names bytes value b spec _ rest hflags hspec hshort htakes hdash hvalue _ ih =>
    obtain ⟨hoption, hends⟩ := isOption_short (by simp) hdash
    have hread := @readShort_flags specs a _ _ (some value) h hflags [b]
    rw [readShort_apart h hspec hshort htakes hvalue, ← readOption_short hdash] at hread
    rw [List.foldl_append]
    exact (readAll_option hoption hends hread).trans (ih _)
  | @positional text _ _ hne hplain _ ih =>
    have hoption : isOption text = false := isOption_plain hplain
    have hends : text ≠ "--" := fun heq => by
      rw [heq] at hoption
      exact absurd hoption (by decide)
    rw [readAll.eq_def]
    simp only
    rw [if_neg hne, if_neg fun hdashes => hends hdashes.1, if_pos (.inr (by simp [hoption])), ih,
      List.foldl_cons, take]
  | @ended texts hne =>
    rw [readAll.eq_def]
    simp only
    rw [if_neg (by decide), if_pos (by simp), readAll_ended hne]

/-! ### What was said -/

/-- The value that a piece gives to an option. -/
def Occurrence.value? (name : Bytes) : Occurrence → Option Bytes
  | .value name' value => if name' = name then some value else none
  | _ => none

/-- The plain argument that a piece is. -/
def Occurrence.positional? : Occurrence → Option Bytes
  | .positional text => some text
  | _ => none

/-- The default of the option of a name; an empty one is none. -/
def default? (specs : List OptionSpec) (name : Bytes) : Option Bytes :=
  ((specs.find? fun spec => spec.name = name).map OptionSpec.default).filter (· ≠ [])

variable {os : List Occurrence}

theorem getAll_take (a : Arguments) (o : Occurrence) (name : Bytes) :
    (a.take o).getAll name = a.getAll name ++ (o.value? name).toList := by
  cases o with
  | value name' value =>
    rw [take, give, getAll, List.filter_append, List.map_append, Occurrence.value?]
    by_cases hname : name' = name
    · simp [getAll, hname]
    · simp [getAll, hname]
  | flag name' => exact (List.append_nil _).symm
  | positional text => exact (List.append_nil _).symm

theorem getAll_foldl (a : Arguments) (os : List Occurrence) (name : Bytes) :
    (os.foldl take a).getAll name = a.getAll name ++ os.filterMap (·.value? name) := by
  induction os generalizing a with
  | nil => exact (List.append_nil _).symm
  | cons o os ih =>
    rw [List.foldl_cons, ih, getAll_take, List.append_assoc, List.filterMap_cons]
    cases o.value? name <;> rfl

theorem getFlag_take (a : Arguments) (o : Occurrence) (name : Bytes) :
    (a.take o).getFlag name = true ↔ a.getFlag name = true ∨ .flag name = o := by
  cases o with
  | flag name' =>
    rw [take, raise, getFlag, List.contains_iff_mem, List.mem_append, List.mem_singleton, getFlag,
      List.contains_iff_mem, Occurrence.flag.injEq]
  | value | positional => exact (or_iff_left (by simp)).symm

theorem getFlag_foldl (a : Arguments) (os : List Occurrence) (name : Bytes) :
    (os.foldl take a).getFlag name = true ↔ a.getFlag name = true ∨ .flag name ∈ os := by
  induction os generalizing a with
  | nil => exact (or_iff_left List.not_mem_nil).symm
  | cons o os ih => rw [List.foldl_cons, ih, getFlag_take, or_assoc, List.mem_cons]

theorem positional_foldl (a : Arguments) (os : List Occurrence) :
    (os.foldl take a).positional = a.positional ++ os.filterMap Occurrence.positional? := by
  induction os generalizing a with
  | nil => exact (List.append_nil _).symm
  | cons o os ih =>
    rw [List.foldl_cons, ih]
    cases o with
    | positional text => exact List.append_assoc _ _ _
    | value | flag => rfl

theorem defaults_foldl (a : Arguments) (os : List Occurrence) :
    (os.foldl take a).defaults = a.defaults := by
  induction os generalizing a with
  | nil => rfl
  | cons o os ih =>
    rw [List.foldl_cons, ih]
    cases o <;> rfl

theorem default?_cons (spec : OptionSpec) (specs : List OptionSpec) (name : Bytes) :
    default? (spec :: specs) name =
      if spec.name = name then (if spec.default = [] then none else some spec.default)
      else default? specs name := by
  rw [default?, List.find?_cons]
  by_cases hname : spec.name = name
  · rw [if_pos hname, decide_eq_true hname]
    by_cases hempty : spec.default = [] <;> simp [hempty, Option.filter]
  · rw [if_neg hname, decide_eq_false hname]
    rfl

theorem default?_eq_none (h : ∀ spec ∈ specs, spec.name ≠ name) : default? specs name = none := by
  rw [default?, List.find?_eq_none.mpr fun spec hspec => by simpa using h spec hspec]
  rfl

/-- The defaults are those of the options. -/
theorem find?_initial (h : (specs.map OptionSpec.name).Nodup) (name : Bytes) :
    (initial specs).defaults.find? name = default? specs name := by
  -- the name that comes first is not met again, so that its default stays
  have hfold (table : Table Bytes) : (specs.foldl (fun table spec => if spec.default = [] then table
      else table.insert spec.name spec.default) table).find? name =
        (default? specs name).or (table.find? name) := by
    induction specs generalizing table with
    | nil => rfl
    | cons spec rest ih =>
      obtain ⟨hfirst, hrest⟩ := List.nodup_cons.mp h
      rw [List.foldl_cons, ih hrest, default?_cons]
      by_cases hname : spec.name = name
      · have hnone : default? rest name = none := default?_eq_none fun spec' hspec' hname' =>
          hfirst (List.mem_map.mpr ⟨spec', hspec', hname'.trans hname.symm⟩)
        rw [hnone, if_pos hname]
        split
        · rfl
        · rw [Table.find?_insert, if_pos hname.symm]
          rfl
      · rw [if_neg hname]
        split
        · rfl
        · rw [Table.find?_insert, if_neg (Ne.symm hname)]
  rw [initial, hfold]
  exact Option.or_none

end Arguments

open Arguments in
/-- **What is written is read back.**  If options can be told apart, a command line that says
something in any mix of spellings, with no dash as a short form directly behind a dash, is read
without a fault; each option has the values that are given for it, in their order, the last of them
counts, or else the default; just the given flags are raised; and plain arguments come in their
order. -/
theorem Arguments.parse_spells {specs : List OptionSpec} (h : Distinct specs)
    {os : List Occurrence} {arguments : List Bytes} (hspells : Spells specs os arguments) :
    ∃ a, parse specs arguments = (a, none) ∧ a.positional = os.filterMap Occurrence.positional? ∧
      ∀ name, a.getAll name = os.filterMap (·.value? name) ∧
        a.get? name = ((os.filterMap (·.value? name)).getLast? <|> default? specs name) ∧
        (a.getFlag name = true ↔ .flag name ∈ os) := by
  refine ⟨_, readAll_of_spells h hspells _, positional_foldl _ os, fun name => ?_⟩
  have hall := getAll_foldl (initial specs) os name
  rw [show (initial specs).getAll name = [] from rfl, List.nil_append] at hall
  refine ⟨hall, ?_, ?_⟩
  · rw [get?, hall, defaults_foldl, find?_initial h.names]
  · rw [getFlag_foldl]
    exact or_iff_right (by simp [getFlag, initial])

open Arguments in
/-- **A dash is no short form directly behind a dash**: `--` is not the flag of this short form but
ends the options, and `--5` is not its value but an option of its own. -/
theorem Arguments.parse_dash :
    let flag : OptionSpec := { name := "x", short := some '-', takesValue := false }
    let option : OptionSpec := { name := "x", short := some '-' }
    (Distinct [flag] ∧ Flags [flag] ["x"] "-" ∧ parse [flag] ["--"] = ({}, none) ∧
      (parse [flag] ["--"]).1.getFlag "x" = false) ∧
    Distinct [option] ∧ (parse [option] ["--5"]).2 = some (.unknownOption "5") := by
  intro flag option
  refine ⟨⟨⟨by decide, by decide, by decide, by decide⟩, ?_, by decide, by decide⟩,
    ⟨by decide, by decide, by decide, by decide⟩, by decide⟩
  exact .own List.mem_cons_self rfl rfl .nil

open Arguments in
/-- A group that ends with a value like an option, a value with an equals sign, and plain
arguments of which one looks like a group. -/
theorem Arguments.parse_spells_lint :
    ∃ a, parse Lint.options ["-vj", "-8", "--ignore-pattern=a=b", "--fix", "src", "--", "-x"] =
        (a, none) ∧
      a.positional = ["src", "-x"] ∧ a.get? "parallel" = some "-8" ∧
      a.getAll "ignore-pattern" = ["a=b"] ∧ a.get? "config" = none ∧ a.getFlag "verbose" = true ∧
      a.getFlag "fix" = true ∧ a.getFlag "json" = false := by
  have hdistinct : Distinct Lint.options := ⟨by decide, by decide, by decide, by decide⟩
  obtain ⟨parallel, hparallel, hparallelName, hshort, hparallelTakes⟩ : ∃ spec ∈ Lint.options,
      spec.name = "parallel" ∧ spec.short = some 'j'.toUInt8 ∧ spec.takesValue = true := by decide
  obtain ⟨pattern, hpattern, hpatternName, hpatternTakes⟩ : ∃ spec ∈ Lint.options,
      spec.name = "ignore-pattern" ∧ spec.takesValue = true := by decide
  obtain ⟨fix, hfix, hfixName, hflag⟩ : ∃ spec ∈ Lint.options,
      spec.name = "fix" ∧ spec.takesValue = false := by decide
  have hspells : Spells Lint.options [.flag "verbose", .value "parallel" "-8",
      .value "ignore-pattern" "a=b", .flag "fix", .positional "src", .positional "-x"]
      ["-vj", "-8", "--ignore-pattern=a=b", "--fix", "src", "--", "-x"] := by
    have hended : Spells Lint.options ([("-x" : Bytes)].map .positional) ["--", "-x"] :=
      .ended (by decide)
    have hplain := Spells.positional (by decide) (by decide : _ → ("src" : Bytes) = "-") hended
    have hvalues := Spells.inline hpattern hpatternTakes (by decide : ("a=b" : Bytes) ≠ [])
      (.flag hfix hflag hplain)
    have hverbose : Flags Lint.options ["verbose"] "v" := .common (by decide) .nil
    have hgroup := Spells.groupApart hverbose hparallel hshort hparallelTakes (by decide)
      (by decide : ("-8" : Bytes) ≠ []) hvalues
    rw [hparallelName, hpatternName, hfixName] at hgroup
    exact hgroup
  obtain ⟨a, hparse, hpositional, hasks⟩ := parse_spells hdistinct hspells
  refine ⟨a, hparse, hpositional, (hasks "parallel").2.1, (hasks "ignore-pattern").1,
    (hasks "config").2.1, (hasks "verbose").2.2.mpr (by simp), (hasks "fix").2.2.mpr (by simp), ?_⟩
  rw [← Bool.not_eq_true, (hasks "json").2.2]
  decide

end ScriptLint
