/-
The factor of a configuration.

How many paths a batch has for each worker can be said in the arguments or in the configuration.
The arguments say it with at most 32 bits, the configuration with 64, and a run takes what 32 bits
hold of it.  What is left can be nothing, and that is refused although the configuration was not:

* **`Config.multiplier_of_parse`** — the factor of a configuration is the one in its text;
* **`Arguments.get?_of_getAll_nil`** — arguments that do not give an option leave its default;
* **`Lint.prepare_eq`** — the factor decides nothing but whether there is a run, and with which
  options;
* **`Lint.runs_truncated`** — with which factor there is a run.
-/
import ScriptLint.CommandLine.Lint
import ScriptLint.Proofs.Scanning

namespace ScriptLint

/-! ### Configurations -/

namespace Config

/-- What a member says is what its value says. -/
theorem readMember_of_find? {α : Type} {members : Table JsonValue} {key : Bytes}
    {read : JsonValue → Except Fault α} {value : JsonValue} {result : Option α}
    (hvalue : members.find? key = some value) (h : readMember members key read = .ok result) :
    ∃ a, read value = .ok a ∧ result = some a := by
  rw [readMember, hvalue] at h
  cases hread : read value with
  | error fault =>
    simp only [hread] at h
    cases h
  | ok a =>
    simp only [hread] at h
    cases h
    exact ⟨a, rfl, rfl⟩

theorem readMember_of_ofJson {members : Table JsonValue} {config : Config}
    (h : ofJson (.object members) = .ok config) :
    readMember members "batch_multiplier" readMultiplier = .ok config.batchMultiplier := by
  obtain ⟨rules, -, h⟩ := bind_ok h
  obtain ⟨extensions, -, h⟩ := bind_ok h
  obtain ⟨ignorePatterns, -, h⟩ := bind_ok h
  obtain ⟨multiplier, hmultiplier, h⟩ := bind_ok h
  obtain ⟨fix, -, h⟩ := bind_ok h
  cases h
  exact hmultiplier

/-- **The factor of a configuration is the one in its text**, and it is not zero. -/
theorem multiplier_of_parse {text : Bytes} {value : JsonValue} {config : Config} {k : Nat}
    (hjson : JsonValue.parse text = some value)
    (hmember : value.member? "batch_multiplier" = some (.natural k))
    (h : parse text = .ok config) : config.batchMultiplier = some k.toUInt64 ∧ k ≠ 0 := by
  rw [parse, hjson] at h
  cases value with
  | object members =>
    obtain ⟨n, hread, hconfig⟩ := readMember_of_find? hmember (readMember_of_ofJson h)
    rw [readMultiplier] at hread
    split at hread
    · cases hread
    · rename_i hpositive
      cases hread
      exact ⟨hconfig, hpositive⟩
  | _ => cases h

end Config

/-! ### Arguments -/

namespace Arguments

variable {specs : List OptionSpec} {a : Arguments}

/-- A value that is missing is a fault, and one that is not is put down. -/
theorem defaults_value (name value : Bytes) (fault : ArgumentFault)
    (used : Except ArgumentFault Bool) :
    (if value = [] then (a, .error fault) else (a.give name value, used) : Reading).1.defaults =
      a.defaults := by
  split <;> rfl

theorem defaults_readLong (next : Option Bytes) (text : Bytes) :
    (a.readLong specs next text).1.defaults = a.defaults := by
  unfold readLong
  dsimp only
  split
  · split <;> rfl
  · split
    · split <;> rfl
    · exact defaults_value _ _ _ _

theorem defaults_readShort (next : Option Bytes) (text : Bytes) :
    (readShort specs next a text).1.defaults = a.defaults := by
  induction text generalizing a with
  | nil => rfl
  | cons b rest ih =>
    rw [readShort]
    split
    · exact ih
    · rfl
    · split
      · exact ih
      · exact defaults_value _ _ _ _

theorem defaults_readOption (next : Option Bytes) (argument : Bytes) :
    (a.readOption specs next argument).1.defaults = a.defaults := by
  unfold readOption
  split
  · exact defaults_readLong next _
  · exact defaults_readShort next _

theorem defaults_of_readOption {next : Option Bytes} {argument : Bytes} {reading : Reading}
    (h : a.readOption specs next argument = reading) : reading.1.defaults = a.defaults :=
  h ▸ defaults_readOption next argument

theorem defaults_readAll (ended : Bool) (arguments : List Bytes) :
    (readAll specs ended a arguments).1.defaults = a.defaults := by
  fun_induction readAll specs ended a arguments with
  | case1 => rfl
  | case2 _ _ _ ih => exact ih
  | case3 _ _ _ _ _ _ ih => exact ih
  | case4 _ _ _ _ _ _ _ ih => exact ih
  | case5 _ _ _ _ _ _ _ _ _ hread =>
    rw [hread]
    exact defaults_of_readOption hread
  | case6 _ _ _ _ _ _ _ _ _ hread ih =>
    rw [hread]
    exact ih.trans (defaults_of_readOption hread)
  | case7 _ _ _ _ _ _ _ used rest hunused hread ih =>
    have hdefaults := ih.trans (defaults_of_readOption hread)
    rw [hread]
    cases used with
    | false => exact hdefaults
    | true =>
      -- there is no next argument that could be used
      cases rest with
      | nil => exact hdefaults
      | cons next rest => exact (hunused next rest rfl rfl).elim

/-- No argument changes a default. -/
theorem defaults_parse (specs : List OptionSpec) (arguments : List Bytes) :
    (parse specs arguments).1.defaults = (initial specs).defaults :=
  defaults_readAll false arguments

/-- Without a value an option has its default. -/
theorem get?_of_getAll_nil {name : Bytes} (h : a.getAll name = []) :
    a.get? name = a.defaults.find? name := by
  rw [get?, h]
  rfl

end Arguments

/-! ### Runs -/

namespace RunOptions

/-- Options with some room in a block are refused for their factor only. -/
theorem check_eq {o : RunOptions} (hblock : o.blockSize ≠ 0) :
    o.check = if o.batchMultiplier = 0 then
        .error { kind := .config, message := "Batch multiplier must be at least 1" }
      else .ok o := by
  rw [check, if_neg hblock]

end RunOptions

namespace Lint

variable {s : Surroundings} {a : Arguments} {config : Config}

/-- Without a number in the arguments there is none. -/
theorem getNumber?_multiplier {arguments : List Bytes}
    (h : (Arguments.parse options arguments).1.getAll "batch-multiplier" = []) :
    (Arguments.parse options arguments).1.getNumber? "batch-multiplier" = none := by
  rw [Arguments.getNumber?, Arguments.get?_of_getAll_nil h, Arguments.defaults_parse]
  rfl

/-- **What the factor decides.**  The rest of the work is the same without it. -/
theorem prepare_eq (hnumber : a.getNumber? "batch-multiplier" = none) (configPath : Option Path) :
    prepare s a configPath config = (do
      match ← prepare s a configPath { config with batchMultiplier := none } with
      | none => return none
      | some (session, files) =>
        let options ← (runOptions s a config).check
        return some ({ session with options }, files)) := by
  have hcheck : (runOptions s a { config with batchMultiplier := none }).check =
      .ok (runOptions s a { config with batchMultiplier := none }) := by
    have hfour : batchMultiplier a { config with batchMultiplier := none } = 4 := by
      rw [batchMultiplier, hnumber]
      rfl
    have hne : (runOptions s a { config with batchMultiplier := none }).batchMultiplier ≠ 0 := by
      show batchMultiplier a { config with batchMultiplier := none } ≠ 0
      rw [hfour]
      decide
    exact (RunOptions.check_eq (by simp [runOptions])).trans (if_neg hne)
  have hignoring : ignoring s.disk a configPath { config with batchMultiplier := none } =
      ignoring s.disk a configPath config := rfl
  unfold prepare LintSession.create
  dsimp only
  rw [hcheck, hignoring]
  cases RuleSet.configured config.rules Rule.builtin with
  | error => rfl
  | ok rules =>
    cases ignoring s.disk a configPath config with
    | error => rfl
    | ok found =>
      dsimp only [bind, Except.bind]
      generalize (if config.extensions = [] then Loaders.standard
        else Loaders.standard.retain config.extensions) = loaders
      cases s.disk.collect (a.positional.map Path.mk) s.disk.directory found.1
        (fun p => loaders.supports p.extension) found.2 with
      | error => rfl
      | ok files =>
        dsimp only
        by_cases hfiles : files = []
        · rw [if_pos hfiles, if_pos hfiles]
          rfl
        · rw [if_neg hfiles, if_neg hfiles]
          cases (runOptions s a config).check <;> rfl

section

variable {factor : Nat} (hnumber : a.getNumber? "batch-multiplier" = none)
  (hmultiplier : config.batchMultiplier = some factor.toUInt64)

include hnumber hmultiplier

/-- The options have what 32 bits hold of the factor. -/
theorem multiplier_runOptions :
    (runOptions s a config).batchMultiplier.toNat = factor % 2 ^ 32 := by
  show (batchMultiplier a config).toNat = factor % 2 ^ 32
  rw [batchMultiplier, hnumber, hmultiplier, Option.getD_none, Option.getD_some,
    UInt32.toNat_toUInt64, UInt64.toNat_toUInt32]
  exact Nat.mod_mod_of_dvd factor (by decide)

theorem check_runOptions :
    (runOptions s a config).check = if 2 ^ 32 ∣ factor then
        .error { kind := .config, message := "Batch multiplier must be at least 1" }
      else .ok (runOptions s a config) := by
  have hzero : (runOptions s a config).batchMultiplier = 0 ↔ 2 ^ 32 ∣ factor := by
    rw [← UInt64.toNat_inj, multiplier_runOptions hnumber hmultiplier, UInt64.toNat_zero,
      Nat.dvd_iff_mod_eq_zero]
  rw [RunOptions.check_eq (by simp [runOptions])]
  simp only [hzero]

theorem prepare_of_multiplier (configPath : Option Path) :
    prepare s a configPath config = (do
      match ← prepare s a configPath { config with batchMultiplier := none } with
      | none => return none
      | some (session, files) =>
        if 2 ^ 32 ∣ factor then
          throw { kind := .config, message := "Batch multiplier must be at least 1" }
        else return some ({ session with options := runOptions s a config }, files)) := by
  rw [prepare_eq hnumber, check_runOptions hnumber hmultiplier]
  congr 1
  funext found
  rcases found with _ | ⟨session, files⟩
  · rfl
  · dsimp only
    split <;> rfl

end

/-- What becomes of the factor of a configuration. -/
structure Truncates (s : Surroundings) (a : Arguments) (config : Config) (factor : Nat) : Prop where
  /-- The configuration was read, so it is not zero. -/
  positive : 0 < factor
  /-- A run gets what 32 bits hold of it. -/
  options : (runOptions s a config).batchMultiplier.toNat = factor % 2 ^ 32
  /-- That is the factor itself exactly if it is below 2^32. -/
  exact : (runOptions s a config).batchMultiplier.toNat = factor ↔ factor < 2 ^ 32
  /-- It decides nothing else, except that there is no run if nothing is left of it. -/
  prepare : ∀ configPath, Lint.prepare s a configPath config = (do
    match ← Lint.prepare s a configPath { config with batchMultiplier := none } with
    | none => return none
    | some (session, files) =>
      if 2 ^ 32 ∣ factor then
        throw { kind := .config, message := "Batch multiplier must be at least 1" }
      else return some ({ session with options := runOptions s a config }, files))
  /-- Then the command ends by an error if it finds files. -/
  refused : 2 ^ 32 ∣ factor → a.getFlag "help" = false →
    configuration s.disk (configPath? s.disk a) = .ok config →
    ∀ found, Lint.prepare s a (configPath? s.disk a) { config with batchMultiplier := none } =
      .ok (some found) →
    ∃ before, execute s a =
      Ending.fatal s.disk "[ConfigError] Batch multiplier must be at least 1" before

/-- **A run has the factor of its configuration as far as 32 bits hold it.**  The configuration is
any that is read with a factor, and the arguments are any that give none. -/
theorem runs_truncated (s : Surroundings) {arguments : List Bytes} {text : Bytes}
    {value : JsonValue} {config : Config} {k : Nat}
    (harguments : (Arguments.parse options arguments).1.getAll "batch-multiplier" = [])
    (hjson : JsonValue.parse text = some value)
    (hmember : value.member? "batch_multiplier" = some (.natural k))
    (hconfig : Config.parse text = .ok config) :
    Truncates s (Arguments.parse options arguments).1 config k := by
  obtain ⟨hmultiplier, hpositive⟩ := Config.multiplier_of_parse hjson hmember hconfig
  have hnumber := getNumber?_multiplier harguments
  have hoptions := multiplier_runOptions (s := s) hnumber hmultiplier
  have hprepare := prepare_of_multiplier (s := s) hnumber hmultiplier
  refine ⟨Nat.pos_of_ne_zero hpositive, hoptions, ?_, hprepare, ?_⟩
  · rw [hoptions, Nat.mod_eq_iff_lt (by decide)]
  · intro hnothing hhelp hread found hfound
    have herror : prepare s (Arguments.parse options arguments).1
        (configPath? s.disk (Arguments.parse options arguments).1) config =
          .error { kind := .config, message := "Batch multiplier must be at least 1" } := by
      rw [hprepare, hfound]
      exact if_pos hnothing
    rw [execute, hhelp]
    simp only [Bool.false_eq_true, if_false, hread, herror]
    exact ⟨_, rfl⟩

/-- A factor of 2^32 + 3, of which three is left. -/
theorem runs_truncated_three :
    let text : Bytes := "\x7b\"batch_multiplier\": 4294967299, \"fix\": true\x7d"
    let members : Table JsonValue := [("batch_multiplier", .natural 4294967299), ("fix", .bool true)]
    let config : Config := { batchMultiplier := some 4294967299, fix := some true }
    let arguments : List Bytes := ["--json", "-j2", "a.js"]
    let a := (Arguments.parse options arguments).1
    a.getAll "batch-multiplier" = [] ∧
      JsonValue.parse text = some (.object members) ∧
      (JsonValue.object members).member? "batch_multiplier" = some (.natural 4294967299) ∧
      Config.parse text = .ok config ∧
      (runOptions { disk := {} } a config).batchMultiplier = 3 ∧
      Truncates { disk := {} } a config 4294967299 := by
  intro text members config arguments a
  have harguments : a.getAll "batch-multiplier" = [] := by decide
  have hjson : JsonValue.parse text = some (.object members) := rfl
  have hmember : (JsonValue.object members).member? "batch_multiplier" =
      some (.natural 4294967299) := rfl
  have hconfig : Config.parse text = .ok config := rfl
  exact ⟨harguments, hjson, hmember, hconfig, by decide,
    runs_truncated _ harguments hjson hmember hconfig⟩

/-- A configuration that is read, with a factor of which nothing is left: the options have
another factor, and they are refused whatever else they are used with. -/
theorem runs_truncated_lost :
    let text : Bytes := "\x7b\"batch_multiplier\": 4294967296\x7d"
    let config : Config := { batchMultiplier := some 4294967296 }
    let a := (Arguments.parse options [("a.js" : Bytes)]).1
    Config.parse text = .ok config ∧ a.getAll "batch-multiplier" = [] ∧
      ∀ (s : Surroundings) (loaders : Loaders) (resolver : Resolver) (rules : RuleSet),
        some (runOptions s a config).batchMultiplier ≠ config.batchMultiplier ∧
          LintSession.create (runOptions s a config) loaders resolver rules =
            .error { kind := .config, message := "Batch multiplier must be at least 1" } := by
  intro text config a
  have hconfig : Config.parse text = .ok config := rfl
  refine ⟨hconfig, by decide, fun s loaders resolver rules => ?_⟩
  have hlost : batchMultiplier a config = 0 := by decide
  constructor
  · show some (batchMultiplier a config) ≠ some 4294967296
    rw [hlost]
    decide
  · have hcheck : (runOptions s a config).check =
        .error { kind := .config, message := "Batch multiplier must be at least 1" } := if_pos hlost
    rw [LintSession.create, hcheck]
    rfl

end Lint

end ScriptLint
