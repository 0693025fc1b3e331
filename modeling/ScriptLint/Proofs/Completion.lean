/-
Every run ends.

Only entries and files can be reached, so there is a bound on how many modules a run
loads.  Each of them takes three steps to be loaded and at most three to be analyzed,
and each batch takes two more:

* **`Linter.Sound.rank_lt`** — every step lowers the rank of a phase;
* **`Linter.Sound.exists_step`** — before the end there is a next step;
* **`LintSession.exists_finishes`** — `LintSession.run` is an execution, so its fuel is
  enough.
-/
import ScriptLint.Proofs.Invariant

namespace ScriptLint

/-! ### How many modules there are -/

namespace Linter

variable (l : Linter)

/-- No more than this many modules can be reached: the entries and the files. -/
def ceiling (files : MemoryFiles) : Nat := l.entries.size + FileStore.bound files

variable {l} {files : MemoryFiles}

theorem ceiling_congr {store : MemoryFiles} (h : ∀ k, k ∈ store.files ↔ k ∈ files.files) :
    l.ceiling store = l.ceiling files :=
  congrArg (l.entries.size + ·) (MemoryFiles.bound_congr h)

/-- The paths that a run hands out are distinct entries and files. -/
theorem Handed.length_le {handed : List Path} {g : ModuleGraph} (h : Handed l files handed g) :
    handed.length ≤ l.ceiling files := by
  have hsubset : handed.map Path.key ⊆ l.entries.paths.map Path.key ++ files.files.keys := by
    intro k hk
    obtain ⟨p, hp, rfl⟩ := List.mem_map.mp hk
    rw [List.mem_append, Std.TreeMap.mem_keys]
    exact entry_or_file (h.reached p hp)
  have hlength := (h.nodup.subperm hsubset).length_le
  rw [List.length_append, List.length_map, List.length_map, Std.TreeMap.length_keys] at hlength
  exact hlength

end Linter

/-! ### Ranks -/

section

variable {σ : Type}

/-- The steps of loading that are left, if there are `size` modules and all turn up. -/
def Closing.tasks (size loaded : Nat) (c : Closing σ) : Nat :=
  3 * (size - (loaded + c.running.length + c.waiting.waiting.length)) +
    3 * c.waiting.waiting.length + 2 * c.running.length + c.results.waiting.length

/-- The steps of the analyses that loading leads to, likewise. -/
def Closing.followUps (size loaded : Nat) (c : Closing σ) : Nat :=
  3 * (size - (loaded - c.results.waiting.length)) + 3 * c.analyzable.length

/-- The steps that are left of the analyses of a batch. -/
def Analyzing.tasks (a : Analyzing σ) : Nat :=
  3 * a.waiting.waiting.length + 2 * a.running.length + a.results.waiting.length

/-- No more than this many steps are left of a run, if there are at most `size`
modules. -/
def Phase.rank (size loaded : Nat) : Phase σ → Nat
  | .closing _ rest c =>
    c.tasks size loaded + c.followUps size loaded + 2 * rest.length + 2
  | .analyzing _ rest _ a => 6 * (size - loaded) + a.tasks + 2 * rest.length + 1
  | .finished _ => 0

end

namespace Linter

variable {l : Linter} {files : MemoryFiles} {loaded prior received : List Path}
  {analyses : List Analysis} {rest : List Batch} {batch : Batch}

namespace WhileClosing

variable {c : Closing MemoryFiles}

/-- What was handed out is not more than there can be. -/
theorem length_le (h : WhileClosing l files loaded prior analyses rest c) :
    loaded.length + c.running.length + c.waiting.waiting.length ≤ l.ceiling files := by
  have := h.handed.length_le
  rwa [List.length_append, List.length_append] at this

theorem results_le (h : WhileClosing l files loaded prior analyses rest c) :
    c.results.waiting.length ≤ loaded.length := by
  rw [h.loaded_eq, List.length_append, List.length_map]
  exact Nat.le_add_left _ _

/-- While a batch is loaded, every step but the last lowers the tasks, and no
follow-ups are added. -/
theorem tasks_lt {more : List Path} {c' : Closing MemoryFiles}
    (h : WhileClosing l files loaded prior analyses rest c)
    (hstep : l.Step (.closing batch rest c) more (.closing batch rest c')) :
    c'.tasks (l.ceiling files) (loaded ++ more).length < c.tasks (l.ceiling files) loaded.length ∧
      c'.followUps (l.ceiling files) (loaded ++ more).length ≤
        c.followUps (l.ceiling files) loaded.length := by
  have hresults := h.results_le
  cases hstep with
  | start hne =>
    cases hw : c.waiting.waiting with
    | nil => exact absurd hw hne
    | cons p more =>
      rw [Closing.step_start l hw]
      simp only [Closing.tasks, Closing.followUps, hw, List.append_nil, List.length_append,
        List.length_cons, List.length_nil]
      omega
  | @finish _ _ _ index p hp =>
    have hlength := List.length_eraseIdx_of_lt (List.getElem?_eq_some_iff.mp hp).1
    have hpos : 0 < c.running.length := Nat.zero_lt_of_lt (List.getElem?_eq_some_iff.mp hp).1
    rw [Closing.step_finish l hp]
    simp only [Closing.tasks, Closing.followUps, Channel.send, List.length_append,
      List.length_cons, List.length_nil, hlength]
    omega
  | receive hne =>
    have hlength := (h.receive hne).length_le
    cases hw : c.results.waiting with
    | nil => exact absurd hw hne
    | cons m more =>
      rw [Closing.step_receive l hw] at hlength ⊢
      obtain ⟨fresh, hr⟩ := Closing.exists_receives m
        { c with results := ⟨more⟩, outstanding := c.outstanding - 1 }
      have hanalyzable : (Closing.receive m
          { c with results := ⟨more⟩, outstanding := c.outstanding - 1 }).analyzable.length ≤
            c.analyzable.length + 1 := by
        rw [hr.analyzable]
        split <;> simp
      simp only [hw, List.length_cons] at hresults
      simp only [hr.running, hr.waiting, List.length_append] at hlength
      simp only [Closing.tasks, Closing.followUps, hr.results, hr.running, hr.waiting, hw,
        List.append_nil, List.length_append, List.length_cons]
      omega

end WhileClosing

/-- While a batch is analyzed, every step but the last lowers the tasks. -/
theorem tasks_lt {more : List Path} {a a' : Analyzing MemoryFiles}
    (hstep : l.Step (.analyzing batch rest received a) more (.analyzing batch rest received a')) :
    a'.tasks < a.tasks := by
  generalize hphase : Phase.analyzing batch rest received a' = phase' at hstep
  cases hstep with
  | inspect hne =>
    cases hphase
    cases hw : a.waiting.waiting with
    | nil => exact absurd hw hne
    | cons m more =>
      rw [Analyzing.step_start l hw]
      simp only [Analyzing.tasks, hw, List.length_append, List.length_cons, List.length_nil]
      omega
  | @conclude _ _ _ _ index m hm =>
    cases hphase
    have hlength := List.length_eraseIdx_of_lt (List.getElem?_eq_some_iff.mp hm).1
    have hpos : 0 < a.running.length := Nat.zero_lt_of_lt (List.getElem?_eq_some_iff.mp hm).1
    rw [Analyzing.step_finish l hm]
    simp only [Analyzing.tasks, Channel.send, List.length_append, List.length_cons,
      List.length_nil, hlength]
    omega
  | count hne =>
    cases hphase
    cases hw : a.results.waiting with
    | nil => exact absurd hw hne
    | cons counts more =>
      rw [Analyzing.step_receive l hw]
      simp only [Analyzing.tasks, hw, List.length_cons]
      omega
  | release _ => cases rest <;> simp [Phase.begin] at hphase

/-- At the beginning of a batch nothing is under way. -/
theorem blank_ofBatch (batch : Batch) (s : RunState MemoryFiles) :
    (Closing.ofBatch batch s).results.waiting = [] ∧ (Closing.ofBatch batch s).running = [] ∧
      (Closing.ofBatch batch s).analyzable = [] := by
  obtain ⟨fresh, hr⟩ := Closing.hands_dispatches batch.paths
    { state := RunState.reach batch.index .awaiting
        { s with counts := { s.counts with batches := s.counts.batches + 1 } } }
  exact ⟨congrArg Channel.waiting hr.results, hr.running, hr.analyzable⟩

/-- What the next batches can take is left over from the batches before them. -/
theorem Between.rank_le {s : RunState MemoryFiles} (h : Between l files loaded analyses rest s) :
    (Phase.begin s rest).rank (l.ceiling files) loaded.length ≤
      6 * (l.ceiling files - loaded.length) + 2 * rest.length := by
  cases rest with
  | nil => exact Nat.zero_le _
  | cons batch rest =>
    obtain ⟨hresults, hrunning, hanalyzable⟩ := blank_ofBatch batch s
    have hlength := h.begin.length_le
    simp only [Phase.begin, Phase.rank, Closing.tasks, Closing.followUps, hresults, hrunning,
      hanalyzable, List.length_nil, List.length_cons] at hlength ⊢
    omega

/-- **Every step of a run lowers its rank.** -/
theorem Sound.rank_lt {phase phase' : Phase MemoryFiles} {more : List Path}
    (h : Sound l files loaded phase) (hstep : l.Step phase more phase') :
    phase'.rank (l.ceiling files) (loaded ++ more).length <
      phase.rank (l.ceiling files) loaded.length := by
  cases hstep with
  | @start batch rest c hne =>
    obtain ⟨prior, analyses, h⟩ := h
    have hlt := h.tasks_lt (.start hne : l.Step (.closing batch rest c) _ _)
    simp only [Phase.rank]
    omega
  | @finish batch rest c index p hp =>
    obtain ⟨prior, analyses, h⟩ := h
    have hlt := h.tasks_lt (.finish hp : l.Step (.closing batch rest c) _ _)
    simp only [Phase.rank]
    omega
  | @receive batch rest c hne =>
    obtain ⟨prior, analyses, h⟩ := h
    have hlt := h.tasks_lt (.receive hne : l.Step (.closing batch rest c) _ _)
    simp only [Phase.rank]
    omega
  | @close batch rest c hdone =>
    obtain ⟨prior, analyses, h⟩ := h
    have houtstanding := h.outstanding
    simp only [Phase.rank, Closing.tasks, Closing.followUps, Analyzing.tasks, Analyzing.ofClosing,
      Channel.empty, List.append_nil, List.length_nil]
    omega
  | @inspect batch rest received a hne =>
    have hlt := tasks_lt (.inspect hne : l.Step (.analyzing batch rest received a) _ _)
    simp only [Phase.rank, List.append_nil]
    omega
  | @conclude batch rest received a index m hm =>
    have hlt := tasks_lt (.conclude hm : l.Step (.analyzing batch rest received a) _ _)
    simp only [Phase.rank, List.append_nil]
    omega
  | @count batch rest received a hne =>
    have hlt := tasks_lt (.count hne : l.Step (.analyzing batch rest received a) _ _)
    simp only [Phase.rank, List.append_nil]
    omega
  | release hdone =>
    obtain ⟨analyses, h⟩ := h
    rw [List.append_nil]
    refine lt_of_le_of_lt (h.release hdone).rank_le ?_
    simp only [Phase.rank]
    omega

/-- So an execution is no longer than the rank of its beginning. -/
theorem Sound.length_le {first phase : Phase MemoryFiles} {n : Nat} {more : List Path}
    (h : Sound l files loaded first) (hsteps : l.Steps first n more phase) :
    n + phase.rank (l.ceiling files) (loaded ++ more).length ≤
      first.rank (l.ceiling files) loaded.length := by
  induction hsteps with
  | refl => simp
  | tail hsteps hstep ih =>
    have hlt := (h.steps hsteps).rank_lt hstep
    rw [List.append_assoc] at hlt
    omega

end Linter

/-! ### The next step -/

namespace Closing

variable {l : Linter} {c : Closing MemoryFiles}

theorem empty_of_next? (h : c.next? = none) :
    c.results.waiting = [] ∧ c.running = [] ∧ c.waiting.waiting = [] := by
  unfold next? Channel.isEmpty at h
  grind

/-- The event that comes next is possible. -/
theorem exists_step_of_next? {event : Event} (h : c.next? = some event) (batch : Batch)
    (rest : List Batch) :
    ∃ more, l.Step (.closing batch rest c) more (.closing batch rest (c.step l event)) := by
  unfold next? at h
  split at h
  · rename_i hresults
    cases h
    exact ⟨_, .receive (by simpa [Channel.isEmpty] using hresults)⟩
  · split at h
    · rename_i hrunning
      cases h
      cases hc : c.running with
      | nil => simp [hc] at hrunning
      | cons p more => exact ⟨_, .finish (by rw [hc]; rfl)⟩
    · split at h
      · rename_i hwaiting
        cases h
        exact ⟨_, .start (by simpa [Channel.isEmpty] using hwaiting)⟩
      · exact absurd h (by simp)

end Closing

namespace Analyzing

variable {l : Linter} {a : Analyzing MemoryFiles}

theorem empty_of_next? (h : a.next? = none) :
    a.results.waiting = [] ∧ a.running = [] ∧ a.waiting.waiting = [] := by
  unfold next? Channel.isEmpty at h
  grind

/-- The event that comes next is possible. -/
theorem exists_step_of_next? {event : Event} (h : a.next? = some event) (batch : Batch)
    (rest : List Batch) (received : List Path) :
    ∃ more, l.Step (.analyzing batch rest received a) more
      (.analyzing batch rest received (a.step l event)) := by
  unfold next? at h
  split at h
  · rename_i hresults
    cases h
    exact ⟨_, .count (by simpa [Channel.isEmpty] using hresults)⟩
  · split at h
    · rename_i hrunning
      cases h
      cases ha : a.running with
      | nil => simp [ha] at hrunning
      | cons m more => exact ⟨_, .conclude (by rw [ha]; rfl)⟩
    · split at h
      · rename_i hwaiting
        cases h
        exact ⟨_, .inspect (by simpa [Channel.isEmpty] using hwaiting)⟩
      · exact absurd h (by simp)

end Analyzing

namespace Linter

variable {l : Linter} {files : MemoryFiles} {loaded received : List Path} {batch : Batch}
  {rest : List Batch}

/-- With nothing left to do, the batch is loaded. -/
theorem WhileClosing.outstanding_eq_zero {c : Closing MemoryFiles} {prior : List Path}
    {analyses : List Analysis} (h : WhileClosing l files loaded prior analyses rest c)
    (hnext : c.next? = none) : c.outstanding = 0 := by
  obtain ⟨hresults, hrunning, hwaiting⟩ := Closing.empty_of_next? hnext
  have hdone := h.outstanding
  rwa [hresults, hrunning, hwaiting] at hdone

/-- With nothing left to do, the batch is analyzed. -/
theorem WhileAnalyzing.pending_eq_zero {a : Analyzing MemoryFiles} {analyses : List Analysis}
    (h : WhileAnalyzing l files loaded analyses rest received a) (hnext : a.next? = none) :
    a.pending = 0 := by
  obtain ⟨hresults, hrunning, hwaiting⟩ := Analyzing.empty_of_next? hnext
  have hdone := h.pending
  rwa [hresults, hrunning, hwaiting] at hdone

/-- **Before the end there is a next step.** -/
theorem Sound.exists_step {phase : Phase MemoryFiles} (h : Sound l files loaded phase) :
    (∃ s, phase = .finished s) ∨ ∃ more phase', l.Step phase more phase' := by
  cases phase with
  | finished s => exact .inl ⟨s, rfl⟩
  | closing batch rest c =>
    refine .inr ?_
    cases hnext : c.next? with
    | none =>
      obtain ⟨prior, analyses, h⟩ := h
      exact ⟨_, _, .close (h.outstanding_eq_zero hnext)⟩
    | some event =>
      obtain ⟨more, hstep⟩ := Closing.exists_step_of_next? (l := l) hnext batch rest
      exact ⟨_, _, hstep⟩
  | analyzing batch rest received a =>
    refine .inr ?_
    cases hnext : a.next? with
    | none =>
      obtain ⟨analyses, h⟩ := h
      exact ⟨_, _, .release (h.pending_eq_zero hnext)⟩
    | some event =>
      obtain ⟨more, hstep⟩ := Analyzing.exists_step_of_next? (l := l) hnext batch rest received
      exact ⟨_, _, hstep⟩

/-! ### The run is an execution -/

/-- With fuel for its tasks, a batch is loaded to its end. -/
theorem Sound.run_closing {c : Closing MemoryFiles} {fuel : Nat}
    (h : Sound l files loaded (.closing batch rest c))
    (hfuel : c.tasks (l.ceiling files) loaded.length ≤ fuel) :
    ∃ n more, l.Steps (.closing batch rest c) n more (.closing batch rest (c.run l fuel)) ∧
      (c.run l fuel).outstanding = 0 := by
  induction fuel generalizing c loaded with
  | zero =>
    obtain ⟨prior, analyses, h⟩ := h
    have hdone := h.outstanding
    unfold Closing.tasks at hfuel
    exact ⟨0, [], .refl, by rw [Closing.run]; omega⟩
  | succ fuel ih =>
    rw [Closing.run]
    cases hnext : c.next? with
    | none =>
      obtain ⟨prior, analyses, h⟩ := h
      exact ⟨0, [], .refl, h.outstanding_eq_zero hnext⟩
    | some event =>
      obtain ⟨more, hstep⟩ := Closing.exists_step_of_next? (l := l) hnext batch rest
      have hsound := h.step hstep
      obtain ⟨prior, analyses, h⟩ := h
      have hlt := (h.tasks_lt hstep).1
      obtain ⟨n, more', hsteps, hdone⟩ := ih hsound (by omega)
      exact ⟨_, _, (Steps.refl.tail hstep).trans hsteps, hdone⟩

/-- With fuel for its tasks, a batch is analyzed to its end. -/
theorem Sound.run_analyzing {a : Analyzing MemoryFiles} {fuel : Nat}
    (h : Sound l files loaded (.analyzing batch rest received a)) (hfuel : a.tasks ≤ fuel) :
    ∃ n more, l.Steps (.analyzing batch rest received a) n more
      (.analyzing batch rest received (a.run l fuel)) ∧ (a.run l fuel).pending = 0 := by
  induction fuel generalizing a loaded with
  | zero =>
    obtain ⟨analyses, h⟩ := h
    have hdone := h.pending
    unfold Analyzing.tasks at hfuel
    exact ⟨0, [], .refl, by rw [Analyzing.run]; omega⟩
  | succ fuel ih =>
    rw [Analyzing.run]
    cases hnext : a.next? with
    | none =>
      obtain ⟨analyses, h⟩ := h
      exact ⟨0, [], .refl, h.pending_eq_zero hnext⟩
    | some event =>
      obtain ⟨more, hstep⟩ := Analyzing.exists_step_of_next? (l := l) hnext batch rest received
      have hlt := tasks_lt hstep
      obtain ⟨n, more', hsteps, hdone⟩ := ih (h.step hstep) (by omega)
      exact ⟨_, _, (Steps.refl.tail hstep).trans hsteps, hdone⟩

/-- The fuel of a batch that has begun is enough for its tasks. -/
theorem Sound.tasks_ofBatch {s : RunState MemoryFiles}
    (h : Sound l files loaded (.begin s (batch :: rest))) :
    (Closing.ofBatch batch s).tasks (l.ceiling files) loaded.length ≤
      (Closing.ofBatch batch s).bound l := by
  obtain ⟨prior, analyses, h⟩ := h
  have hlength := h.length_le
  have hceiling : l.ceiling (Closing.ofBatch batch s).state.resources.files = l.ceiling files :=
    ceiling_congr h.stored.mem
  have hbound : (Closing.ofBatch batch s).bound l =
      3 * l.ceiling (Closing.ofBatch batch s).state.resources.files + 1 := rfl
  obtain ⟨hresults, hrunning, _⟩ := blank_ofBatch batch s
  rw [hbound, hceiling]
  simp only [Closing.tasks, hresults, hrunning, List.length_nil] at hlength ⊢
  omega

/-- A batch that has begun ends as `Linter.runBatch` says. -/
theorem Sound.runBatch {s : RunState MemoryFiles}
    (h : Sound l files loaded (.begin s (batch :: rest))) :
    ∃ n more, l.Steps (.begin s (batch :: rest)) n more (.begin (l.runBatch s batch) rest) := by
  obtain ⟨n, more, hclosing, hdone⟩ := Sound.run_closing h h.tasks_ofBatch
  have hclose := hclosing.tail (.close hdone)
  have hsound := h.steps hclose
  have htasks (c : Closing MemoryFiles) :
      (Analyzing.ofClosing batch c).tasks ≤ 3 * (Analyzing.ofClosing batch c).pending :=
    Nat.le_refl _
  obtain ⟨n', more', hanalyzing, hdone'⟩ := hsound.run_analyzing (htasks _)
  exact ⟨_, _, hclose.trans (hanalyzing.tail (.release hdone'))⟩

theorem Sound.runBatches {s : RunState MemoryFiles} {batches : List Batch}
    (h : Sound l files loaded (.begin s batches)) :
    ∃ n more, l.Steps (.begin s batches) n more (.finished (batches.foldl l.runBatch s)) := by
  induction batches generalizing s loaded with
  | nil => exact ⟨0, [], .refl⟩
  | cons batch rest ih =>
    obtain ⟨n, more, hsteps⟩ := h.runBatch
    obtain ⟨n', more', hsteps'⟩ := ih (h.steps hsteps)
    exact ⟨_, _, hsteps.trans hsteps'⟩

end Linter

namespace LintSession

variable (s : LintSession)

/-- **`LintSession.run` is an execution**: it takes the first possible event each time,
and has the fuel to come to the end. -/
theorem exists_finishes {paths : List Path} (h : paths ≠ []) (r : Resources MemoryFiles) :
    ∃ loaded state, s.Finishes paths r loaded state ∧
      s.run paths r = (.ok (s.report (s.entries paths) state, state.graph), state.resources) := by
  obtain ⟨n, loaded, hsteps⟩ := (s.sound_start paths r).runBatches
  exact ⟨loaded, _, ⟨h, n, hsteps⟩, if_neg h⟩

/-- An execution of a run is no longer than its batches and its modules allow. -/
theorem steps_le {paths : List Path} {r : Resources MemoryFiles} {n : Nat} {loaded : List Path}
    {phase : Phase MemoryFiles} (h : (s.linterOf paths).Steps (s.start paths r) n loaded phase) :
    n ≤ 6 * (s.linterOf paths).ceiling r.files + 2 * (s.batches paths).length := by
  have hlength := (s.sound_start paths r).length_le h
  have hrank := (s.between_start paths r).rank_le
  rw [List.length_nil, Nat.sub_zero] at hrank
  exact le_trans (Nat.le_of_add_right_le hlength) hrank

end LintSession

end ScriptLint
