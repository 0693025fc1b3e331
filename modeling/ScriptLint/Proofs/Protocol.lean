/-
The protocol between the coordinator and its workers.

Wherever a run can come, whatever order its moves have, the coordinator's counters
agree with what is under way, and every path that was handed out is on its way to
exactly one message (`ScriptLint.Proofs.Counters`).  To this come:

* **`Moment.Staged`** — the stages of each batch come in their order;
* **`Linter.Move.steady`** — no move changes the graph while it is read;
* **`Moment.Counted.exists_move`** — before the end some move is possible;
* **`Scene.Orderly`** — what all of them say together, which holds of every scene that a
  run can come to (`LintSession.advances_orderly`).
-/
import ScriptLint.Proofs.Closure
import ScriptLint.Proofs.Counters

namespace ScriptLint

variable {σ : Type}

/-! ### Stages -/

/-- All stages, in their order. -/
def Stage.all : List Stage := [.awaiting, .draining, .complete, .analyzing, .released]

/-- The stages of the batches with the given indices. -/
def Stage.ofBatches (indices : List Nat) : List (Nat × Stage) :=
  indices.flatMap fun index => all.map (index, ·)

/-- The stages of a batch that was reached so far. -/
def Closing.Control.stages : Closing.Control → List Stage
  | handing _ => [.awaiting]
  | linking _ => [.awaiting, .draining, .complete]
  | _ => [.awaiting, .draining]

namespace Moment

/-- The batches that are not over. -/
def batches : Moment σ → List Batch
  | between rest _ => rest
  | closing batch rest _ _ => batch :: rest
  | analyzing batch rest _ _ _ => batch :: rest

/-- The stages that the batch has reached. -/
def reached : Moment σ → List (Nat × Stage)
  | between _ _ => []
  | closing batch _ control _ => control.stages.map (batch.index, ·)
  | analyzing batch _ _ _ _ =>
    [Stage.awaiting, .draining, .complete, .analyzing].map (batch.index, ·)

/-- The batches that are over have come through all stages, one batch after the other, and
the next batch through those that it has reached. -/
def Staged (batches : List Batch) (x : Moment σ) : Prop :=
  ∃ done, batches = done ++ x.batches ∧
    x.state.stages = Stage.ofBatches (done.map Batch.index) ++ x.reached

namespace Staged

variable {batches : List Batch} {x y : Moment σ}

theorem congr (h : x.Staged batches) (hbatches : y.batches = x.batches)
    (hstages : y.state.stages = x.state.stages) (hreached : y.reached = x.reached) :
    y.Staged batches := by
  obtain ⟨done, hdone, heq⟩ := h
  exact ⟨done, by rw [hdone, hbatches], by rw [hstages, heq, hreached]⟩

/-- A batch reaches its next stage. -/
theorem reach (h : x.Staged batches) {e : Nat × Stage} (hbatches : y.batches = x.batches)
    (hstages : y.state.stages = x.state.stages ++ [e]) (hreached : y.reached = x.reached ++ [e]) :
    y.Staged batches := by
  obtain ⟨done, hdone, heq⟩ := h
  exact ⟨done, by rw [hdone, hbatches], by rw [hstages, heq, hreached, List.append_assoc]⟩

/-- The stages are the first ones of those that the batches come through. -/
theorem isPrefix (h : x.Staged batches) :
    x.state.stages <+: Stage.ofBatches (batches.map Batch.index) := by
  obtain ⟨done, hdone, heq⟩ := h
  have hreached : x.reached <+: Stage.ofBatches (x.batches.map Batch.index) := by
    have hfirst (index : Nat) (rest : List Nat) {stages : List Stage} (h : stages <+: Stage.all) :
        stages.map (index, ·) <+: Stage.ofBatches (index :: rest) := by
      rw [Stage.ofBatches, List.flatMap_cons]
      exact (h.map _).trans (List.prefix_append _ _)
    cases x with
    | between rest s => exact List.nil_prefix
    | closing batch rest control c =>
      refine hfirst batch.index _ ?_
      cases control <;> exact ⟨_, rfl⟩
    | analyzing batch rest received control a => exact hfirst batch.index _ (by decide)
  rw [heq, hdone, List.map_append, Stage.ofBatches, Stage.ofBatches, List.flatMap_append]
  exact (List.prefix_append_right_inj _).mpr hreached

end Staged

end Moment

/-- **Every move keeps the order of stages.** -/
theorem Moment.Staged.move [FileStore σ] {l : Linter} {workers : Nat} {x y : Moment σ}
    {signal : Signal} {batches : List Batch} (h : x.Staged batches)
    (hmove : l.Move workers x signal y) : y.Staged batches := by
  cases hmove with
  | opens => exact h.reach rfl rfl rfl
  | @hands batch rest p left c =>
    obtain ⟨fresh, hhands⟩ := Closing.hands_dispatch c p
    exact h.congr rfl hhands.stages rfl
  | drains => exact h.reach rfl rfl rfl
  | @loads batch rest control c hne hfree =>
    obtain ⟨p, more, hp⟩ := List.exists_cons_of_ne_nil hne
    rw [Closing.step_start l hp]
    exact h.congr rfl rfl rfl
  | sends hp hother =>
    rw [Closing.step_finish l hp]
    exact h.congr rfl rfl rfl
  | helps hp =>
    rw [Closing.step_start l hp]
    exact h.congr rfl rfl rfl
  | helped hp =>
    rw [Closing.step_finish l hp]
    exact h.congr rfl rfl rfl
  | @performs batch rest m act left c =>
    obtain ⟨fresh, hhands⟩ := act.hands_perform c
    exact h.congr rfl hhands.stages rfl
  | closes hdone => exact h.reach rfl rfl rfl
  | turns => exact h.reach rfl rfl rfl
  | @inspects batch rest received control a hne hfree =>
    obtain ⟨m, more, hm⟩ := List.exists_cons_of_ne_nil hne
    rw [Analyzing.step_start l hm]
    exact h.congr rfl rfl rfl
  | reports hm hother =>
    rw [Analyzing.step_finish l hm]
    exact h.congr rfl rfl rfl
  | assists hm =>
    rw [Analyzing.step_start l hm]
    exact h.congr rfl rfl rfl
  | assisted hm =>
    rw [Analyzing.step_finish l hm]
    exact h.congr rfl rfl rfl
  | @counts batch rest received a hne =>
    obtain ⟨counts, more, hcounts⟩ := List.exists_cons_of_ne_nil hne
    rw [Analyzing.step_receive l hcounts]
    exact h.congr rfl rfl rfl
  | @ends batch rest received a =>
    -- the batch is over, with all of its stages
    obtain ⟨done, hdone, heq⟩ := h
    refine ⟨done ++ [batch], by rw [hdone, List.append_assoc]; rfl, ?_⟩
    show a.state.stages ++ [(batch.index, .released)] = _ ++ []
    have heq : a.state.stages = _ ++ _ := heq
    rw [heq, List.map_append, Stage.ofBatches, Stage.ofBatches, List.flatMap_append,
      List.append_assoc, List.append_nil]
    rfl
  -- other moves enter no stage
  | takes | settles | links | posts | posted | counted | releases => exact h.congr rfl rfl rfl

/-! ### The graph while it is read -/

/-- The graph is read by analyses, and the coordinator leaves it alone. -/
def Moment.Reading : Moment σ → Prop
  | .analyzing _ _ _ (.releasing _) _ => False
  | .analyzing _ _ _ _ _ => True
  | _ => False

/-- **No move changes the graph while it is read**, not even the one with which the
reading begins. -/
theorem Linter.Move.steady [FileStore σ] {l : Linter} {workers : Nat} {x y : Moment σ}
    {signal : Signal} (hmove : l.Move workers x signal y) (hreading : y.Reading) :
    y.state.graph = x.state.graph := by
  cases hmove with
  | @inspects batch rest received control a hne hfree =>
    obtain ⟨m, more, hm⟩ := List.exists_cons_of_ne_nil hne
    rw [Analyzing.step_start l hm]
    rfl
  | reports hm hother => rw [Analyzing.step_finish l hm]; rfl
  | assists hm => rw [Analyzing.step_start l hm]; rfl
  | assisted hm => rw [Analyzing.step_finish l hm]; rfl
  | @counts batch rest received a hne =>
    obtain ⟨counts, more, hcounts⟩ := List.exists_cons_of_ne_nil hne
    rw [Analyzing.step_receive l hcounts]
    rfl
  | turns | posts | posted => rfl
  | _ => exact absurd hreading id

/-! ### The next move -/

/-- **Before the end some move is possible**, even without any worker. -/
theorem Moment.Counted.exists_move [FileStore σ] (l : Linter) (workers : Nat) {x : Moment σ}
    (h : x.Counted) : (∃ s, x = .between [] s) ∨ ∃ signal y, l.Move workers x signal y := by
  cases x with
  | between rest s =>
    cases rest with
    | nil => exact .inl ⟨s, rfl⟩
    | cons batch rest => exact .inr ⟨_, _, .opens⟩
  | closing batch rest control c =>
    have h : c.Counted control := h
    right
    cases control with
    | handing left =>
      cases left with
      | nil => exact ⟨_, _, .drains⟩
      | cons p left => exact ⟨_, _, .hands⟩
    | helping p =>
      obtain ⟨index, hp⟩ := List.getElem?_of_mem (h.helping p rfl)
      exact ⟨_, _, .helped hp⟩
    | taking m left =>
      cases left with
      | nil => exact ⟨_, _, .settles⟩
      | cons act left => exact ⟨_, _, .performs⟩
    | linking left =>
      cases left with
      | nil => exact ⟨_, _, .turns⟩
      | cons p left => exact ⟨_, _, .links⟩
    | waiting =>
      -- a message to take, else a task to help with, else a worker that is about to send
      cases hresults : c.results.waiting with
      | cons m more => exact ⟨_, _, .takes hresults⟩
      | nil =>
        cases hwaiting : c.waiting.waiting with
        | cons p more => exact ⟨_, _, .helps hwaiting⟩
        | nil =>
          cases hrunning : c.running with
          | cons p more =>
            have hp : c.running[0]? = some p := by rw [hrunning]; rfl
            exact ⟨_, _, .sends hp (by simp)⟩
          | nil => exact ⟨_, _, .closes (by rw [h.outstanding, hresults, hwaiting, hrunning]; rfl)⟩
  | analyzing batch rest received control a =>
    have h : a.Counted control := h
    right
    cases control with
    | posting left =>
      cases left with
      | nil => exact ⟨_, _, .posted⟩
      | cons m left => exact ⟨_, _, .posts⟩
    | helping m =>
      obtain ⟨index, hm⟩ := List.getElem?_of_mem (h.helping m rfl)
      exact ⟨_, _, .assisted hm⟩
    | releasing left =>
      cases left with
      | nil => exact ⟨_, _, .ends⟩
      | cons p left => exact ⟨_, _, .releases⟩
    | waiting =>
      cases hresults : a.results.waiting with
      | cons counts more => exact ⟨_, _, .counts (by simp [hresults])⟩
      | nil =>
        cases hwaiting : a.waiting.waiting with
        | cons m more => exact ⟨_, _, .assists hwaiting⟩
        | nil =>
          cases hrunning : a.running with
          | cons m more =>
            have hm : a.running[0]? = some m := by rw [hrunning]; rfl
            exact ⟨_, _, .reports hm (by simp)⟩
          | nil => exact ⟨_, _, .counted (by rw [h.pending, hresults, hwaiting, hrunning]; rfl)⟩

/-! ### The whole protocol -/

namespace Moment

/-- The coordinator's count of what is being loaded. -/
def outstanding : Moment σ → Nat
  | closing _ _ _ c => c.outstanding
  | _ => 0

/-- The coordinator's count of what is being analyzed. -/
def pending : Moment σ → Nat
  | analyzing _ _ _ _ a => a.pending
  | _ => 0

/-- The number of analyses that were not counted: those that are to be posted, that wait,
that run and whose results wait. -/
def uncounted : Moment σ → Nat
  | analyzing _ _ _ control a =>
    control.left.length + a.waiting.waiting.length + a.running.length + a.results.waiting.length
  | _ => 0

end Moment

/-- What holds wherever a run with the given number of batches can come. -/
structure Scene.Orderly [FileStore σ] (l : Linter) (workers batches : Nat) (x : Scene σ) :
    Prop where
  /-- The counter of loading is exact, so that it is positive when a message is taken. -/
  outstanding : x.moment.outstanding =
    x.moment.waiting.length + x.moment.running.length + x.moment.results.length
  /-- For a path that was handed out there is one message or one task, for others none. -/
  once : ∀ p : Path, (x.history.sent.map fun m => m.path.key).count p.key +
      ((x.moment.running ++ x.moment.waiting).map Path.key).count p.key =
    if x.moment.state.graph.isDispatched p then 1 else 0
  /-- Loading that breaks off answers too. -/
  answered : ∀ m ∈ x.history.sent, l.Answers σ m
  /-- No message is lost, and none is received twice. -/
  delivered : x.history.sent = x.history.received ++ x.moment.inHand ++ x.moment.results
  /-- The contents that are kept were received and are not analyzed yet. -/
  retained : x.moment.state.counts.retained + x.history.completed =
    x.history.received.countP fun m => m.content.isSome
  /-- The counter of analyses is exact. -/
  pending : x.moment.pending = x.moment.uncounted
  /-- The stages come in order, batch after batch. -/
  stages : x.moment.state.stages <+: Stage.ofBatches (List.range batches)
  /-- A batch is complete when there is no task and no message. -/
  complete : ∀ index, x.moment.state.stages.getLast? = some (index, .complete) →
    x.moment.waiting = [] ∧ x.moment.running = [] ∧ x.moment.results = [] ∧ x.moment.inHand = []
  /-- A batch is released when no content is kept. -/
  released : ∀ index, x.moment.state.stages.getLast? = some (index, .released) →
    x.moment.state.counts.retained = 0
  /-- While analyses are pending, the graph is read. -/
  reading : x.moment.pending ≠ 0 → x.moment.Reading
  /-- From the last link to the last analysis the graph stays the same. -/
  steady : ∀ y, Relation.ReflTransGen (fun a b => l.Advance workers a b ∧ b.moment.Reading) x y →
    y.moment.state.graph = x.moment.state.graph
  /-- Before the end some move is possible. -/
  progress : (∃ s, x.moment = .between [] s) ∨ ∃ y, l.Advance workers x y
  /-- At the end all batches have come through all stages. -/
  ended : ∀ s, x.moment = .between [] s → s.stages = Stage.ofBatches (List.range batches)

/-- The batches are numbered from zero. -/
theorem index_schedule (paths : PathSet) (concurrency multiplier : UInt64) (ordering : BatchOrder) :
    (schedule paths concurrency multiplier ordering).map Batch.index =
      List.range (schedule paths concurrency multiplier ordering).length := by
  unfold schedule
  rw [List.map_map, List.length_map, List.length_zipIdx, List.range_eq_range',
    ← List.zipIdx_map_snd 0]
  rfl

/-- The size of a batch is the product of its factors, as far as a word holds it. -/
theorem Schedule.toNat_batchSize (concurrency multiplier : UInt64) :
    (batchSize concurrency multiplier).toNat =
      max 1 concurrency.toNat * max 1 multiplier.toNat % 2 ^ 64 := by
  have hfactor (n : UInt64) : (if n = 0 then 1 else n).toNat = max 1 n.toNat := by
    split
    · rename_i h
      rw [h]
      rfl
    · rename_i h
      have hpos : n.toNat ≠ 0 := fun hzero => h (UInt64.toNat_inj.mp hzero)
      omega
  rw [batchSize, UInt64.toNat_mul, hfactor, hfactor]

namespace Moment

variable {x : Moment σ} {history : History} {batches : List Batch}

/-- A batch that is complete, and no more than that, is being linked. -/
theorem Staged.idle (h : x.Staged batches) (hcounted : x.Counted) {index : Nat}
    (hlast : x.state.stages.getLast? = some (index, .complete)) :
    x.waiting = [] ∧ x.running = [] ∧ x.results = [] ∧ x.inHand = [] := by
  obtain ⟨done, hdone, heq⟩ := h
  rw [heq] at hlast
  cases x with
  | between rest s => exact ⟨rfl, rfl, rfl, rfl⟩
  | analyzing batch rest received control a => exact ⟨rfl, rfl, rfl, rfl⟩
  | closing batch rest control c =>
    have hcounted : c.Counted control := hcounted
    cases control with
    | linking left =>
      obtain ⟨hwaiting, hrunning, hresults⟩ := hcounted.idle (hcounted.linking left rfl)
      exact ⟨hwaiting, hrunning, hresults, rfl⟩
    | _ => simp [reached, Closing.Control.stages] at hlast

/-- A batch that is released keeps no content. -/
theorem Staged.empty (h : x.Staged batches) (hretains : x.Retains history) {index : Nat}
    (hlast : x.state.stages.getLast? = some (index, .released)) :
    x.state.counts.retained = 0 := by
  obtain ⟨done, hdone, heq⟩ := h
  rw [heq] at hlast
  cases x with
  | between rest s => exact hretains.retained
  | closing batch rest control c => cases control <;> simp [reached, Closing.Control.stages] at hlast
  | analyzing batch rest received control a => simp [reached] at hlast

/-- At the end all batches have come through all stages. -/
theorem Staged.ended (h : x.Staged batches) {s : RunState σ} (hend : x = .between [] s) :
    s.stages = Stage.ofBatches (batches.map Batch.index) := by
  subst hend
  obtain ⟨done, hdone, heq⟩ := h
  have hdone : batches = done := hdone.trans (List.append_nil done)
  rw [hdone]
  exact heq.trans (List.append_nil _)

/-- For a path that was handed out there is one message or one task. -/
theorem Delivers.count_eq (h : x.Delivers history) (p : Path) :
    (history.sent.map fun m => m.path.key).count p.key +
        ((x.running ++ x.waiting).map Path.key).count p.key =
      if x.state.graph.isDispatched p then 1 else 0 := by
  have hcount := h.dispatches.nodup.count (a := p.key)
  rw [List.append_assoc, List.map_append, List.count_append, List.map_map] at hcount
  refine hcount.trans ?_
  rw [← List.map_map, ← List.map_append, ← List.append_assoc]
  exact if_congr ((h.dispatches.mem p.key).symm.trans Std.TreeSet.contains_iff_mem.symm) rfl rfl

/-- The coordinator counts what is being loaded. -/
theorem Counted.outstanding_eq (h : x.Counted) :
    x.outstanding = x.waiting.length + x.running.length + x.results.length := by
  cases x with
  | closing batch rest control c => exact Closing.Counted.outstanding h
  | _ => rfl

/-- The coordinator counts what is being analyzed. -/
theorem Counted.pending_eq (h : x.Counted) : x.pending = x.uncounted := by
  cases x with
  | analyzing batch rest received control a => exact Analyzing.Counted.pending h
  | _ => rfl

/-- While something is pending, the coordinator is not releasing. -/
theorem Counted.reading (h : x.Counted) (hpending : x.pending ≠ 0) : x.Reading := by
  cases x with
  | between rest s => exact absurd rfl hpending
  | closing batch rest control c => exact absurd rfl hpending
  | analyzing batch rest received control a =>
    have h : a.Counted control := h
    cases control with
    | releasing left => exact absurd (h.releasing left rfl) hpending
    | _ => trivial

end Moment

/-- **Every run is orderly**, with any number of workers and in whatever order the moves of
the workers and the coordinator come. -/
theorem LintSession.advances_orderly [FileStore σ] (s : LintSession) {paths : List Path}
    {r : Resources σ} {workers : Nat} {x : Scene σ}
    (h : (s.linterOf paths).Advances workers (s.opening paths r) x) :
    x.Orderly (s.linterOf paths) workers (s.batches paths).length := by
  obtain ⟨hcounted, hdelivers, hanswers, hretains⟩ := s.accounted h
  have hstaged : x.moment.Staged (s.batches paths) :=
    h.induct (motive := fun _ moment => moment.Staged (s.batches paths)) ⟨[], rfl, rfl⟩
      fun _ _ _ _ hstaged hmove => hstaged.move hmove
  have hstages := hstaged.isPrefix
  have hindices : (s.batches paths).map Batch.index = List.range (s.batches paths).length :=
    index_schedule _ _ _ _
  rw [hindices] at hstages
  refine
    { outstanding := hcounted.outstanding_eq
      once := hdelivers.count_eq
      answered := hanswers
      delivered := hdelivers.delivered
      retained := ?_
      pending := hcounted.pending_eq
      stages := hstages
      complete := fun index hlast => hstaged.idle hcounted hlast
      released := fun index hlast => hstaged.empty hretains hlast
      reading := hcounted.reading
      steady := fun y hsteady => ?_
      progress := ?_
      ended := fun state hend => ?_ }
  · rw [hretains.retained, hretains.balance, Nat.add_comm]
  · -- move by move, as long as the graph is read
    induction hsteady with
    | refl => rfl
    | tail _ hstep ih =>
      obtain ⟨⟨signal, hmove, _⟩, hreading⟩ := hstep
      exact (hmove.steady hreading).trans ih
  · refine (hcounted.exists_move (s.linterOf paths) workers).imp id ?_
    rintro ⟨signal, moment, hmove⟩
    exact ⟨⟨x.history.after signal, moment⟩, signal, hmove, rfl⟩
  · rw [← hindices]
    exact hstaged.ended hend

/-- A file whose reading breaks off. -/
def MemoryFiles.breaking : MemoryFiles :=
  (MemoryFiles.empty.add ⟨"/a.js"⟩ "").plan ⟨"/a.js"⟩ { breakRead := some "out of memory" }

/-- A worker whose reading breaks off sends one message, which says so. -/
theorem LintSession.advances_orderly_breaking : ∃ x : Scene MemoryFiles,
    (standard.linterOf [⟨"/a.js"⟩]).Advances 1
      (standard.opening [⟨"/a.js"⟩] ⟨MemoryFiles.breaking, standard.pool⟩) x ∧
    x.history.sent.map (fun m => m.diagnostics.map Diagnostic.message) =
      [[("Processing failed: out of memory" : Bytes)]] ∧
    x.moment.outstanding = 1 ∧ x.Orderly (standard.linterOf [⟨"/a.js"⟩]) 1 1 := by
  have hbatches : standard.batches [⟨"/a.js"⟩] = [⟨0, [⟨"/a.js"⟩]⟩] := by decide +kernel
  have hopening : standard.opening [⟨"/a.js"⟩] ⟨MemoryFiles.breaking, standard.pool⟩ =
      ⟨{}, .between [⟨0, [⟨"/a.js"⟩]⟩] { resources := ⟨MemoryFiles.breaking, standard.pool⟩ }⟩ := by
    rw [opening, hbatches]
  have hstart : (standard.linterOf [⟨"/a.js"⟩]).Advances 1
      (standard.opening [⟨"/a.js"⟩] ⟨MemoryFiles.breaking, standard.pool⟩)
      ⟨{}, .between [⟨0, [⟨"/a.js"⟩]⟩] { resources := ⟨MemoryFiles.breaking, standard.pool⟩ }⟩ := by
    rw [hopening]
    exact .refl
  -- the path of the batch is handed out, and a worker takes the task and ends it
  have hhanded := ((hstart.tail .opens).tail .hands).tail .drains
  have htaken := hhanded.tail (.loads (by decide) (by decide))
  have hsent := htaken.tail
    (@Linter.Move.sends _ _ _ _ _ _ _ _ 0 ⟨"/a.js"⟩ (by decide) (by simp))
  have horderly := advances_orderly standard hsent
  rw [hbatches] at horderly
  exact ⟨_, hsent, by decide, by decide, horderly⟩

end ScriptLint
