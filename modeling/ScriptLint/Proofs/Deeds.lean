/-
Runs, deed by deed.

In `Linter.Move` a task does everything at its end.  But between any two things that it does with
the pool, other tasks may do theirs; so here each of these things is a deed of its own:

* **`Linter.Deed`** — a move of the coordinator, or one thing that a task does;
* **`Linter.Deed.steps`**, **`Linter.Deed.pool_cases`** — each of them is at most one step of the
  pool;
* **`Floor.Kept`** — what they keep: the pool is sound, and every live lease is on a desk or with
  a module that waits;
* **`Linter.Advances.deeds`** — an execution move by move is one deed by deed, so
  `LintSession.run` is.
-/
import ScriptLint.Proofs.Closure
import ScriptLint.Proofs.Custody

namespace ScriptLint

open Arena

variable {σ : Type}

/-! ### Deeds -/

namespace Linter

variable [FileStore σ] (l : Linter)

/-- One move of the coordinator, or one thing that a task does; of all these, each is at most one
step of the pool.  A task that the coordinator runs is sent on by the coordinator, all others by a
worker. -/
inductive Deed (workers : Nat) : Floor σ → Floor σ → Prop where
  /-- A move that ends no task.  If it begins one, that task gets a desk. -/
  | moves {x y : Moment σ} {signal : Signal} (desks : List Desk) (h : l.Move workers x signal y)
      (hends : x.tasks ≤ y.tasks) : Deed workers ⟨x, desks⟩ ⟨y, desks ++ y.desks.drop x.tasks⟩
  /-- Nothing is read for a path of no known form. -/
  | passes {f : Floor σ} {index : Nat} {p : Path} (hp : f.moment.running[index]? = some p)
      (hdesk : f.desks[index]? = some .clear)
      (hform : l.loading.loaders.find? p.extension = none) :
      Deed workers f
        ⟨f.moment.withResources (Closing.loaded l p f.moment.state.resources).2,
          f.desks.set index (.loaded (Closing.loaded l p f.moment.state.resources).1 none)⟩
  /-- A lease begins, for a file of a known form. -/
  | borrows {f : Floor σ} {index : Nat} {p : Path} {form : FileForm}
      (hp : f.moment.running[index]? = some p) (hdesk : f.desks[index]? = some .clear)
      (hform : l.loading.loaders.find? p.extension = some form) :
      Deed workers f
        ⟨f.moment.withResources ⟨f.moment.state.resources.files, f.moment.pool.acquire.2⟩,
          f.desks.set index (.loading form f.moment.pool.acquire.1)⟩
  /-- A task writes into its arena. -/
  | writes {f : Floor σ} {index : Nat} {d : Desk} (hdesk : f.desks[index]? = some d)
      (arena : Arena) : Deed workers f ⟨f.moment, f.desks.set index (d.write arena)⟩
  /-- The file is read; reading it may break off. -/
  | reads {f : Floor σ} {index : Nat} {p : Path} {form : FileForm} {lease : Lease}
      (hp : f.moment.running[index]? = some p)
      (hdesk : f.desks[index]? = some (.loading form lease)) :
      Deed workers f
        ⟨f.moment.withResources
            ⟨(Closing.read l lease form p f.moment.state.resources.files).2, f.moment.pool⟩,
          f.desks.set index
            (.loaded (Closing.read l lease form p f.moment.state.resources.files).1.1
              (Closing.read l lease form p f.moment.state.resources.files).1.2)⟩
  /-- A module is analyzed; the analysis may break off. -/
  | studies {f : Floor σ} {index : Nat} {m : Module} {lease : Option Lease}
      (hm : f.moment.inspected[index]? = some m)
      (hdesk : f.desks[index]? = some (.studying lease)) :
      Deed workers f
        ⟨f.moment.withState (Analyzing.studied l m f.moment.state),
          f.desks.set index (.analyzed (Analyzing.analyzed l m f.moment.state).1 lease)⟩
  /-- A lease ends. -/
  | returns {f : Floor σ} {index : Nat} {d : Desk} {lease : Lease}
      (hdesk : f.desks[index]? = some d) (hleft : d.left = some lease) :
      Deed workers f
        ⟨f.moment.withResources ⟨f.moment.state.resources.files, f.moment.pool.giveBack lease⟩,
          f.desks.set index d.tidy⟩
  /-- A task that has loaded a module sends it. -/
  | sends {batch : Batch} {rest : List Batch} {control control' : Closing.Control} {c : Closing σ}
      {desks : List Desk} {index : Nat} {p : Path} {m : Module}
      (hp : c.running[index]? = some p) (hdesk : desks[index]? = some (.loaded m none))
      (hcontrol : control' = control ∧ control ≠ .helping p ∨
        control = .helping p ∧ control' = .waiting) :
      Deed workers ⟨.closing batch rest control c, desks⟩
        ⟨.closing batch rest control'
            { c with running := c.running.eraseIdx index, results := c.results.send m },
          desks.eraseIdx index⟩
  /-- A task that has analyzed a module reports it. -/
  | reports {batch : Batch} {rest : List Batch} {received : List Path}
      {control control' : Analyzing.Control} {a : Analyzing σ} {desks : List Desk} {index : Nat}
      {m : Module} {counts : AnalysisCounts}
      (hm : a.running[index]? = some m) (hdesk : desks[index]? = some (.analyzed counts none))
      (hcontrol : control' = control ∧ control ≠ .helping m ∨
        control = .helping m ∧ control' = .waiting) :
      Deed workers ⟨.analyzing batch rest received control a, desks⟩
        ⟨.analyzing batch rest received control'
            { a with running := a.running.eraseIdx index, results := a.results.send counts },
          desks.eraseIdx index⟩

/-- Some deeds. -/
def Deeds (workers : Nat) : Floor σ → Floor σ → Prop := Relation.ReflTransGen (l.Deed workers)

variable {l} {workers : Nat}

end Linter

/-! ### The pool, from deed to deed -/

/-- Ending a task keeps the counter, whatever the message is. -/
theorem Closing.Counted.send [FileStore σ] {l : Linter} {control control' : Closing.Control}
    {c : Closing σ} {index : Nat} {p : Path} (h : c.Counted control)
    (hp : c.running[index]? = some p) (m : Module)
    (hcontrol : control' = control ∧ control ≠ .helping p ∨
      control = .helping p ∧ control' = .waiting) :
    Counted control' { c with
      running := c.running.eraseIdx index, results := c.results.send m } := by
  have hfinish := h.finish (l := l) hp (hcontrol.imp_right And.right)
  rw [step_finish l hp] at hfinish
  obtain ⟨houtstanding, hhelping, hlinking⟩ := hfinish
  refine ⟨houtstanding.trans ?_, hhelping, hlinking⟩
  simp only [Channel.send, List.length_append, List.length_cons, List.length_nil]

/-- Ending an analysis keeps the counter, whatever it has counted. -/
theorem Analyzing.Counted.report [FileStore σ] {l : Linter} {control control' : Analyzing.Control}
    {a : Analyzing σ} {index : Nat} {m : Module} (h : a.Counted control)
    (hm : a.running[index]? = some m) (counts : AnalysisCounts)
    (hcontrol : control' = control ∧ control ≠ .helping m ∨
      control = .helping m ∧ control' = .waiting) :
    Counted control' { a with
      running := a.running.eraseIdx index, results := a.results.send counts } := by
  have hfinish := h.finish (l := l) hm hcontrol
  rw [step_finish l hm] at hfinish
  obtain ⟨hpending, hhelping, hreleasing⟩ := hfinish
  refine ⟨hpending.trans ?_, hhelping, hreleasing⟩
  simp only [Channel.send, List.length_append, List.length_cons, List.length_nil]

/-- What a task does with the leases on its desk is steps of the pool. -/
theorem Floor.steps_set {f : Floor σ} {index : Nat} {d d' : Desk} {s : RunState σ}
    (hdesk : f.desks[index]? = some d)
    (hsteps : Pool.Steps (f.moment.pool, d.leases ++ f.others index)
      (s.resources.pool, d'.leases ++ f.others index)) :
    Pool.Steps (f.moment.pool, f.live) ((f.moment.withState s).pool,
      Floor.live ⟨f.moment.withState s, f.desks.set index d'⟩) := by
  have hpool : (f.moment.withState s).pool = s.resources.pool := by
    rw [Moment.pool, Moment.state_withState]
  rw [hpool]
  exact .tail (.head (.carry ((live_perm hdesk).map _)) hsteps)
    (.carry ((live_set_perm hdesk s d').symm.map _))

namespace Linter.Deed

variable [FileStore σ] {l : Linter} {workers : Nat} {f g : Floor σ}

/-- **Each deed is steps of the pool.** -/
theorem steps (h : l.Deed workers f g) (hcounted : f.moment.Counted) :
    Pool.Steps (f.moment.pool, f.live) (g.moment.pool, g.live) := by
  cases h with
  | @moves x y signal desks hmove hends =>
    obtain ⟨hpool, -, hleases⟩ := hmove.handsOn hends hcounted
    rw [show y.pool = x.pool from hpool]
    refine .single (.carry (List.Perm.map _ ?_))
    show (x.leases ++ Desk.leasesOn desks).Perm
      (y.leases ++ Desk.leasesOn (desks ++ y.desks.drop x.tasks))
    rw [Desk.leasesOn_append]
    refine (hleases.append_right _).trans ?_
    rw [List.append_assoc]
    exact List.perm_append_comm.append_left _
  | @passes _ index p hp hdesk hform =>
    refine Floor.steps_set hdesk ?_
    rcases Closing.loaded_of_none hform f.moment.state.resources with
      ⟨hlease, hpool⟩ | ⟨hlease, hpool⟩
    · rw [hpool, Desk.leases_loaded, hlease]
      exact .refl
    · rw [hpool, Desk.leases_loaded, hlease]
      exact .single (.acquire ..)
  | borrows hp hdesk hform => exact Floor.steps_set hdesk (.single (.acquire ..))
  | @writes _ index d hdesk arena =>
    have hwritten : Pool.Steps (f.moment.pool, d.leases ++ f.others index)
        (f.moment.state.resources.pool, (d.write arena).leases ++ f.others index) :=
      .single (.carry (by rw [List.map_append, List.map_append, Desk.number_write]))
    have hsteps := Floor.steps_set hdesk hwritten
    rwa [Moment.withState_state] at hsteps
  | @reads _ index p form lease hp hdesk =>
    refine Floor.steps_set hdesk ?_
    rw [Desk.leases_loaded, Closing.leases_read]
    exact .refl
  | studies hm hdesk => exact Floor.steps_set hdesk .refl
  | @returns _ index d lease hdesk hleft =>
    exact Floor.steps_set hdesk
      (.head (.carry (((Desk.leases_tidy hleft).append_right _).map _)) (.single (.giveBack ..)))
  | @sends batch rest control control' c desks index p m hp hdesk hcontrol =>
    have hhand : control'.inHand = control.inHand := by
      rcases hcontrol with ⟨rfl, -⟩ | ⟨rfl, rfl⟩ <;> rfl
    refine .single (.carry (List.Perm.map _ ?_))
    refine ((Desk.leasesOn_perm hdesk).append_left _).trans ?_
    simp only [Floor.live, Moment.leases, Desk.leases, hhand, Channel.send, Module.leases_append,
      Module.leases_singleton, Option.toList_none, List.append_nil, List.append_assoc]
    exact ((List.perm_append_comm_assoc ..).append_left _).append_left _
  | @reports batch rest received control control' a desks index m counts hm hdesk hcontrol =>
    have hleft : control'.left = control.left := by
      rcases hcontrol with ⟨rfl, -⟩ | ⟨rfl, rfl⟩ <;> rfl
    refine .single (.carry (List.Perm.map _ ?_))
    refine ((Desk.leasesOn_perm hdesk).append_left _).trans ?_
    simp only [Floor.live, Moment.leases, Desk.leases, hleft, Option.toList_none, List.nil_append]
    exact .refl _

/-- **Each deed is at most one step of the pool**: it takes an arena, or ends a live lease. -/
theorem pool_cases (h : l.Deed workers f g) (hcounted : f.moment.Counted) :
    g.moment.pool = f.moment.pool ∨ g.moment.pool = f.moment.pool.acquire.2 ∨
      ∃ lease ∈ f.live, g.moment.pool = f.moment.pool.giveBack lease := by
  have hset {t : RunState σ} : (f.moment.withState t).pool = t.resources.pool := by
    rw [Moment.pool, Moment.state_withState]
  cases h with
  | moves desks hmove hends => exact .inl (hmove.handsOn hends hcounted).pool
  | passes hp hdesk hform =>
    rcases Closing.loaded_of_none hform f.moment.state.resources with ⟨-, hpool⟩ | ⟨-, hpool⟩
    · exact .inl (hset.trans hpool)
    · exact .inr (.inl (hset.trans hpool))
  | borrows => exact .inr (.inl hset)
  | reads | studies => exact .inl hset
  | returns hdesk hleft =>
    refine .inr (.inr ⟨_, (Floor.live_perm hdesk).mem_iff.mpr (List.mem_append_left _ ?_), hset⟩)
    exact (Desk.leases_tidy hleft).mem_iff.mpr List.mem_cons_self
  | writes | sends | reports => exact .inl rfl

/-- The counters stay right. -/
theorem counted (h : l.Deed workers f g) (hcounted : f.moment.Counted) : g.moment.Counted := by
  cases h with
  | moves desks hmove hends => exact hcounted.move hmove
  | sends hp hdesk hcontrol => exact Closing.Counted.send (l := l) hcounted hp _ hcontrol
  | reports hm hdesk hcontrol => exact Analyzing.Counted.report (l := l) hcounted hm _ hcontrol
  | writes => exact hcounted
  | passes | borrows | reads | studies | returns => exact hcounted.withState _

/-- Each task has a desk. -/
theorem length_desks (h : l.Deed workers f g) (hdesks : f.desks.length = f.moment.tasks) :
    g.desks.length = g.moment.tasks := by
  cases h with
  | @moves x y signal desks hmove hends =>
    have hdesks : desks.length = x.tasks := hdesks
    show (desks ++ y.desks.drop x.tasks).length = y.tasks
    rw [List.length_append, List.length_drop, y.length_desks]
    omega
  | sends hp hdesk =>
    rw [List.length_eraseIdx_of_lt (List.getElem?_eq_some_iff.mp hdesk).1]
    exact (congrArg (· - 1) hdesks).trans
      (List.length_eraseIdx_of_lt (List.getElem?_eq_some_iff.mp hp).1).symm
  | reports hm hdesk =>
    rw [List.length_eraseIdx_of_lt (List.getElem?_eq_some_iff.mp hdesk).1]
    exact (congrArg (· - 1) hdesks).trans
      (List.length_eraseIdx_of_lt (List.getElem?_eq_some_iff.mp hm).1).symm
  | writes => exact List.length_set.trans hdesks
  | passes | borrows | reads | studies | returns =>
    exact List.length_set.trans (hdesks.trans (Moment.tasks_withState ..).symm)

end Linter.Deed

/-- The pool is sound with the leases that are on desks, or with modules that wait for their
analysis. -/
structure Floor.Kept (f : Floor σ) : Prop where
  sound : f.moment.pool.Sound f.live
  counted : f.moment.Counted
  desks : f.desks.length = f.moment.tasks

namespace Floor.Kept

/-- Between two batches no lease is alive. -/
theorem live_between {rest : List Batch} {s : RunState σ} {desks : List Desk}
    (h : Kept ⟨.between rest s, desks⟩) : live ⟨.between rest s, desks⟩ = [] := by
  obtain rfl : desks = [] := List.length_eq_zero_iff.mp h.desks
  rfl

variable [FileStore σ] {l : Linter} {workers : Nat} {f g : Floor σ}

/-- **Every deed keeps that.** -/
theorem deed (h : f.Kept) (hdeed : l.Deed workers f g) : g.Kept where
  sound := h.sound.steps (hdeed.steps h.counted)
  counted := hdeed.counted h.counted
  desks := hdeed.length_desks h.desks

theorem deeds (h : f.Kept) (hdeeds : l.Deeds workers f g) : g.Kept := by
  induction hdeeds with
  | refl => exact h
  | tail _ hdeed ih => exact ih.deed hdeed

end Floor.Kept

/-! ### Executions move by move -/

namespace Linter

variable [FileStore σ] {l : Linter} {workers : Nat} {f : Floor σ} {index : Nat}

/-- A task ends the lease that it is to end, if there is one. -/
theorem deeds_returns {d : Desk} (hdesk : f.desks[index]? = some d) :
    l.Deeds workers f
      ⟨f.moment.withResources ⟨f.moment.state.resources.files, f.moment.pool.takeBack d.left⟩,
        f.desks.set index d.tidy⟩ := by
  cases hleft : d.left with
  | some lease => exact .single (.returns hdesk hleft)
  | none =>
    have hsame : f.moment.withResources ⟨f.moment.state.resources.files,
        f.moment.pool.takeBack none⟩ = f.moment := f.moment.withState_state
    have hdesks : f.desks.set index d.tidy = f.desks := by
      obtain ⟨hindex, rfl⟩ := List.getElem?_eq_some_iff.mp hdesk
      rw [Desk.tidy_of_none hleft, List.set_getElem_self]
    rw [hsame, hdesks]
    exact .refl

/-- A task loads the file of a path, with all that belongs to it. -/
theorem deeds_loaded {p : Path} (hp : f.moment.running[index]? = some p)
    (hdesk : f.desks[index]? = some .clear) :
    l.Deeds workers f
      ⟨f.moment.withResources (Closing.loaded l p f.moment.state.resources).2,
        f.desks.set index (.loaded (Closing.loaded l p f.moment.state.resources).1 none)⟩ := by
  cases hform : l.loading.loaders.find? p.extension with
  | none => exact .single (.passes hp hdesk hform)
  | some form =>
    have hindex := (List.getElem?_eq_some_iff.mp hdesk).1
    have hborrows : l.Deed workers f _ := .borrows hp hdesk hform
    have hreads : l.Deed workers
        ⟨f.moment.withResources ⟨f.moment.state.resources.files, f.moment.pool.acquire.2⟩,
          f.desks.set index (.loading form f.moment.pool.acquire.1)⟩ _ :=
      .reads (by rw [Moment.withResources, Moment.running_withState]; exact hp)
        (List.getElem?_set_self hindex)
    have hreturns := ((Relation.ReflTransGen.single hborrows).tail hreads).trans
      (deeds_returns (List.getElem?_set_self (by rw [List.length_set]; exact hindex)))
    rw [Closing.loaded_eq hform]
    unfold Deeds
    simpa [Moment.withResources, Desk.tidy, Desk.left, Moment.pool] using hreturns

/-- A task analyzes a module, with all that belongs to it. -/
theorem deeds_analyzed {m : Module} (hm : f.moment.inspected[index]? = some m)
    (hdesk : f.desks[index]? = some (.studying m.lease?)) :
    l.Deeds workers f
      ⟨f.moment.withState (Analyzing.analyzed l m f.moment.state).2,
        f.desks.set index (.analyzed (Analyzing.analyzed l m f.moment.state).1 none)⟩ := by
  have hindex := (List.getElem?_eq_some_iff.mp hdesk).1
  have hstudies : l.Deed workers f _ := .studies hm hdesk
  have hreturns := (Relation.ReflTransGen.single hstudies).trans
    (deeds_returns (List.getElem?_set_self hindex))
  rw [Analyzing.analyzed_eq]
  unfold Deeds
  simpa [Moment.withResources, Desk.tidy, Desk.left, Moment.pool] using hreturns

/-- A move that ends no task is a deed. -/
theorem Move.deed {x y : Moment σ} {signal : Signal} (h : l.Move workers x signal y)
    (hends : x.tasks ≤ y.tasks) (hcounted : x.Counted) :
    l.Deed workers ⟨x, x.desks⟩ ⟨y, y.desks⟩ := by
  have hdesks := List.prefix_iff_eq_append.mp (h.handsOn hends hcounted).desks
  rw [← hdesks, x.length_desks]
  exact .moves x.desks h hends

/-- A move that ends the loading of a file is all that its task does. -/
theorem deeds_finish_closing {batch : Batch} {rest : List Batch}
    {control control' : Closing.Control} {c : Closing σ} {p : Path}
    (hp : c.running[index]? = some p)
    (hcontrol : control' = control ∧ control ≠ .helping p ∨
      control = .helping p ∧ control' = .waiting) :
    l.Deeds workers ⟨.closing batch rest control c, (Moment.closing batch rest control c).desks⟩
      ⟨.closing batch rest control' (c.step l (.finish index)),
        (Moment.closing batch rest control' (c.step l (.finish index))).desks⟩ := by
  have hdesk : (Moment.closing batch rest control c).desks[index]? = some .clear := by
    rw [Moment.desks, List.getElem?_map, hp]
    rfl
  have hindex := (List.getElem?_eq_some_iff.mp hdesk).1
  have hloaded : l.Deeds workers ⟨.closing batch rest control c, _⟩ _ := deeds_loaded hp hdesk
  have hsends := hloaded.tail (.sends hp (List.getElem?_set_self hindex) hcontrol)
  rw [List.eraseIdx_set_eq] at hsends
  have hdesks : (Moment.closing batch rest control' (c.step l (.finish index))).desks =
      (Moment.closing batch rest control c).desks.eraseIdx index := by
    rw [Closing.step_finish l hp]
    exact (List.eraseIdx_map ..).symm
  rw [hdesks, Closing.step_finish l hp]
  exact hsends

/-- A move that ends the analysis of a module is all that its task does. -/
theorem deeds_finish_analyzing {batch : Batch} {rest : List Batch} {received : List Path}
    {control control' : Analyzing.Control} {a : Analyzing σ} {m : Module}
    (hm : a.running[index]? = some m)
    (hcontrol : control' = control ∧ control ≠ .helping m ∨
      control = .helping m ∧ control' = .waiting) :
    l.Deeds workers
      ⟨.analyzing batch rest received control a,
        (Moment.analyzing batch rest received control a).desks⟩
      ⟨.analyzing batch rest received control' (a.step l (.finish index)),
        (Moment.analyzing batch rest received control' (a.step l (.finish index))).desks⟩ := by
  have hdesk : (Moment.analyzing batch rest received control a).desks[index]? =
      some (.studying m.lease?) := by
    rw [Moment.desks, List.getElem?_map, hm]
    rfl
  have hindex := (List.getElem?_eq_some_iff.mp hdesk).1
  have hanalyzed : l.Deeds workers ⟨.analyzing batch rest received control a, _⟩ _ :=
    deeds_analyzed hm hdesk
  have hreports := hanalyzed.tail (.reports hm (List.getElem?_set_self hindex) hcontrol)
  rw [List.eraseIdx_set_eq] at hreports
  have hdesks : (Moment.analyzing batch rest received control' (a.step l (.finish index))).desks =
      (Moment.analyzing batch rest received control a).desks.eraseIdx index := by
    rw [Analyzing.step_finish l hm]
    exact (List.eraseIdx_map ..).symm
  rw [hdesks, Analyzing.step_finish l hm]
  exact hreports

/-- **Each move is some deeds.** -/
theorem Move.deeds {x y : Moment σ} {signal : Signal} (h : l.Move workers x signal y)
    (hcounted : x.Counted) : l.Deeds workers ⟨x, x.desks⟩ ⟨y, y.desks⟩ := by
  by_cases hends : x.tasks ≤ y.tasks
  · exact .single (h.deed hends hcounted)
  have hbegun {α : Type} (running : List α) (a : α) :
      running.length ≤ (running ++ [a]).length := by simp
  cases h with
  | sends hp hother => exact deeds_finish_closing hp (.inl ⟨rfl, hother⟩)
  | helped hp => exact deeds_finish_closing hp (.inr ⟨rfl, rfl⟩)
  | reports hm hother => exact deeds_finish_analyzing hm (.inl ⟨rfl, hother⟩)
  | assisted hm => exact deeds_finish_analyzing hm (.inr ⟨rfl, rfl⟩)
  -- all others end no task
  | @hands batch rest p left c =>
    obtain ⟨fresh, hdispatch⟩ := Closing.hands_dispatch c p
    exact absurd (congrArg List.length hdispatch.running).ge hends
  | @performs batch rest m act left c =>
    obtain ⟨fresh, hperform⟩ := act.hands_perform c
    exact absurd (congrArg List.length hperform.running).ge hends
  | @loads batch rest control c hne hfree =>
    obtain ⟨p, more, hp⟩ := List.exists_cons_of_ne_nil hne
    rw [Closing.step_start l hp] at hends
    exact absurd (hbegun c.running p) hends
  | helps hp =>
    rw [Closing.step_start l hp] at hends
    exact absurd (hbegun ..) hends
  | @inspects batch rest received control a hne hfree =>
    obtain ⟨m, more, hm⟩ := List.exists_cons_of_ne_nil hne
    rw [Analyzing.step_start l hm] at hends
    exact absurd (hbegun a.running m) hends
  | assists hm =>
    rw [Analyzing.step_start l hm] at hends
    exact absurd (hbegun ..) hends
  | @turns batch rest c =>
    have hcounted : c.Counted (.linking []) := hcounted
    obtain ⟨-, hrunning, -⟩ := hcounted.idle (hcounted.linking [] rfl)
    exact absurd (congrArg List.length hrunning).le hends
  | @counts batch rest received a hne =>
    obtain ⟨counts, more, hcounts⟩ := List.exists_cons_of_ne_nil hne
    rw [Analyzing.step_receive l hcounts] at hends
    exact absurd (Nat.le_refl _) hends
  | @ends batch rest received a =>
    have hpending := Analyzing.Counted.pending hcounted
    have hdone : a.pending = 0 := Analyzing.Counted.releasing hcounted [] rfl
    have hrunning : a.running.length = 0 := by omega
    exact absurd hrunning.le hends
  | _ => exact absurd (Nat.le_refl _) hends

/-- **An execution move by move is one deed by deed.** -/
theorem Advances.deeds {x y : Scene σ} (h : l.Advances workers x y) (hcounted : x.moment.Counted) :
    l.Deeds workers ⟨x.moment, x.moment.desks⟩ ⟨y.moment, y.moment.desks⟩ := by
  have hall : l.Deeds workers ⟨x.moment, x.moment.desks⟩ ⟨y.moment, y.moment.desks⟩ ∧
      y.moment.Counted := by
    refine h.induct (motive := fun _ z => l.Deeds workers ⟨x.moment, x.moment.desks⟩ ⟨z, z.desks⟩ ∧
      z.Counted) ⟨.refl, hcounted⟩ ?_
    rintro history moment signal moment' ⟨hdeeds, hcounted⟩ hmove
    exact ⟨hdeeds.trans (hmove.deeds hcounted), hcounted.move hmove⟩
  exact hall.1

end Linter

namespace LintSession

variable (s : LintSession) (paths : List Path)

/-- A run can begin with the pool of the settings. -/
theorem sound_pool : s.pool.Sound [] where
  created := rfl
  leased := rfl
  apart := .nil
  known _ h := absurd h List.not_mem_nil
  reset _ h := absurd h List.not_mem_nil

/-- A run over the given paths, before anything is done. -/
def floor (r : Resources σ) : Floor σ := ⟨(s.opening paths r).moment, []⟩

theorem kept_floor {r : Resources σ} (h : r.pool.Sound []) : (s.floor paths r).Kept where
  sound := h
  counted := trivial
  desks := rfl

/-- When a run over files in memory ends, no lease is alive. -/
theorem sound_run {r : Resources MemoryFiles} (h : r.pool.Sound []) :
    (s.run paths r).2.pool.Sound [] := by
  by_cases hpaths : paths = []
  · rw [run, if_pos hpaths]
    exact h
  obtain ⟨history, state, hadvances, hrun⟩ := s.exists_advances hpaths r 1
  have hkept := (s.kept_floor paths h).deeds (hadvances.deeds trivial)
  rw [hrun]
  exact hkept.live_between ▸ hkept.sound

/-- **Every lease comes back.**  Let no lease of a pool be alive, as when it is created.

Whatever is then done with the pool, and with leases under names, it stays sound: each arena is
lent or idle; no two live leases are of one arena, none is of an idle one; idle arenas are reset,
and so is the one that is lent next.

It does so too in a run with that pool, over any files, with any number of workers, wherever the
run can come deed by deed, each of which is at most one step of the pool; and where the run ends,
no lease is alive.  A run over files in memory ends so. -/
theorem leases_come_back [FileStore σ] (workers : Nat) {p : Pool} (hp : p.Sound []) :
    (∀ (capacity blockSize : UInt64) (q : Pool), Pool.create capacity blockSize = .ok q →
      q.Sound []) ∧
    (∀ (q : Pool) (live : List Lease), Pool.Steps (p, []) (q, live) →
      q.Sound live ∧ q.acquire.1.arena.IsReset) ∧
    (∀ ops : List Leases.Op, Pool.Steps (p, [])
      ((ops.foldl Leases.perform { pool := p }).pool,
        (ops.foldl Leases.perform { pool := p }).live)) ∧
    (∀ (files : σ) (f : Floor σ), (s.linterOf paths).Deeds workers (s.floor paths ⟨files, p⟩) f →
      (f.moment.pool.Sound f.live ∧ f.moment.pool.acquire.1.arena.IsReset) ∧
      (∀ g, (s.linterOf paths).Deed workers f g →
        g.moment.pool = f.moment.pool ∨ g.moment.pool = f.moment.pool.acquire.2 ∨
          ∃ lease ∈ f.live, g.moment.pool = f.moment.pool.giveBack lease) ∧
      ∀ state, f.moment = .between [] state → f.live = [] ∧ state.resources.pool.leased = 0) ∧
    ∀ files : MemoryFiles, (s.run paths ⟨files, p⟩).2.pool.Sound [] ∧
      (s.run paths ⟨files, p⟩).2.pool.leased = 0 := by
  refine ⟨fun _ _ _ => .ofCreate, fun q live hsteps => ?_, fun ops => ?_,
    fun files f hdeeds => ?_, fun files => ?_⟩
  · have hsound := hp.steps hsteps
    exact ⟨hsound, hsound.acquire.2⟩
  · exact (Leases.serves_performs (l := { pool := p }) List.Pairwise.nil ops).steps
  · have hkept := (s.kept_floor paths (r := ⟨files, p⟩) hp).deeds hdeeds
    refine ⟨⟨hkept.sound, hkept.sound.acquire.2⟩, fun g hdeed => hdeed.pool_cases hkept.counted,
      fun state hend => ?_⟩
    obtain ⟨moment, desks⟩ := f
    obtain rfl : moment = .between [] state := hend
    have hlive := hkept.live_between
    exact ⟨hlive, hkept.sound.leased.trans (congrArg List.length hlive)⟩
  · have hsound := s.sound_run paths (r := ⟨files, p⟩) hp
    exact ⟨hsound, hsound.leased⟩

/-- A run over two files that import each other. -/
theorem leases_come_back_cycle :
    standard.pool.Sound [] ∧
      (standard.run [⟨"/a.js"⟩] ⟨MemoryFiles.cycle, standard.pool⟩).2.pool.leased = 0 := by
  obtain ⟨-, -, -, -, hrun⟩ :=
    @leases_come_back MemoryFiles standard [⟨"/a.js"⟩] _ 1 standard.pool standard.sound_pool
  exact ⟨standard.sound_pool, (hrun MemoryFiles.cycle).2⟩

end LintSession

end ScriptLint
