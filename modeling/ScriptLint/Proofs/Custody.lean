/-
Who holds the leases in a run.

A task that loads a file begins a lease, reads the file into its arena, and either ends the lease
or leaves it with the content of the module; the task that analyzes the module ends it.  In
between, a lease lies on the desk of a task, or with a module that waits:

* **`Closing.loaded_eq`** — loading a file is to begin a lease, to read, and to end the lease
  unless it is left with the content;
* **`Analyzing.analyzed_eq`** — analyzing a module is to study it, and to end its lease;
* **`Floor`** — where a run is, with what lies on the desks of the tasks that run;
* **`Linter.Move.handsOn`** — a move that ends no task only hands leases on.
-/
import ScriptLint.Proofs.Counters
import ScriptLint.Proofs.Leasing

namespace ScriptLint

open Arena

variable {σ : Type}

/-- The pool after a lease has ended, if there is one. -/
def Arena.Pool.takeBack (p : Pool) : Option Lease → Pool
  | none => p
  | some lease => p.giveBack lease

/-- The lease that a module keeps with its content. -/
def Module.lease? (m : Module) : Option Lease := m.content.map Module.Content.lease

/-! ### Loading, with the lease in hand -/

namespace LoadSettings

variable (s : LoadSettings)

/-- Leaves the lease with the content of a module, if it is kept; otherwise it is to be ended. -/
def leave (m : Module) (text : Bytes) (lease : Lease) : Module × Option Lease :=
  if s.keeps m.entry then ({ m with content := some ⟨lease, text⟩ }, none)
  else (m, some lease)

/-- The lease is either with the content or to be ended. -/
theorem leases_leave {m : Module} (hm : m.content = none) (text : Bytes) (lease : Lease) :
    (s.leave m text lease).1.lease?.toList ++ (s.leave m text lease).2.toList = [lease] := by
  unfold leave
  split
  · rfl
  · rw [Module.lease?, hm]
    rfl

theorem settle_eq (m : Module) (text : Bytes) (lease : Lease) (r : Resources σ) :
    s.settle m text lease r =
      ((s.leave m text lease).1, ⟨r.files, r.pool.takeBack (s.leave m text lease).2⟩) := by
  unfold settle leave
  split <;> rfl

end LoadSettings

namespace Closing

variable [FileStore σ] (l : Linter)

/-- What a task sends that has a lease for its file, which has a known form.  If the lease is not
left with the content, it is to be ended before. -/
def read (lease : Lease) (form : FileForm) (p : Path) (files : σ) :
    (Module × Option Lease) × σ :=
  let entry := l.entries.contains p
  let (outcome, files) := FileStore.read p files
  match outcome with
  | .error (.brokenOff reason) => ((brokenModule p entry (.brokenOff reason), some lease), files)
  | .error (.failed e) =>
    (l.loading.leave (LoadSettings.ofUnreadable p entry e) [] lease, files)
  | .ok text =>
    (l.loading.leave (l.loading.ofText files p entry form text) text lease, files)

variable {l} {p : Path}

/-- **Loading a file** is to begin a lease, to read the file, and to end the lease unless it is
left with the content. -/
theorem loaded_eq {form : FileForm}
    (hform : l.loading.loaders.find? p.extension = some form) (r : Resources σ) :
    loaded l p r = ((read l r.pool.acquire.1 form p r.files).1.1,
      ⟨(read l r.pool.acquire.1 form p r.files).2,
        r.pool.acquire.2.takeBack (read l r.pool.acquire.1 form p r.files).1.2⟩) := by
  unfold loaded LoadSettings.load read
  rw [hform]
  dsimp only
  generalize FileStore.read p r.files = answer
  obtain ⟨outcome, files⟩ := answer
  rcases outcome with (e | reason) | text
  · simp only [LoadSettings.settle_eq]
  · rfl
  · simp only [LoadSettings.settle_eq]

/-- Whatever comes of reading, the lease is with the content or to be ended. -/
theorem leases_read (lease : Lease) (form : FileForm) (files : σ) :
    (read l lease form p files).1.1.lease?.toList ++ (read l lease form p files).1.2.toList =
      [lease] := by
  unfold read
  dsimp only
  generalize FileStore.read p files = answer
  obtain ⟨outcome, files⟩ := answer
  rcases outcome with (e | reason) | text
  · exact LoadSettings.leases_leave _ rfl _ _
  · rfl
  · exact LoadSettings.leases_leave _ (LoadSettings.content_ofText ..) _ _

/-- Without a known form nothing is read; an entry has the lease of an arena all the same. -/
theorem loaded_of_none (hform : l.loading.loaders.find? p.extension = none) (r : Resources σ) :
    ((loaded l p r).1.lease? = none ∧ (loaded l p r).2.pool = r.pool) ∨
      ((loaded l p r).1.lease? = some r.pool.acquire.1 ∧
        (loaded l p r).2.pool = r.pool.acquire.2) := by
  unfold loaded LoadSettings.load
  rw [hform]
  dsimp only
  by_cases hkeeps : l.loading.keeps (l.entries.contains p)
  · rw [if_pos hkeeps]
    exact .inr ⟨rfl, rfl⟩
  · rw [if_neg hkeeps]
    exact .inl ⟨rfl, rfl⟩

end Closing

/-- The run after a module was analyzed, with its lease still to be ended. -/
def Analyzing.studied [FileStore σ] (l : Linter) (m : Module) (s : RunState σ) : RunState σ :=
  { (analyzed l m s).2 with
    resources := ⟨(analyzed l m s).2.resources.files, s.resources.pool⟩ }

/-- **Analyzing a module** is to study it, and then to end its lease. -/
theorem Analyzing.analyzed_eq [FileStore σ] (l : Linter) (m : Module) (s : RunState σ) :
    (analyzed l m s).2 = { studied l m s with
      resources := ⟨(studied l m s).resources.files,
        (studied l m s).resources.pool.takeBack m.lease?⟩ } := by
  unfold studied Module.lease?
  cases hcontent : m.content <;> simp only [analyzed, hcontent] <;> rfl

/-! ### Desks -/

/-- What a task has got so far: nothing; the lease of an arena into which it loads a file of some
form; the lease of the module that it analyzes; or its message, and then perhaps a lease that it
is to end before it sends that. -/
inductive Desk where
  | clear
  | loading (form : FileForm) (lease : Lease)
  | studying (lease : Option Lease)
  | loaded (m : Module) (left : Option Lease)
  | analyzed (counts : AnalysisCounts) (left : Option Lease)

namespace Desk

/-- The leases on a desk. -/
def leases : Desk → List Lease
  | clear => []
  | loading _ lease => [lease]
  | studying lease => lease.toList
  | loaded m left => m.lease?.toList ++ left.toList
  | analyzed _ left => left.toList

theorem leases_loaded (m : Module) (left : Option Lease) :
    (loaded m left).leases = m.lease?.toList ++ left.toList := rfl

/-- The lease that the task is to end before it sends its message. -/
def left : Desk → Option Lease
  | loaded _ left | analyzed _ left => left
  | _ => none

/-- The desk without the lease that was to be ended. -/
def tidy : Desk → Desk
  | loaded m _ => loaded m none
  | analyzed counts _ => analyzed counts none
  | d => d

/-- The desk after something was written into the arena with which the task works. -/
def write (arena : Arena) : Desk → Desk
  | loading form lease => loading form { lease with arena }
  | studying lease => studying (lease.map ({ · with arena }))
  | d => d

theorem number_write (arena : Arena) (d : Desk) :
    (d.write arena).leases.map Lease.number = d.leases.map Lease.number := by
  rcases d with _ | _ | (_ | _) | _ | _ <;> rfl

theorem tidy_of_none {d : Desk} (h : d.left = none) : d.tidy = d := by
  cases d with
  | clear | loading | studying => rfl
  | loaded | analyzed => obtain rfl := h; rfl

theorem leases_tidy {d : Desk} {lease : Lease} (h : d.left = some lease) :
    d.leases.Perm (lease :: d.tidy.leases) := by
  cases d with
  | clear | loading | studying => cases h
  | loaded m left =>
    obtain rfl : left = some lease := h
    rw [leases, tidy, leases, Option.toList_some, Option.toList_none, List.append_nil]
    exact List.perm_append_singleton ..
  | analyzed counts left =>
    obtain rfl : left = some lease := h
    exact .refl _

/-- The leases on desks. -/
def leasesOn (desks : List Desk) : List Lease := desks.flatMap leases

variable {desks : List Desk} {index : Nat} {d : Desk}

/-- The leases on a desk, and on the others. -/
theorem leasesOn_perm (h : desks[index]? = some d) :
    (leasesOn desks).Perm (d.leases ++ leasesOn (desks.eraseIdx index)) := by
  obtain ⟨hindex, rfl⟩ := List.getElem?_eq_some_iff.mp h
  exact (List.getElem_cons_eraseIdx_perm hindex).symm.flatMap_right leases

theorem leasesOn_append (desks more : List Desk) :
    leasesOn (desks ++ more) = leasesOn desks ++ leasesOn more := List.flatMap_append

/-- The leases after something else has been put on a desk. -/
theorem leasesOn_set_perm (h : desks[index]? = some d) (d' : Desk) :
    (leasesOn (desks.set index d')).Perm (d'.leases ++ leasesOn (desks.eraseIdx index)) :=
  (List.set_perm_cons_eraseIdx (List.getElem?_eq_some_iff.mp h).1 d').flatMap_right leases

end Desk

/-! ### Moments and floors -/

/-- The leases of modules. -/
def Module.leases (modules : List Module) : List Lease := modules.flatMap fun m => m.lease?.toList

namespace Moment

/-- The number of tasks that run. -/
def tasks : Moment σ → Nat
  | between _ _ => 0
  | closing _ _ _ c => c.running.length
  | analyzing _ _ _ _ a => a.running.length

/-- The modules that are being analyzed. -/
def inspected : Moment σ → List Module
  | analyzing _ _ _ _ a => a.running
  | _ => []

/-- The leases of the modules that were loaded, and that nobody has begun to analyze. -/
def leases : Moment σ → List Lease
  | between _ _ => []
  | closing _ _ control c =>
    Module.leases (control.inHand ++ c.results.waiting ++ c.analyzable)
  | analyzing _ _ _ control a => Module.leases (control.left ++ a.waiting.waiting)

/-- The desks of the tasks, when none of them has done anything. -/
def desks : Moment σ → List Desk
  | between _ _ => []
  | closing _ _ _ c => c.running.map fun _ => .clear
  | analyzing _ _ _ _ a => a.running.map fun m => .studying m.lease?

/-- The moment with another state of the run. -/
def withState (x : Moment σ) (s : RunState σ) : Moment σ :=
  match x with
  | between rest _ => between rest s
  | closing batch rest control c => closing batch rest control { c with state := s }
  | analyzing batch rest received control a =>
    analyzing batch rest received control { a with state := s }

/-- The moment with other files and another pool. -/
def withResources (x : Moment σ) (r : Resources σ) : Moment σ :=
  x.withState { x.state with resources := r }

/-- The pool of the run. -/
def pool (x : Moment σ) : Pool := x.state.resources.pool

variable (x : Moment σ) (s : RunState σ)

@[simp] theorem withState_state : x.withState x.state = x := by cases x <;> rfl

@[simp] theorem state_withState : (x.withState s).state = s := by cases x <;> rfl

@[simp] theorem leases_withState : (x.withState s).leases = x.leases := by cases x <;> rfl

@[simp] theorem tasks_withState : (x.withState s).tasks = x.tasks := by cases x <;> rfl

@[simp] theorem running_withState : (x.withState s).running = x.running := by cases x <;> rfl

@[simp] theorem inspected_withState : (x.withState s).inspected = x.inspected := by
  cases x <;> rfl

@[simp] theorem withState_withState (s' : RunState σ) :
    (x.withState s).withState s' = x.withState s' := by cases x <;> rfl

theorem Counted.withState {x : Moment σ} (h : x.Counted) (s : RunState σ) :
    (x.withState s).Counted := by
  cases x with
  | between => trivial
  | closing batch rest control c =>
    obtain ⟨houtstanding, hhelping, hlinking⟩ : c.Counted control := h
    exact ⟨houtstanding, hhelping, hlinking⟩
  | analyzing batch rest received control a =>
    obtain ⟨hpending, hhelping, hreleasing⟩ : a.Counted control := h
    exact ⟨hpending, hhelping, hreleasing⟩

theorem length_desks : x.desks.length = x.tasks := by
  cases x with
  | between => rfl
  | closing | analyzing => exact List.length_map _

end Moment

/-- Where a run is, with the desks of the tasks that run, in their order. -/
structure Floor (σ : Type) where
  moment : Moment σ
  desks : List Desk

namespace Floor

/-- The leases that are alive. -/
def live (f : Floor σ) : List Lease := f.moment.leases ++ Desk.leasesOn f.desks

/-- The leases that are alive, without those on one desk. -/
def others (f : Floor σ) (index : Nat) : List Lease :=
  f.moment.leases ++ Desk.leasesOn (f.desks.eraseIdx index)

variable {f : Floor σ} {index : Nat} {d : Desk}

theorem live_perm (h : f.desks[index]? = some d) : f.live.Perm (d.leases ++ f.others index) :=
  ((Desk.leasesOn_perm h).append_left _).trans (List.perm_append_comm_assoc ..)

/-- What a task does leaves what is on the other desks. -/
theorem live_set_perm (h : f.desks[index]? = some d) (s : RunState σ) (d' : Desk) :
    (live ⟨f.moment.withState s, f.desks.set index d'⟩).Perm (d'.leases ++ f.others index) := by
  rw [live, Moment.leases_withState]
  exact ((Desk.leasesOn_set_perm h d').append_left _).trans (List.perm_append_comm_assoc ..)

end Floor

/-! ### Handing leases on -/

theorem Module.leases_append (modules more : List Module) :
    leases (modules ++ more) = leases modules ++ leases more := List.flatMap_append

theorem Module.leases_cons (m : Module) (modules : List Module) :
    leases (m :: modules) = m.lease?.toList ++ leases modules := List.flatMap_cons

theorem Module.leases_singleton (m : Module) : leases [m] = m.lease?.toList :=
  List.flatMap_singleton ..

/-- The pool is left alone, and the leases are handed on: to the coordinator, or to a task that
begins. -/
structure Moment.HandsOn (x y : Moment σ) : Prop where
  pool : y.pool = x.pool
  desks : x.desks <+: y.desks
  leases : x.leases.Perm (y.leases ++ Desk.leasesOn (y.desks.drop x.tasks))

namespace Moment.HandsOn

variable {batch : Batch} {rest : List Batch} {received : List Path}

/-- No task begins. -/
theorem stays {x y : Moment σ} (hpool : y.pool = x.pool) (hdesks : y.desks = x.desks)
    (hleases : x.leases.Perm y.leases) : x.HandsOn y where
  pool := hpool
  desks := hdesks ▸ List.prefix_refl _
  leases := by
    rw [hdesks, List.drop_eq_nil_of_le x.length_desks.le]
    exact hleases.trans (List.append_nil _ ▸ .refl _)

/-- Paths are handed out. -/
theorem hands {control control' : Closing.Control} {c c' : Closing σ} {paths fresh : List Path}
    (hhands : Closing.Hands paths fresh c c') (hhand : control'.inHand = control.inHand) :
    HandsOn (.closing batch rest control c) (.closing batch rest control' c') := by
  refine .stays (congrArg Resources.pool hhands.resources)
    (congrArg (List.map _) hhands.running) ?_
  simp only [Moment.leases, hhand, hhands.results, hhands.analyzable]
  exact .refl _

variable [FileStore σ] {l : Linter}

/-- A task that is to load a file begins with nothing. -/
theorem loads {control control' : Closing.Control} {c : Closing σ} {p : Path} {more : List Path}
    (hp : c.waiting.waiting = p :: more) (hhand : control'.inHand = control.inHand) :
    HandsOn (.closing batch rest control c) (.closing batch rest control' (c.step l .start)) := by
  rw [Closing.step_start l hp]
  refine ⟨rfl, ⟨[.clear], by simp [Moment.desks]⟩, ?_⟩
  simp [Moment.leases, Moment.desks, Moment.tasks, hhand, Desk.leasesOn, Desk.leases]

/-- A task that is to analyze a module begins with its lease. -/
theorem inspects {control control' : Analyzing.Control} {a : Analyzing σ} {m : Module}
    {more : List Module} (hm : a.waiting.waiting = m :: more)
    (hleft : control'.left = control.left) :
    HandsOn (.analyzing batch rest received control a)
      (.analyzing batch rest received control' (a.step l .start)) := by
  rw [Analyzing.step_start l hm]
  refine ⟨rfl, ⟨[.studying m.lease?], by simp [Moment.desks]⟩, ?_⟩
  have hdesk : Desk.leasesOn ((Moment.analyzing batch rest received control'
      { a with waiting := ⟨more⟩, running := a.running ++ [m] }).desks.drop a.running.length) =
        m.lease?.toList := by
    simp [Moment.desks, Desk.leasesOn, Desk.leases]
  simp only [Moment.leases, Moment.tasks, hdesk, hleft, hm, Module.leases_append,
    Module.leases_cons]
  rw [List.append_assoc]
  exact List.perm_append_comm.append_left _

end Moment.HandsOn

/-- What the coordinator puts away keeps its lease. -/
theorem Closing.leases_settle (m : Module) (c : Closing σ) :
    (Module.leases (c.results.waiting ++ (c.settle m).analyzable)).Perm
      (m.lease?.toList ++ Module.leases (c.results.waiting ++ c.analyzable)) := by
  have hanalyzable : Module.leases (c.settle m).analyzable =
      Module.leases c.analyzable ++ m.lease?.toList := by
    unfold Closing.settle Module.lease?
    cases hcontent : m.content with
    | none => simp
    | some content => simp [Module.leases, Module.lease?, hcontent]
  rw [Module.leases_append, Module.leases_append, hanalyzable, ← List.append_assoc]
  exact List.perm_append_comm

theorem length_eraseIdx_lt {α : Type} {items : List α} {index : Nat} {a : α}
    (h : items[index]? = some a) : (items.eraseIdx index).length < items.length := by
  have hindex := (List.getElem?_eq_some_iff.mp h).1
  rw [List.length_eraseIdx_of_lt hindex]
  omega

/-- **A move that ends no task hands leases on**, and does nothing else with them. -/
theorem Linter.Move.handsOn [FileStore σ] {l : Linter} {workers : Nat} {x y : Moment σ}
    {signal : Signal} (h : l.Move workers x signal y) (hends : x.tasks ≤ y.tasks)
    (hcounted : x.Counted) : x.HandsOn y := by
  cases h with
  | @hands batch rest p left c =>
    obtain ⟨fresh, hdispatch⟩ := Closing.hands_dispatch c p
    exact .hands hdispatch rfl
  | @performs batch rest m act left c =>
    obtain ⟨fresh, hperform⟩ := act.hands_perform c
    exact .hands hperform rfl
  | @loads batch rest control c hne hfree =>
    obtain ⟨p, more, hp⟩ := List.exists_cons_of_ne_nil hne
    exact .loads hp rfl
  | helps hp => exact .loads hp rfl
  | @inspects batch rest received control a hne hfree =>
    obtain ⟨m, more, hm⟩ := List.exists_cons_of_ne_nil hne
    exact .inspects hm rfl
  | assists hm => exact .inspects hm rfl
  | sends hp =>
    rw [Closing.step_finish l hp] at hends
    exact absurd hends (length_eraseIdx_lt hp).not_ge
  | helped hp =>
    rw [Closing.step_finish l hp] at hends
    exact absurd hends (length_eraseIdx_lt hp).not_ge
  | reports hm =>
    rw [Analyzing.step_finish l hm] at hends
    exact absurd hends (length_eraseIdx_lt hm).not_ge
  | assisted hm =>
    rw [Analyzing.step_finish l hm] at hends
    exact absurd hends (length_eraseIdx_lt hm).not_ge
  | @takes batch rest m more c hm =>
    refine .stays rfl rfl ?_
    simp only [Moment.leases, hm]
    exact .refl _
  | @settles batch rest m c =>
    refine .stays rfl rfl (.trans ?_ (Closing.leases_settle m c).symm)
    simp only [Moment.leases, Closing.Control.inHand, List.cons_append, Module.leases_cons]
    exact .refl _
  | @turns batch rest c =>
    -- all messages were received
    have hcounted : c.Counted (.linking []) := hcounted
    obtain ⟨-, hrunning, hresults⟩ := hcounted.idle (hcounted.linking [] rfl)
    refine .stays rfl (by rw [Moment.desks, Moment.desks, hrunning]; rfl) ?_
    simp only [Moment.leases, Closing.Control.inHand, hresults, Analyzing.Control.left,
      Analyzing.opened, Channel.empty, List.nil_append, List.append_nil]
    exact .refl _
  | @posts batch rest received m left a =>
    refine .stays rfl rfl (List.Perm.flatMap_right _ ?_)
    show (m :: left ++ a.waiting.waiting).Perm (left ++ (a.waiting.waiting ++ [m]))
    rw [← List.append_assoc]
    exact (List.perm_append_singleton ..).symm
  | @counts batch rest received a hne =>
    obtain ⟨counts, more, hcounts⟩ := List.exists_cons_of_ne_nil hne
    rw [Analyzing.step_receive l hcounts]
    exact .stays rfl rfl (.refl _)
  | @ends batch rest received a =>
    -- nothing is left to be analyzed
    have hpending := Analyzing.Counted.pending hcounted
    have hdone : a.pending = 0 := Analyzing.Counted.releasing hcounted [] rfl
    have hwaiting : a.waiting.waiting = [] := List.length_eq_zero_iff.mp (by omega)
    have hrunning : a.running = [] := List.length_eq_zero_iff.mp (by omega)
    refine .stays rfl (by rw [Moment.desks, Moment.desks, hrunning]; rfl) ?_
    simp only [Moment.leases, Analyzing.Control.left, hwaiting]
    exact .refl _
  | _ => exact .stays rfl rfl (.refl _)

end ScriptLint
