/-
Executions of a run.

A run is a sequence of batches, and a batch is two step machines.  `Linter.Step` puts
them together: in each phase any event that is possible may come next, so that an
execution stands for one order in which workers and coordinator happen to act:

* **`Linter.Step`** — one step, with the paths whose loading ends in it;
* **`Linter.Steps`** — some steps, with their number and the paths that were loaded;
* **`LintSession.Finishes`** — a whole execution of a run: what was loaded, in order,
  and the state at the end.

`LintSession.run` is the execution that takes the first possible event each time
(`LintSession.exists_finishes`, where its fuel is shown to suffice).
-/
import ScriptLint.Run

namespace ScriptLint

/-! ### What an event does -/

namespace Closing

variable {σ : Type} [FileStore σ] (l : Linter) {c : Closing σ}

theorem step_start {p : Path} {more : List Path} (h : c.waiting.waiting = p :: more) :
    c.step l .start = { c with waiting := ⟨more⟩, running := c.running ++ [p] } := by
  simp only [step, Channel.receive, h]

theorem step_finish {index : Nat} {p : Path} (h : c.running[index]? = some p) :
    c.step l (.finish index) =
      { c with
        state := { c.state with resources := (loaded l p c.state.resources).2 }
        running := c.running.eraseIdx index
        results := c.results.send (loaded l p c.state.resources).1 } := by
  simp only [step, h]

theorem step_receive {m : Module} {more : List Module} (h : c.results.waiting = m :: more) :
    c.step l .receive =
      receive m { c with results := ⟨more⟩, outstanding := c.outstanding - 1 } := by
  simp only [step, Channel.receive, h]

end Closing

namespace Analyzing

variable {σ : Type} [FileStore σ] (l : Linter) {a : Analyzing σ}

theorem step_start {m : Module} {more : List Module} (h : a.waiting.waiting = m :: more) :
    a.step l .start = { a with waiting := ⟨more⟩, running := a.running ++ [m] } := by
  simp only [step, Channel.receive, h]

theorem step_finish {index : Nat} {m : Module} (h : a.running[index]? = some m) :
    a.step l (.finish index) =
      { a with
        state := (analyzed l m a.state).2
        running := a.running.eraseIdx index
        results := a.results.send (analyzed l m a.state).1 } := by
  simp only [step, h]

theorem step_receive {counts : AnalysisCounts} {more : List AnalysisCounts}
    (h : a.results.waiting = counts :: more) :
    a.step l .receive =
      { a with
        state := { a.state with counts := count counts a.state.counts }
        results := ⟨more⟩
        pending := a.pending - 1 } := by
  simp only [step, Channel.receive, h]

end Analyzing

/-! ### Steps -/

/-- Where a run is: a batch is being loaded, or was received and is being analyzed,
with the batches that follow, or the run has ended. -/
inductive Phase (σ : Type) where
  | closing (batch : Batch) (rest : List Batch) (c : Closing σ)
  | analyzing (batch : Batch) (rest : List Batch) (received : List Path) (a : Analyzing σ)
  | finished (s : RunState σ)

/-- The beginning of the next batch, or the end of the run. -/
def Phase.begin {σ : Type} (s : RunState σ) : List Batch → Phase σ
  | [] => .finished s
  | batch :: rest => .closing batch rest (Closing.ofBatch batch s)

namespace Linter

variable {σ : Type} [FileStore σ] (l : Linter)

/-- One step of a run, and the paths whose loading ends in it. -/
inductive Step : Phase σ → List Path → Phase σ → Prop where
  | start {batch rest} {c : Closing σ} (h : c.waiting.waiting ≠ []) :
      Step (.closing batch rest c) [] (.closing batch rest (c.step l .start))
  | finish {batch rest} {c : Closing σ} {index : Nat} {p : Path}
      (h : c.running[index]? = some p) :
      Step (.closing batch rest c) [p] (.closing batch rest (c.step l (.finish index)))
  | receive {batch rest} {c : Closing σ} (h : c.results.waiting ≠ []) :
      Step (.closing batch rest c) [] (.closing batch rest (c.step l .receive))
  | close {batch rest} {c : Closing σ} (h : c.outstanding = 0) :
      Step (.closing batch rest c) []
        (.analyzing batch rest c.received (Analyzing.ofClosing batch c))
  | inspect {batch rest received} {a : Analyzing σ} (h : a.waiting.waiting ≠ []) :
      Step (.analyzing batch rest received a) [] (.analyzing batch rest received (a.step l .start))
  | conclude {batch rest received} {a : Analyzing σ} {index : Nat} {m : Module}
      (h : a.running[index]? = some m) :
      Step (.analyzing batch rest received a) []
        (.analyzing batch rest received (a.step l (.finish index)))
  | count {batch rest received} {a : Analyzing σ} (h : a.results.waiting ≠ []) :
      Step (.analyzing batch rest received a) []
        (.analyzing batch rest received (a.step l .receive))
  | release {batch rest received} {a : Analyzing σ} (h : a.pending = 0) :
      Step (.analyzing batch rest received a) [] (.begin (l.released batch received a) rest)

/-- Some steps of a run: their number, and the paths that were loaded. -/
inductive Steps (first : Phase σ) : Nat → List Path → Phase σ → Prop where
  | refl : Steps first 0 [] first
  | tail {n loaded more phase phase'} (h : Steps first n loaded phase)
      (hstep : l.Step phase more phase') : Steps first (n + 1) (loaded ++ more) phase'

variable {l}

theorem Steps.trans {first phase phase' : Phase σ} {n n' : Nat} {loaded loaded' : List Path}
    (h : l.Steps first n loaded phase) (h' : l.Steps phase n' loaded' phase') :
    l.Steps first (n + n') (loaded ++ loaded') phase' := by
  induction h' with
  | refl => simpa using h
  | tail _ hstep ih =>
    rw [← List.append_assoc]
    exact .tail ih hstep

/-- A property of a run that every step keeps holds in every execution. -/
theorem Steps.induct {motive : List Path → Phase σ → Prop} {first phase : Phase σ} {n : Nat}
    {loaded : List Path} (h : l.Steps first n loaded phase) (hfirst : motive [] first)
    (hkeep : ∀ loaded phase more phase', motive loaded phase → l.Step phase more phase' →
      motive (loaded ++ more) phase') : motive loaded phase := by
  induction h with
  | refl => exact hfirst
  | tail _ hstep ih => exact hkeep _ _ _ _ ih hstep

end Linter

namespace LintSession

variable {σ : Type} [FileStore σ] (s : LintSession)

/-- The batches of a run. -/
def batches (paths : List Path) : List Batch :=
  schedule (s.entries paths) s.options.concurrency.toUInt64 s.options.batchMultiplier
    s.options.ordering

/-- The linter of a run over the given paths. -/
def linterOf (paths : List Path) : Linter := s.linter (s.entries paths)

/-- The beginning of a run over the given paths. -/
def start (paths : List Path) (r : Resources σ) : Phase σ :=
  .begin { resources := r } (s.batches paths)

/-- A run over the given paths can load these paths in this order, and end in this
state. -/
def Finishes (paths : List Path) (r : Resources σ) (loaded : List Path) (state : RunState σ) :
    Prop :=
  paths ≠ [] ∧ ∃ n, (s.linterOf paths).Steps (s.start paths r) n loaded (.finished state)

end LintSession

end ScriptLint
