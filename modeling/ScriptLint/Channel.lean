/-
Queues between workers and their coordinator.

A channel delivers messages in the order in which they were sent.  A crew is a
number of workers with a queue of tasks, which they take in order.
-/

namespace ScriptLint

/-- Messages that were sent and not yet received, the oldest first. -/
structure Channel (α : Type) where
  waiting : List α := []
  deriving DecidableEq, Inhabited, Repr

namespace Channel

variable {α : Type}

/-- No messages. -/
def empty : Channel α := {}

/-- The channel with one more message. -/
def send (c : Channel α) (a : α) : Channel α := ⟨c.waiting ++ [a]⟩

/-- The oldest message, if there is one, and the channel without it. -/
def receive (c : Channel α) : Option α × Channel α :=
  match c.waiting with
  | [] => (none, c)
  | a :: rest => (some a, ⟨rest⟩)

/-- The number of messages. -/
def size (c : Channel α) : Nat := c.waiting.length

/-- There are no messages. -/
def isEmpty (c : Channel α) : Bool := c.waiting.isEmpty

end Channel

/-- Workers, and the tasks that none of them has taken yet.  A task changes a
common state. -/
structure Crew (σ : Type) where
  workers : Nat
  tasks : Channel (σ → σ) := .empty

namespace Crew

variable {σ : Type}

/-- Queues a task. -/
def post (c : Crew σ) (task : σ → σ) : Crew σ := { c with tasks := c.tasks.send task }

/-- Runs the oldest task; false if there is none. -/
def runPending (c : Crew σ) (s : σ) : Bool × Crew σ × σ :=
  match c.tasks.receive with
  | (none, _) => (false, c, s)
  | (some task, tasks) => (true, { c with tasks }, task s)

/-- Runs all tasks. -/
def finish (c : Crew σ) (s : σ) : Crew σ × σ :=
  ({ c with tasks := .empty }, c.tasks.waiting.foldl (fun s task => task s) s)

end Crew

end ScriptLint
