/-
What is under way, and what the coordinator has counted.

The coordinator keeps three counters, and workers add messages and take tasks while it
does.  Each of the following holds at the beginning of a run and is kept by every move:

* **`Moment.Counted`** — `outstanding` counts the tasks and the messages, `pending` the
  analyses that were not counted;
* **`Moment.Delivers`** — the messages that were sent, the tasks that run and those that
  wait are for distinct paths, the ones that were handed out;
* **`Linter.Answers`** — every message is what loading made of its path, or says that
  loading broke off;
* **`Moment.Retains`** — `retained` counts the modules that were received with their
  content and whose analyses were not counted.
-/
import ScriptLint.Proofs.Interleaving

namespace ScriptLint

variable {σ : Type}

/-! ### Counters -/

/-- What is taken out of a list at an index leaves all other members. -/
theorem mem_eraseIdx_of_ne {α : Type} {items : List α} {index : Nat} {a b : α} (ha : a ∈ items)
    (hb : items[index]? = some b) (hne : a ≠ b) : a ∈ items.eraseIdx index := by
  obtain ⟨i, hi⟩ := List.getElem?_of_mem ha
  refine List.mem_eraseIdx_iff_getElem?.mpr ⟨i, fun hindex => hne ?_, hi⟩
  rw [hindex] at hi
  exact Option.some.inj (hi.symm.trans hb)

/-- The counter of a batch that is being loaded agrees with what is under way.  A task
that the coordinator runs is one of those that run, and modules are linked when nothing
is under way. -/
structure Closing.Counted (control : Closing.Control) (c : Closing σ) : Prop where
  outstanding : c.outstanding =
    c.waiting.waiting.length + c.running.length + c.results.waiting.length
  helping : ∀ p, control = .helping p → p ∈ c.running
  linking : ∀ left, control = .linking left → c.outstanding = 0

/-- The analyses that are left to be posted. -/
def Analyzing.Control.left : Analyzing.Control → List Module
  | posting left => left
  | _ => []

/-- The counter of a batch that is being analyzed agrees with the analyses that were not
counted, those included that were not posted. -/
structure Analyzing.Counted (control : Analyzing.Control) (a : Analyzing σ) : Prop where
  pending : a.pending = control.left.length + a.waiting.waiting.length + a.running.length +
    a.results.waiting.length
  helping : ∀ m, control = .helping m → m ∈ a.running
  releasing : ∀ left, control = .releasing left → a.pending = 0

/-- The counters agree with what is under way. -/
def Moment.Counted : Moment σ → Prop
  | .between _ _ => True
  | .closing _ _ control c => c.Counted control
  | .analyzing _ _ _ control a => a.Counted control

namespace Closing.Counted

variable {control : Closing.Control} {c c' : Closing σ}

/-- With nothing outstanding nothing is under way. -/
theorem idle (h : c.Counted control) (hdone : c.outstanding = 0) :
    c.waiting.waiting = [] ∧ c.running = [] ∧ c.results.waiting = [] := by
  have hcount := h.outstanding
  refine ⟨?_, ?_, ?_⟩ <;> exact List.length_eq_zero_iff.mp (by omega)

/-- Handing out paths counts them, while the coordinator is busy with it. -/
theorem hands {paths fresh : List Path} (h : c.Counted control) (hhands : Hands paths fresh c c')
    (hbusy : ∀ p, control ≠ .helping p) (hopen : ∀ left, control ≠ .linking left) :
    c'.Counted control where
  outstanding := by
    have hcount := h.outstanding
    rw [hhands.outstanding, hhands.waiting, hhands.running, hhands.results, List.length_append]
    omega
  helping p hp := absurd hp (hbusy p)
  linking left hl := absurd hl (hopen left)

/-- A task is begun, by a worker or by the coordinator. -/
theorem start [FileStore σ] {l : Linter} (h : c.Counted control) {control' : Closing.Control}
    {p : Path} {more : List Path} (hp : c.waiting.waiting = p :: more)
    (hcontrol : control' = control ∨ control' = .helping p) :
    (c.step l .start).Counted control' := by
  have hcount := h.outstanding
  rw [hp, List.length_cons] at hcount
  rw [step_start l hp]
  refine ⟨?_, fun q hq => ?_, fun left hl => ?_⟩
  · simp only [List.length_append, List.length_cons, List.length_nil]
    omega
  · rcases hcontrol with rfl | rfl
    · exact List.mem_append_left _ (h.helping q hq)
    · cases hq
      exact List.mem_append_right _ (List.mem_singleton_self p)
  · rcases hcontrol with rfl | rfl
    · exact h.linking left hl
    · cases hl

/-- A task ends with a message; a task that the coordinator runs goes on. -/
theorem finish [FileStore σ] {l : Linter} (h : c.Counted control) {control' : Closing.Control}
    {index : Nat} {p : Path} (hp : c.running[index]? = some p)
    (hcontrol : (control' = control ∧ control ≠ .helping p) ∨ control' = .waiting) :
    (c.step l (.finish index)).Counted control' := by
  have hlength := List.length_eraseIdx_of_lt (List.getElem?_eq_some_iff.mp hp).1
  have hpos : 0 < c.running.length := Nat.zero_lt_of_lt (List.getElem?_eq_some_iff.mp hp).1
  have hcount := h.outstanding
  rw [step_finish l hp]
  refine ⟨?_, fun q hq => ?_, fun left hl => ?_⟩
  · simp only [Channel.send, List.length_append, List.length_cons, List.length_nil, hlength]
    omega
  · rcases hcontrol with ⟨rfl, hother⟩ | rfl
    · -- the coordinator's own task is not the one that ends
      exact mem_eraseIdx_of_ne (h.helping q hq) hp fun hqp => hother (hqp ▸ hq)
    · cases hq
  · rcases hcontrol with ⟨rfl, -⟩ | rfl
    · exact h.linking left hl
    · cases hl

end Closing.Counted

namespace Analyzing.Counted

variable [FileStore σ] {l : Linter} {control : Analyzing.Control} {a : Analyzing σ}

/-- An analysis is begun, by a worker or by the coordinator. -/
theorem start (h : a.Counted control) {control' : Analyzing.Control} {m : Module}
    {more : List Module} (hm : a.waiting.waiting = m :: more)
    (hcontrol : control' = control ∨ control = .waiting ∧ control' = .helping m) :
    (a.step l .start).Counted control' := by
  have hcount := h.pending
  rw [hm, List.length_cons] at hcount
  rw [step_start l hm]
  refine ⟨?_, fun q hq => ?_, fun left hl => ?_⟩
  · rcases hcontrol with rfl | ⟨rfl, rfl⟩ <;>
      simp only [List.length_append, List.length_cons, List.length_nil, Control.left] at hcount ⊢ <;>
      omega
  · rcases hcontrol with rfl | ⟨-, rfl⟩
    · exact List.mem_append_left _ (h.helping q hq)
    · cases hq
      exact List.mem_append_right _ (List.mem_singleton_self m)
  · rcases hcontrol with rfl | ⟨-, rfl⟩
    · exact h.releasing left hl
    · cases hl

/-- An analysis ends; an analysis that the coordinator runs goes on. -/
theorem finish (h : a.Counted control) {control' : Analyzing.Control} {index : Nat} {m : Module}
    (hm : a.running[index]? = some m)
    (hcontrol : control' = control ∧ control ≠ .helping m ∨
      control = .helping m ∧ control' = .waiting) :
    (a.step l (.finish index)).Counted control' := by
  have hlength := List.length_eraseIdx_of_lt (List.getElem?_eq_some_iff.mp hm).1
  have hpos : 0 < a.running.length := Nat.zero_lt_of_lt (List.getElem?_eq_some_iff.mp hm).1
  have hcount := h.pending
  rw [step_finish l hm]
  refine ⟨?_, fun q hq => ?_, fun left hl => ?_⟩
  · rcases hcontrol with ⟨rfl, -⟩ | ⟨rfl, rfl⟩ <;>
      simp only [Channel.send, List.length_append, List.length_cons, List.length_nil, hlength,
        Control.left] at hcount ⊢ <;>
      omega
  · rcases hcontrol with ⟨rfl, hother⟩ | ⟨-, rfl⟩
    · exact mem_eraseIdx_of_ne (h.helping q hq) hm fun hqm => hother (hqm ▸ hq)
    · cases hq
  · rcases hcontrol with ⟨rfl, -⟩ | ⟨-, rfl⟩
    · exact h.releasing left hl
    · cases hl

/-- An analysis is counted. -/
theorem count (h : a.Counted .waiting) (hne : a.results.waiting ≠ []) :
    (a.step l .receive).Counted .waiting := by
  cases hresults : a.results.waiting with
  | nil => exact absurd hresults hne
  | cons counts more =>
    have hcount := h.pending
    rw [hresults, List.length_cons] at hcount
    rw [step_receive l hresults]
    refine ⟨?_, by simp, by simp⟩
    simp only [Control.left, List.length_nil] at hcount ⊢
    omega

end Analyzing.Counted

/-- **Every move keeps the counters.** -/
theorem Moment.Counted.move [FileStore σ] {l : Linter} {workers : Nat} {x y : Moment σ}
    {signal : Signal} (h : x.Counted) (hmove : l.Move workers x signal y) : y.Counted := by
  cases hmove with
  | opens => exact ⟨rfl, by simp, by simp⟩
  | @hands batch rest p left c =>
    have h : c.Counted _ := h
    obtain ⟨fresh, hhands⟩ := Closing.hands_dispatch c p
    have hdispatch := h.hands hhands (by simp) (by simp)
    exact ⟨hdispatch.outstanding, by simp, by simp⟩
  | @drains batch rest c =>
    have h : c.Counted _ := h
    exact ⟨h.outstanding, by simp, by simp⟩
  | @loads batch rest control c hne hfree =>
    have h : c.Counted control := h
    obtain ⟨p, more, hp⟩ := List.exists_cons_of_ne_nil hne
    exact h.start hp (.inl rfl)
  | sends hp hother => exact Closing.Counted.finish h hp (.inl ⟨rfl, hother⟩)
  | helps hp => exact Closing.Counted.start h hp (.inr rfl)
  | helped hp => exact Closing.Counted.finish h hp (.inr rfl)
  | @takes batch rest m more c hm =>
    -- the counter goes down with the messages that wait
    have hcount := Closing.Counted.outstanding h
    rw [hm, List.length_cons] at hcount
    refine ⟨?_, by simp, by simp⟩
    show c.outstanding - 1 = c.waiting.waiting.length + c.running.length + more.length
    omega
  | @performs batch rest m act left c =>
    have h : c.Counted _ := h
    obtain ⟨fresh, hhands⟩ := act.hands_perform c
    have hperform := h.hands hhands (by simp) (by simp)
    exact ⟨hperform.outstanding, by simp, by simp⟩
  | @settles batch rest m c =>
    have h : c.Counted _ := h
    exact ⟨h.outstanding, by simp, by simp⟩
  | @closes batch rest c hdone =>
    have h : c.Counted _ := h
    exact ⟨h.outstanding, by simp, fun _ _ => hdone⟩
  | @links batch rest p left c =>
    have h : c.Counted _ := h
    exact ⟨h.outstanding, by simp, fun _ _ => h.linking _ rfl⟩
  | @turns batch rest c => exact ⟨rfl, by simp, by simp⟩
  | @posts batch rest received m left a =>
    -- the module goes from the ones to be posted to the ones that wait
    have hcount := Analyzing.Counted.pending h
    refine ⟨?_, by simp, by simp⟩
    simp only [Analyzing.post, Channel.send, Analyzing.Control.left, List.length_append,
      List.length_cons, List.length_nil] at hcount ⊢
    omega
  | @posted batch rest received a =>
    have h : a.Counted _ := h
    exact ⟨h.pending, by simp, by simp⟩
  | @inspects batch rest received control a hne hfree =>
    have h : a.Counted control := h
    obtain ⟨m, more, hm⟩ := List.exists_cons_of_ne_nil hne
    exact h.start hm (.inl rfl)
  | reports hm hother => exact Analyzing.Counted.finish h hm (.inl ⟨rfl, hother⟩)
  | assists hm => exact Analyzing.Counted.start h hm (.inr ⟨rfl, rfl⟩)
  | assisted hm => exact Analyzing.Counted.finish h hm (.inr ⟨rfl, rfl⟩)
  | counts hne => exact Analyzing.Counted.count h hne
  | @counted batch rest received a hdone =>
    have h : a.Counted _ := h
    exact ⟨h.pending, by simp, fun _ _ => hdone⟩
  | @releases batch rest received p left a =>
    have h : a.Counted _ := h
    exact ⟨h.pending, by simp, fun _ _ => h.releasing _ rfl⟩
  | ends => trivial

/-! ### Messages -/

/-- The module that the coordinator has in its hand. -/
def Closing.Control.inHand : Closing.Control → List Module
  | taking m _ => [m]
  | _ => []

namespace Moment

/-- The state of the run. -/
def state : Moment σ → RunState σ
  | between _ s => s
  | closing _ _ _ c => c.state
  | analyzing _ _ _ _ a => a.state

/-- The paths whose loading nobody has begun. -/
def waiting : Moment σ → List Path
  | closing _ _ _ c => c.waiting.waiting
  | _ => []

/-- The paths that are being loaded. -/
def running : Moment σ → List Path
  | closing _ _ _ c => c.running
  | _ => []

/-- The messages that were sent and not received. -/
def results : Moment σ → List Module
  | closing _ _ _ c => c.results.waiting
  | _ => []

/-- The module that the coordinator has in its hand. -/
def inHand : Moment σ → List Module
  | closing _ _ control _ => control.inHand
  | _ => []

end Moment

/-- The paths are distinct, and those that were handed out. -/
structure ModuleGraph.Dispatches (paths : List Path) (g : ModuleGraph) : Prop where
  nodup : (paths.map Path.key).Nodup
  mem : ∀ k, k ∈ g.dispatched ↔ k ∈ paths.map Path.key

namespace ModuleGraph.Dispatches

variable {paths paths' fresh : List Path} {g g' : ModuleGraph}

theorem congr (h : Dispatches paths g) (hpaths : paths.Perm paths')
    (hg : g'.dispatched = g.dispatched) : Dispatches paths' g' where
  nodup := (hpaths.map Path.key).nodup_iff.mp h.nodup
  mem k := by rw [hg, h.mem, (hpaths.map Path.key).mem_iff]

/-- Paths are handed out that were not before. -/
theorem hands {targets : List Path} {c c' : Closing σ} (h : Dispatches paths c.state.graph)
    (hhands : Closing.Hands targets fresh c c') :
    Dispatches (paths ++ fresh) c'.state.graph where
  nodup := by
    rw [List.map_append]
    refine h.nodup.append hhands.nodup fun k hk hk' => ?_
    obtain ⟨p, hp, rfl⟩ := List.mem_map.mp hk'
    exact hhands.new p hp ((h.mem _).mpr hk)
  mem k := by rw [hhands.dispatched, h.mem, List.map_append, List.mem_append, or_comm]

end ModuleGraph.Dispatches

theorem ModuleGraph.dispatched_releaseDependency (g : ModuleGraph) (p : Path) :
    (g.releaseDependency p).dispatched = g.dispatched := by
  unfold releaseDependency
  split
  · exact dispatched_releaseEdges g p
  · rfl

/-- The message for a path has that path. -/
theorem Closing.path_loaded [FileStore σ] (l : Linter) (p : Path) (r : Resources σ) :
    (Closing.loaded l p r).1.path = p := by
  have hsettle (m : Module) (text : Bytes) (lease : Arena.Lease) (r : Resources σ) :
      (l.loading.settle m text lease r).1.path = m.path := by
    unfold LoadSettings.settle
    split <;> rfl
  unfold Closing.loaded LoadSettings.load
  cases l.loading.loaders.find? p.extension with
  | none => cases hk : l.loading.keeps (l.entries.contains p) <;> simp [hk]
  | some form =>
    simp only
    generalize FileStore.read p r.files = answer
    obtain ⟨outcome, files⟩ := answer
    rcases outcome with (e | reason) | text
    · exact hsettle _ _ _ _
    · rfl
    · exact (hsettle _ _ _ _).trans (LoadSettings.path_ofText _ _ _ _ _ _)

/-- A loading that breaks off has a message of its own. -/
theorem Closing.loaded_of_error [FileStore σ] {l : Linter} {p : Path} {r : Resources σ}
    {mishap : Mishap} (h : (l.loading.load p (l.entries.contains p) r).1 = .error mishap) :
    (Closing.loaded l p r).1 = brokenModule p (l.entries.contains p) mishap := by
  unfold Closing.loaded
  dsimp only
  generalize l.loading.load p (l.entries.contains p) r = answer at h ⊢
  obtain ⟨outcome, r'⟩ := answer
  obtain rfl : outcome = .error mishap := h
  rfl

/-- The messages that were sent are those that were received, that the coordinator has in
its hand and that wait for it.  With the tasks that run and those that wait, they are for
the paths that were handed out, each for another one. -/
structure Moment.Delivers (history : History) (x : Moment σ) : Prop where
  delivered : history.sent = history.received ++ x.inHand ++ x.results
  dispatches : x.state.graph.Dispatches (history.sent.map Module.path ++ x.running ++ x.waiting)

namespace Moment.Delivers

variable {history : History} {x : Moment σ}

/-- Of every path there is one message. -/
theorem nodup_sent (h : x.Delivers history) : (history.sent.map fun m => m.path.key).Nodup := by
  have hnodup := h.dispatches.nodup
  rw [List.append_assoc, List.map_append, List.map_map] at hnodup
  exact hnodup.of_append_left

/-- What is being loaded was not sent yet. -/
theorem new_of_running (h : x.Delivers history) {p : Path} (hp : p ∈ x.running) :
    p.key ∉ history.sent.map fun m => m.path.key := by
  have hnodup := h.dispatches.nodup
  rw [List.append_assoc, List.map_append, List.map_map] at hnodup
  exact fun hmem => List.disjoint_of_nodup_append hnodup hmem
    (List.mem_map_of_mem (List.mem_append_left _ hp))

variable {batch : Batch} {rest : List Batch} {control control' : Closing.Control}
  {c : Closing σ}

/-- The paths that an act of the coordinator hands out wait. -/
theorem hands {targets fresh : List Path} {c' : Closing σ}
    (h : Delivers history (.closing batch rest control c))
    (hhands : Closing.Hands targets fresh c c')
    (hhand : control'.inHand = control.inHand) :
    Delivers history (.closing batch rest control' c') where
  delivered := by
    show history.sent = history.received ++ control'.inHand ++ c'.results.waiting
    rw [hhand, hhands.results]
    exact h.delivered
  dispatches := by
    have hdispatches := ModuleGraph.Dispatches.hands h.dispatches hhands
    rw [List.append_assoc] at hdispatches
    show c'.state.graph.Dispatches (_ ++ c'.running ++ c'.waiting.waiting)
    rw [hhands.running, hhands.waiting]
    exact hdispatches

/-- A task is begun. -/
theorem start [FileStore σ] {l : Linter} {p : Path} {more : List Path}
    (h : Delivers history (.closing batch rest control c)) (hp : c.waiting.waiting = p :: more)
    (hhand : control'.inHand = control.inHand) :
    Delivers history (.closing batch rest control' (c.step l .start)) := by
  rw [Closing.step_start l hp]
  refine ⟨h.delivered.trans ?_, h.dispatches.congr ?_ rfl⟩
  · exact congrArg (history.received ++ · ++ c.results.waiting) hhand.symm
  show (_ ++ c.running ++ c.waiting.waiting).Perm (_ ++ (c.running ++ [p]) ++ more)
  rw [hp, List.append_assoc, List.append_assoc, List.append_assoc]
  exact .refl _

/-- A task ends with a message. -/
theorem finish [FileStore σ] {l : Linter} {index : Nat} {p : Path}
    (h : Delivers history (.closing batch rest control c)) (hp : c.running[index]? = some p)
    (hhand : control'.inHand = control.inHand) :
    Delivers (history.after (.sent (Closing.loaded l p c.state.resources).1))
      (.closing batch rest control' (c.step l (.finish index))) := by
  obtain ⟨hindex, hget⟩ := List.getElem?_eq_some_iff.mp hp
  have hperm : (p :: c.running.eraseIdx index).Perm c.running := by
    rw [← hget]
    exact List.getElem_cons_eraseIdx_perm hindex
  rw [Closing.step_finish l hp]
  refine ⟨?_, h.dispatches.congr ?_ rfl⟩
  · have hdelivered : history.sent = history.received ++ control.inHand ++ c.results.waiting :=
      h.delivered
    show history.sent ++ [_] = history.received ++ control'.inHand ++ (c.results.waiting ++ [_])
    rw [hdelivered, hhand, List.append_assoc _ c.results.waiting]
  · -- the path goes from the tasks that run to the messages
    show (history.sent.map Module.path ++ c.running ++ c.waiting.waiting).Perm
      ((history.sent ++ [_]).map Module.path ++ c.running.eraseIdx index ++ c.waiting.waiting)
    rw [List.map_append, List.map_singleton, Closing.path_loaded, List.append_assoc,
      List.append_assoc, List.append_assoc]
    exact (hperm.symm.append_right _).append_left _

end Moment.Delivers

/-- **Every move keeps the account of messages.** -/
theorem Moment.Delivers.move [FileStore σ] {l : Linter} {workers : Nat} {x y : Moment σ}
    {signal : Signal} {history : History} (h : x.Delivers history) (hcounted : x.Counted)
    (hmove : l.Move workers x signal y) : y.Delivers (history.after signal) := by
  cases hmove with
  | @hands batch rest p left c =>
    obtain ⟨fresh, hhands⟩ := Closing.hands_dispatch c p
    exact h.hands hhands rfl
  | @loads batch rest control c hne hfree =>
    obtain ⟨p, more, hp⟩ := List.exists_cons_of_ne_nil hne
    exact h.start hp rfl
  | sends hp hother => exact h.finish hp rfl
  | helps hp => exact h.start hp rfl
  | helped hp => exact h.finish hp rfl
  | @takes batch rest m more c hm =>
    refine ⟨?_, h.dispatches⟩
    have hdelivered : history.sent = history.received ++ [] ++ c.results.waiting := h.delivered
    rw [hm, List.append_nil] at hdelivered
    show history.sent = history.received ++ [m] ++ more
    rw [hdelivered, List.append_assoc]
    rfl
  | @performs batch rest m act left c =>
    obtain ⟨fresh, hhands⟩ := act.hands_perform c
    exact h.hands hhands rfl
  | @settles batch rest m c =>
    -- what the coordinator had in its hand is received now
    refine ⟨?_, h.dispatches.congr (.refl _) (Closing.dispatched_conclude m _)⟩
    have hdelivered : history.sent = history.received ++ [m] ++ c.results.waiting := h.delivered
    show history.sent = history.received ++ [m] ++ [] ++ c.results.waiting
    rw [hdelivered, List.append_nil]
  | @links batch rest p left c =>
    exact ⟨h.delivered, h.dispatches.congr (.refl _) (ModuleGraph.dispatched_link _ p)⟩
  | @turns batch rest c =>
    -- nothing is left of what the batch had to load
    have hcounted : c.Counted (.linking []) := hcounted
    obtain ⟨hwaiting, hrunning, hresults⟩ := hcounted.idle (hcounted.linking [] rfl)
    have hdelivered : history.sent = history.received ++ [] ++ c.results.waiting := h.delivered
    have hdispatches : c.state.graph.Dispatches
        (history.sent.map Module.path ++ c.running ++ c.waiting.waiting) := h.dispatches
    rw [hresults] at hdelivered
    rw [hrunning, hwaiting] at hdispatches
    exact ⟨hdelivered, hdispatches⟩
  | @inspects batch rest received control a hne hfree =>
    obtain ⟨m, more, hm⟩ := List.exists_cons_of_ne_nil hne
    rw [Analyzing.step_start l hm]
    exact ⟨h.delivered, h.dispatches⟩
  | reports hm hother =>
    rw [Analyzing.step_finish l hm]
    exact ⟨h.delivered, h.dispatches⟩
  | assists hm =>
    rw [Analyzing.step_start l hm]
    exact ⟨h.delivered, h.dispatches⟩
  | assisted hm =>
    rw [Analyzing.step_finish l hm]
    exact ⟨h.delivered, h.dispatches⟩
  | @counts batch rest received a hne =>
    obtain ⟨counts, more, hcounts⟩ := List.exists_cons_of_ne_nil hne
    rw [Analyzing.step_receive l hcounts]
    exact ⟨h.delivered, h.dispatches⟩
  | @releases batch rest received p left a =>
    exact ⟨h.delivered, h.dispatches.congr (.refl _)
      (ModuleGraph.dispatched_releaseDependency _ p)⟩
  | opens | drains | closes | posts | posted | counted | ends =>
    exact ⟨h.delivered, h.dispatches⟩

/-- What answers for a path: the module that was loaded for it, or, if that broke off,
the module that says so. -/
def Linter.Answers (σ : Type) [FileStore σ] (l : Linter) (m : Module) : Prop :=
  ∃ r : Resources σ, (l.loading.load m.path (l.entries.contains m.path) r).1 = .ok m ∨
    ∃ mishap, (l.loading.load m.path (l.entries.contains m.path) r).1 = .error mishap ∧
      m = Closing.brokenModule m.path (l.entries.contains m.path) mishap

theorem Linter.answers_loaded [FileStore σ] (l : Linter) (p : Path) (r : Resources σ) :
    l.Answers σ (Closing.loaded l p r).1 := by
  refine ⟨r, ?_⟩
  rw [Closing.path_loaded]
  cases houtcome : (l.loading.load p (l.entries.contains p) r).1 with
  | error mishap => exact .inr ⟨mishap, rfl, Closing.loaded_of_error houtcome⟩
  | ok m =>
    left
    unfold Closing.loaded
    dsimp only
    generalize l.loading.load p (l.entries.contains p) r = answer at houtcome ⊢
    obtain ⟨outcome, r'⟩ := answer
    obtain rfl : outcome = .ok m := houtcome
    rfl

/-- Every message answers for its path. -/
theorem Linter.Move.answers [FileStore σ] {l : Linter} {workers : Nat} {x y : Moment σ}
    {signal : Signal} {history : History} (hmove : l.Move workers x signal y)
    (h : ∀ m ∈ history.sent, l.Answers σ m) : ∀ m ∈ (history.after signal).sent, l.Answers σ m := by
  have hsent (p : Path) (r : Resources σ) :
      ∀ m ∈ history.sent ++ [(Closing.loaded l p r).1], l.Answers σ m := by
    intro m hm
    rcases List.mem_append.mp hm with hm | hm
    · exact h m hm
    · rw [List.mem_singleton.mp hm]
      exact l.answers_loaded p r
  cases hmove with
  | sends hp hother => exact hsent _ _
  | helped hp => exact hsent _ _
  | _ => exact h

/-! ### Contents -/

/-- The number of modules that were received with their content and are to be analyzed
or being analyzed. -/
def Moment.retaining : Moment σ → Nat
  | .between _ _ => 0
  | .closing _ _ _ c => c.analyzable.length
  | .analyzing _ _ _ _ a => a.pending

/-- The count of contents that are kept is right: those of the modules that were received
with their content, without those whose analyses were counted. -/
structure Moment.Retains (history : History) (x : Moment σ) : Prop where
  retained : x.state.counts.retained = x.retaining
  balance : history.received.countP (fun m => m.content.isSome) = history.completed + x.retaining

namespace Moment.Retains

variable {history : History} {batch : Batch} {rest : List Batch} {control control' : Closing.Control}
  {c c' : Closing σ}

theorem hands {targets fresh : List Path} (h : Retains history (.closing batch rest control c))
    (hhands : Closing.Hands targets fresh c c') :
    Retains history (.closing batch rest control' c') := by
  refine ⟨?_, h.balance.trans ?_⟩
  · show c'.state.counts.retained = c'.analyzable.length
    rw [hhands.counts, hhands.analyzable]
    exact h.retained
  · exact congrArg (history.completed + List.length ·) hhands.analyzable.symm

/-- A module is put away, with its content if that is kept. -/
theorem settle {m : Module} (h : Retains history (.closing batch rest control c)) :
    Retains (history.after (.received m)) (.closing batch rest control' (c.settle m)) := by
  have hretained : c.state.counts.retained = c.analyzable.length := h.retained
  have hbalance : history.received.countP (fun m => m.content.isSome) =
    history.completed + c.analyzable.length := h.balance
  constructor
  · show (Closing.count m c.state.counts).retained =
      (if m.content.isSome then c.analyzable ++ [m] else c.analyzable).length
    unfold Closing.count
    by_cases hm : m.content.isSome <;> simp [hm, hretained]
  · show (history.received ++ [m]).countP _ =
      history.completed + (if m.content.isSome then c.analyzable ++ [m] else c.analyzable).length
    rw [List.countP_append, hbalance]
    by_cases hm : m.content.isSome <;> simp [hm, Nat.add_assoc]

end Moment.Retains

/-- **Every move keeps the count of contents.** -/
theorem Moment.Retains.move [FileStore σ] {l : Linter} {workers : Nat} {x y : Moment σ}
    {signal : Signal} {history : History} (h : x.Retains history) (hcounted : x.Counted)
    (hmove : l.Move workers x signal y) : y.Retains (history.after signal) := by
  cases hmove with
  | @hands batch rest p left c =>
    obtain ⟨fresh, hhands⟩ := Closing.hands_dispatch c p
    exact h.hands hhands
  | @loads batch rest control c hne hfree =>
    obtain ⟨p, more, hp⟩ := List.exists_cons_of_ne_nil hne
    rw [Closing.step_start l hp]
    exact ⟨h.retained, h.balance⟩
  | sends hp hother =>
    rw [Closing.step_finish l hp]
    exact ⟨h.retained, h.balance⟩
  | helps hp =>
    rw [Closing.step_start l hp]
    exact ⟨h.retained, h.balance⟩
  | helped hp =>
    rw [Closing.step_finish l hp]
    exact ⟨h.retained, h.balance⟩
  | @performs batch rest m act left c =>
    obtain ⟨fresh, hhands⟩ := act.hands_perform c
    exact h.hands hhands
  | settles => exact h.settle
  | @inspects batch rest received control a hne hfree =>
    obtain ⟨m, more, hm⟩ := List.exists_cons_of_ne_nil hne
    rw [Analyzing.step_start l hm]
    exact ⟨h.retained, h.balance⟩
  | reports hm hother =>
    rw [Analyzing.step_finish l hm]
    exact ⟨h.retained, h.balance⟩
  | assists hm =>
    rw [Analyzing.step_start l hm]
    exact ⟨h.retained, h.balance⟩
  | assisted hm =>
    rw [Analyzing.step_finish l hm]
    exact ⟨h.retained, h.balance⟩
  | @counts batch rest received a hne =>
    obtain ⟨counts, more, hcounts⟩ := List.exists_cons_of_ne_nil hne
    have hretained : a.state.counts.retained = a.pending := h.retained
    have hbalance : history.received.countP (fun m => m.content.isSome) =
      history.completed + a.pending := h.balance
    -- what is counted was pending
    have hpending := Analyzing.Counted.pending hcounted
    rw [hcounts, List.length_cons] at hpending
    rw [Analyzing.step_receive l hcounts]
    refine ⟨congrArg (· - 1) hretained, ?_⟩
    show history.received.countP _ = history.completed + 1 + (a.pending - 1)
    omega
  | @ends batch rest received a =>
    -- all analyses of the batch were counted
    have hdone : a.pending = 0 := Analyzing.Counted.releasing hcounted [] rfl
    exact ⟨h.retained.trans hdone, h.balance.trans (congrArg (history.completed + ·) hdone)⟩
  | opens | drains | takes | closes | links | turns | posts | posted | counted | releases =>
    exact ⟨h.retained, h.balance⟩

/-! ### All accounts -/

/-- The accounts of a scene are right. -/
structure Moment.Accounted [FileStore σ] (l : Linter) (history : History) (x : Moment σ) : Prop where
  counted : x.Counted
  delivers : x.Delivers history
  answers : ∀ m ∈ history.sent, l.Answers σ m
  retains : x.Retains history

theorem Moment.Accounted.move [FileStore σ] {l : Linter} {workers : Nat} {x y : Moment σ}
    {signal : Signal} {history : History} (h : x.Accounted l history)
    (hmove : l.Move workers x signal y) : y.Accounted l (history.after signal) where
  counted := h.counted.move hmove
  delivers := h.delivers.move h.counted hmove
  answers := hmove.answers h.answers
  retains := h.retains.move h.counted hmove

/-- Before the first batch there is nothing to account for. -/
theorem LintSession.accounted_opening [FileStore σ] (s : LintSession) (paths : List Path)
    (r : Resources σ) :
    (s.opening paths r).moment.Accounted (s.linterOf paths) (s.opening paths r).history where
  counted := trivial
  delivers := ⟨rfl, List.nodup_nil, fun k => by
    simp [opening, Moment.state, Moment.running, Moment.waiting]⟩
  answers m hm := absurd hm List.not_mem_nil
  retains := ⟨rfl, rfl⟩

/-- **The accounts are right wherever a run can come.** -/
theorem LintSession.accounted [FileStore σ] (s : LintSession) {paths : List Path}
    {r : Resources σ} {workers : Nat} {x : Scene σ}
    (h : (s.linterOf paths).Advances workers (s.opening paths r) x) :
    x.moment.Accounted (s.linterOf paths) x.history :=
  h.induct (motive := fun history moment => moment.Accounted (s.linterOf paths) history)
    (s.accounted_opening paths r) fun _ _ _ _ h hmove => h.move hmove

end ScriptLint
