/-
How many contents a run keeps at a time.

The contents that a batch keeps are those of the entries that are received in it.  These
are reached from the paths of the batch through the imports of the modules that were sent,
and none of them was received before.  So if no path of a later batch is reached from an
earlier batch, they are paths of the batch itself, and no more than these:

* **`History.Imports`** — what the modules of an execution import, as their messages say;
* **`Moment.Confined`** — what is handed out in a batch is reached from the paths of the
  batch, and the paths of earlier batches were received;
* **`Closing.Confined.length_le`** — so a batch keeps no more contents than it has paths;
* **`LintSession.LeavesLater.history`** — what is reached in an execution over files in
  memory is reached through the imports in the files;
* **`LintSession.advances_bounded`** — the peak number of contents is at most the size of
  a batch, and between batches there are none.
-/
import Mathlib.Data.List.Perm.Subperm
import ScriptLint.Proofs.Messages
import ScriptLint.Proofs.Protocol

namespace ScriptLint

variable {σ : Type}

/-! ### Imports in the course of an execution -/

namespace History

/-- A module that was sent resolves one of its requests to another module. -/
def Imports (h : History) (a b : Path.Key) : Prop :=
  ∃ m ∈ h.sent, m.path.key = a ∧ b ∈ m.targets.map Path.key

/-- A module is reached from the paths of a batch. -/
def ReachedFrom (h : History) (batch : Batch) (k : Path.Key) : Prop :=
  ∃ p ∈ batch.paths, Relation.ReflTransGen h.Imports p.key k

/-- No path of a later batch is reached from an earlier batch. -/
def LeavesLater (h : History) (batches : List Batch) : Prop :=
  batches.Pairwise fun earlier later => ∀ q ∈ later.paths, ¬h.ReachedFrom earlier q.key

variable {h h' : History}

theorem ReachedFrom.mono (hsent : h.sent ⊆ h'.sent) {batch : Batch} {k : Path.Key}
    (hk : h.ReachedFrom batch k) : h'.ReachedFrom batch k := by
  obtain ⟨p, hp, hway⟩ := hk
  have hmono : h.Imports ≤ h'.Imports := fun a b ⟨m, hm, himports⟩ => ⟨m, hsent hm, himports⟩
  exact ⟨p, hp, Relation.ReflTransGen.mono hmono _ _ hway⟩

theorem LeavesLater.mono (hsent : h.sent ⊆ h'.sent) {batches : List Batch}
    (hlater : h'.LeavesLater batches) : h.LeavesLater batches :=
  List.Pairwise.imp (fun hpair q hq hk => hpair q hq (hk.mono hsent)) hlater

theorem sent_after (h : History) (signal : Signal) : h.sent ⊆ (h.after signal).sent := by
  cases signal with
  | sent m => exact List.subset_append_left _ _
  | silent | received | completed => exact List.Subset.refl _

end History

/-! ### What a batch hands out -/

/-- The acts that the coordinator has left to do with the module in its hand. -/
def Closing.Control.acts : Closing.Control → List Act
  | taking _ left => left
  | _ => []

/-- The paths of the batch that are left to be handed out. -/
def Closing.Control.paths : Closing.Control → List Path
  | handing left => left
  | _ => []

theorem Act.targets_ofModule (m : Module) : (Act.ofModule m).flatMap Act.targets = m.targets := by
  have hresolution (p : Path) (r : Resolution) :
      (ofResolution p r).flatMap targets = r.edge?.toList.map Edge.target := by
    unfold ofResolution Resolution.edge?
    cases r.outcome <;> rfl
  have hresolutions (p : Path) (rs : List Resolution) :
      (rs.flatMap (ofResolution p)).flatMap targets =
        (rs.filterMap Resolution.edge?).map Edge.target := by
    induction rs with
    | nil => rfl
    | cons r rest ih =>
      rw [List.flatMap_cons, List.flatMap_append, hresolution, ih, List.filterMap_cons]
      cases r.edge? <;> rfl
  have hrecord (o : Except Diagnostic Extract) :
      (ofRecord m.path o).flatMap targets = recordTargets o := by
    cases o with
    | error d => rfl
    | ok e => exact hresolutions m.path e.resolutions
  rw [Module.targets_eq, ofModule, List.flatMap_cons, List.flatMap_assoc]
  exact List.flatMap_congr fun o _ => hrecord o

/-- What is known of a batch that is being loaded: `prior` was received before it, and
`current` since. -/
structure Closing.Confined (history : History) (done : List Batch) (batch : Batch)
    (prior current : List Module) (control : Closing.Control) (c : Closing σ) : Prop where
  /-- The paths of earlier batches were received in them. -/
  earlier : ∀ b ∈ done, ∀ p ∈ b.paths, p.key ∈ prior.map fun m => m.path.key
  /-- The paths of the batch were handed out, apart from those that are left. -/
  handed : ∀ p ∈ batch.paths, p ∈ control.paths ∨ p.key ∈ c.state.graph.dispatched
  left : ∀ p ∈ control.paths, p ∈ batch.paths
  /-- What is under way was reached from the batch. -/
  reached : ∀ p ∈ (current ++ control.inHand ++ c.results.waiting).map Module.path ++ c.running ++
    c.waiting.waiting, history.ReachedFrom batch p.key
  /-- So were the targets of the module in the coordinator's hand. -/
  targets : ∀ t ∈ control.acts.flatMap Act.targets, history.ReachedFrom batch t.key
  analyzable : c.analyzable = current.filter fun m => m.content.isSome

/-- What is known between the moves of a run over the given batches. -/
def Moment.Confined (batches : List Batch) (history : History) : Moment σ → Prop
  | .between rest _ => ∃ done, batches = done ++ rest ∧
      ∀ b ∈ done, ∀ p ∈ b.paths, p.key ∈ history.received.map fun m => m.path.key
  | .closing batch rest control c => ∃ done prior current, batches = done ++ batch :: rest ∧
      history.received = prior ++ current ∧ c.Confined history done batch prior current control
  | .analyzing batch rest _ _ _ => ∃ done, batches = done ++ batch :: rest ∧
      ∀ b ∈ done ++ [batch], ∀ p ∈ b.paths, p.key ∈ history.received.map fun m => m.path.key

namespace Closing.Confined

variable {history : History} {done : List Batch} {batch : Batch} {prior current : List Module}
  {control control' : Closing.Control} {c c' : Closing σ}

/-- Paths are handed out that were reached from the batch. -/
theorem hands {targets fresh : List Path} (h : c.Confined history done batch prior current control)
    (hhands : Hands targets fresh c c') (htargets : ∀ p ∈ targets, history.ReachedFrom batch p.key)
    (hhand : control'.inHand = control.inHand)
    (hpaths : ∀ p ∈ control.paths, p ∈ targets ∨ p ∈ control'.paths)
    (hleft : ∀ p ∈ control'.paths, p ∈ control.paths)
    (hacts : ∀ t ∈ control'.acts.flatMap Act.targets, history.ReachedFrom batch t.key) :
    c'.Confined history done batch prior current control' where
  earlier := h.earlier
  handed p hp := by
    rcases h.handed p hp with hp | hp
    · exact (hpaths p hp).symm.imp id (hhands.all p)
    · exact .inr ((hhands.dispatched _).mpr (.inr hp))
  left p hp := h.left p (hleft p hp)
  reached p hp := by
    rw [hhand, hhands.results, hhands.running, hhands.waiting, ← List.append_assoc] at hp
    exact (List.mem_append.mp hp).elim (h.reached p) fun hp => htargets p (hhands.mem p hp)
  targets := hacts
  analyzable := by rw [hhands.analyzable]; exact h.analyzable

/-- A task is begun. -/
theorem start [FileStore σ] {l : Linter} {p : Path} {more : List Path}
    (h : c.Confined history done batch prior current control) (hp : c.waiting.waiting = p :: more)
    (hhand : control'.inHand = control.inHand) (hpaths : control'.paths = control.paths)
    (hacts : control'.acts = control.acts) :
    (c.step l .start).Confined history done batch prior current control' := by
  rw [step_start l hp]
  refine ⟨h.earlier, hpaths ▸ h.handed, hpaths ▸ h.left, fun q hq => h.reached q ?_,
    hacts ▸ h.targets, h.analyzable⟩
  rw [hhand] at hq
  simpa [hp, or_assoc] using hq

/-- A task ends with a message. -/
theorem finish [FileStore σ] {l : Linter} {index : Nat} {p : Path}
    (h : c.Confined history done batch prior current control) (hp : c.running[index]? = some p)
    (hhand : control'.inHand = control.inHand) (hpaths : control'.paths = control.paths)
    (hacts : control'.acts = control.acts) :
    (c.step l (.finish index)).Confined
      (history.after (.sent (loaded l p c.state.resources).1)) done batch prior current
      control' := by
  rw [step_finish l hp]
  refine ⟨h.earlier, hpaths ▸ h.handed, hpaths ▸ h.left, fun q hq => ?_, fun t ht => ?_,
    h.analyzable⟩
  · -- the path of the message was among those that run
    refine History.ReachedFrom.mono (History.sent_after _ _) (h.reached q ?_)
    rw [hhand] at hq
    simp only [Channel.send, List.map_append, List.map_singleton, path_loaded, List.mem_append,
      List.mem_singleton] at hq ⊢
    have hrunning : q ∈ c.running.eraseIdx index → q ∈ c.running := List.mem_of_mem_eraseIdx
    have hmem : p ∈ c.running := List.mem_of_getElem? hp
    rcases hq with ((hq | hq | rfl) | hq) | hq <;> tauto
  · exact History.ReachedFrom.mono (History.sent_after _ _) (h.targets t (hacts ▸ ht))

/-- The coordinator takes a module into its hand: its targets are imports of it. -/
theorem take {m : Module} {more : List Module}
    (h : c.Confined history done batch prior current .waiting) (hm : c.results.waiting = m :: more)
    (hsent : m ∈ history.sent) :
    (c.taken more).Confined history done batch prior current (.taking m (Act.ofModule m)) where
  earlier := h.earlier
  handed := h.handed
  left := h.left
  reached p hp := h.reached p <| by
    simpa [Control.inHand, taken, hm, or_assoc] using hp
  targets t ht := by
    have ht : t ∈ (Act.ofModule m).flatMap Act.targets := ht
    rw [Act.targets_ofModule] at ht
    obtain ⟨p, hp, hway⟩ := h.reached m.path (by simp [hm])
    exact ⟨p, hp, hway.tail ⟨m, hsent, rfl, List.mem_map_of_mem ht⟩⟩
  analyzable := h.analyzable

/-- The coordinator puts the module away. -/
theorem settle {m : Module} (h : c.Confined history done batch prior current (.taking m [])) :
    (c.settle m).Confined (history.after (.received m)) done batch prior (current ++ [m])
      .waiting where
  earlier := h.earlier
  handed p hp := (h.handed p hp).imp id fun hp => by
    show p.key ∈ (conclude m c.state.graph).dispatched
    rwa [dispatched_conclude]
  left := h.left
  reached p hp := h.reached p <| by
    have hp : p ∈ (current ++ [m] ++ [] ++ c.results.waiting).map Module.path ++ c.running ++
      c.waiting.waiting := hp
    rwa [List.append_nil] at hp
  targets t ht := absurd ht List.not_mem_nil
  analyzable := by
    show (if m.content.isSome then c.analyzable ++ [m] else c.analyzable) = _
    rw [List.filter_append, h.analyzable, List.filter_singleton]
    by_cases hm : m.content.isSome <;> simp [hm]

end Closing.Confined

/-- **Every move confines a batch to what it reaches.** -/
theorem Moment.Confined.move [FileStore σ] {l : Linter} {workers : Nat} {x y : Moment σ}
    {signal : Signal} {history : History} {batches : List Batch}
    (h : x.Confined batches history) (hcounted : x.Counted) (hdelivers : x.Delivers history)
    (hmove : l.Move workers x signal y) : y.Confined batches (history.after signal) := by
  cases hmove with
  | @opens batch rest s =>
    obtain ⟨done, hdone, hearlier⟩ := h
    exact ⟨done, history.received, [], hdone, (List.append_nil _).symm,
      { earlier := hearlier
        handed := fun p hp => .inl hp
        left := fun p hp => hp
        reached := fun p hp => absurd hp List.not_mem_nil
        targets := fun t ht => absurd ht List.not_mem_nil
        analyzable := rfl }⟩
  | @hands batch rest p left c =>
    obtain ⟨done, prior, current, hdone, hreceived, hconfined⟩ := h
    obtain ⟨fresh, hhands⟩ := Closing.hands_dispatch c p
    refine ⟨done, prior, current, hdone, hreceived, hconfined.hands hhands (fun q hq => ?_) rfl
      (fun q hq => ?_) (fun q hq => List.mem_cons_of_mem p hq) fun t ht => absurd ht List.not_mem_nil⟩
    · rw [List.mem_singleton.mp hq]
      exact ⟨p, hconfined.left p List.mem_cons_self, .refl⟩
    · exact (List.mem_cons.mp hq).imp (fun hq => List.mem_singleton.mpr hq) id
  | drains =>
    obtain ⟨done, prior, current, hdone, hreceived, hconfined⟩ := h
    exact ⟨done, prior, current, hdone, hreceived, hconfined.earlier, hconfined.handed,
      hconfined.left, hconfined.reached, hconfined.targets, hconfined.analyzable⟩
  | @loads batch rest control c hne hfree =>
    obtain ⟨done, prior, current, hdone, hreceived, hconfined⟩ := h
    obtain ⟨p, more, hp⟩ := List.exists_cons_of_ne_nil hne
    exact ⟨done, prior, current, hdone, hreceived, hconfined.start hp rfl rfl rfl⟩
  | sends hp hother =>
    obtain ⟨done, prior, current, hdone, hreceived, hconfined⟩ := h
    exact ⟨done, prior, current, hdone, hreceived, hconfined.finish hp rfl rfl rfl⟩
  | helps hp =>
    obtain ⟨done, prior, current, hdone, hreceived, hconfined⟩ := h
    exact ⟨done, prior, current, hdone, hreceived, hconfined.start hp rfl rfl rfl⟩
  | helped hp =>
    obtain ⟨done, prior, current, hdone, hreceived, hconfined⟩ := h
    exact ⟨done, prior, current, hdone, hreceived, hconfined.finish hp rfl rfl rfl⟩
  | @takes batch rest m more c hm =>
    obtain ⟨done, prior, current, hdone, hreceived, hconfined⟩ := h
    have hdelivered : history.sent = history.received ++ [] ++ c.results.waiting :=
      hdelivers.delivered
    refine ⟨done, prior, current, hdone, hreceived, hconfined.take hm ?_⟩
    rw [hdelivered, hm]
    exact List.mem_append_right _ List.mem_cons_self
  | @performs batch rest m act left c =>
    obtain ⟨done, prior, current, hdone, hreceived, hconfined⟩ := h
    obtain ⟨fresh, hhands⟩ := act.hands_perform c
    have htargets : ∀ t ∈ act.targets ++ left.flatMap Act.targets,
        history.ReachedFrom batch t.key := hconfined.targets
    exact ⟨done, prior, current, hdone, hreceived, hconfined.hands hhands
      (fun t ht => htargets t (List.mem_append_left _ ht)) rfl
      (fun q hq => absurd hq List.not_mem_nil) (fun q hq => absurd hq List.not_mem_nil)
      fun t ht => htargets t (List.mem_append_right _ ht)⟩
  | @settles batch rest m c =>
    obtain ⟨done, prior, current, hdone, hreceived, hconfined⟩ := h
    refine ⟨done, prior, current ++ [m], hdone, ?_, hconfined.settle⟩
    show history.received ++ [m] = _
    rw [hreceived, List.append_assoc]
  | closes hdone =>
    obtain ⟨done, prior, current, hbatches, hreceived, hconfined⟩ := h
    exact ⟨done, prior, current, hbatches, hreceived, hconfined.earlier, hconfined.handed,
      hconfined.left, hconfined.reached, hconfined.targets, hconfined.analyzable⟩
  | @links batch rest p left c =>
    obtain ⟨done, prior, current, hdone, hreceived, hconfined⟩ := h
    refine ⟨done, prior, current, hdone, hreceived, hconfined.earlier, fun q hq => ?_,
      hconfined.left, hconfined.reached, hconfined.targets, hconfined.analyzable⟩
    refine (hconfined.handed q hq).imp id fun hq => ?_
    show q.key ∈ (c.state.graph.link p).dispatched
    rwa [ModuleGraph.dispatched_link]
  | @turns batch rest c =>
    -- with nothing under way, what was handed out was received
    obtain ⟨done, prior, current, hdone, hreceived, hconfined⟩ := h
    have hcounted : c.Counted (.linking []) := hcounted
    obtain ⟨hwaiting, hrunning, hresults⟩ := hcounted.idle (hcounted.linking [] rfl)
    have hdelivered : history.sent = history.received ++ [] ++ c.results.waiting :=
      hdelivers.delivered
    have hdispatches : c.state.graph.Dispatches
        (history.sent.map Module.path ++ c.running ++ c.waiting.waiting) := hdelivers.dispatches
    rw [hwaiting, hrunning, hdelivered, hresults] at hdispatches
    simp only [List.append_nil] at hdispatches
    refine ⟨done, hdone, fun b hb p hp => ?_⟩
    show p.key ∈ history.received.map fun m => m.path.key
    rcases List.mem_append.mp hb with hb | hb
    · rw [hreceived, List.map_append]
      exact List.mem_append_left _ (hconfined.earlier b hb p hp)
    · rw [List.mem_singleton.mp hb] at hp
      rcases hconfined.handed p hp with hp | hp
      · exact absurd hp List.not_mem_nil
      · have hmem := (hdispatches.mem _).mp hp
        rwa [List.map_map] at hmem
  | @ends batch rest received a =>
    obtain ⟨done, hdone, hearlier⟩ := h
    exact ⟨done ++ [batch], by rw [hdone, List.append_assoc]; rfl, hearlier⟩
  -- the rest is about analyses
  | posts | posted | inspects | reports | assists | assisted | counts | counted | releases =>
    exact h

/-! ### What a batch keeps -/

/-- Only entries keep their content, where that of dependencies is not retained. -/
theorem Linter.Answers.contains_of_content [FileStore σ] {l : Linter} {m : Module}
    (hretain : l.loading.retainDependencies = false) (h : l.Answers σ m)
    (hcontent : m.content.isSome = true) : l.entries.contains m.path = true := by
  by_contra hentry
  rw [Bool.not_eq_true] at hentry
  have hkeeps : l.loading.keeps false = false := by rw [LoadSettings.keeps, hretain]; rfl
  have hsettle (m' : Module) (hm' : m'.content = none) (hm'' : m'.entry = false) (text : Bytes)
      (lease : Arena.Lease) (r : Resources σ) :
      (l.loading.settle m' text lease r).1.content = none := by
    rw [LoadSettings.settle, hm'', hkeeps]
    exact hm'
  suffices hnone : m.content = none by rw [hnone] at hcontent; exact absurd hcontent (by simp)
  obtain ⟨r, hload | ⟨mishap, -, hbroken⟩⟩ := h
  · rw [hentry, LoadSettings.load] at hload
    cases hform : l.loading.loaders.find? m.path.extension with
    | none =>
      simp only [hform, hkeeps, Bool.false_eq_true, if_false, Except.ok.injEq] at hload
      rw [← hload]
    | some form =>
      simp only [hform] at hload
      generalize FileStore.read m.path r.files = answer at hload
      obtain ⟨outcome, files⟩ := answer
      rcases outcome with (e | reason) | text
      · simp only [Except.ok.injEq] at hload
        rw [← hload]
        exact hsettle _ rfl rfl _ _ _
      · simp at hload
      · simp only [Except.ok.injEq] at hload
        rw [← hload]
        exact hsettle _ (LoadSettings.content_ofText _ _ _ _ _ _) (LoadSettings.entry_ofText ..) _ _ _
  · rw [hbroken]
    rfl

/-- A batch has no more paths than its size, or one if that is zero. -/
theorem Schedule.length_of_mem_chunks {α : Type} {size : Nat} {items chunk : List α}
    (h : chunk ∈ chunks size items) : chunk.length ≤ max 1 size := by
  induction items using chunks.induct size with
  | case1 => simp [chunks] at h
  | case2 first rest ih =>
    rw [chunks, List.mem_cons] at h
    rcases h with rfl | h
    · rw [List.length_cons, List.length_take]
      omega
    · exact ih h

theorem length_of_mem_schedule {paths : PathSet} {concurrency multiplier : UInt64}
    {ordering : BatchOrder} {b : Batch} (h : b ∈ schedule paths concurrency multiplier ordering) :
    b.paths.length ≤ max 1 (Schedule.batchSize concurrency multiplier).toNat := by
  unfold schedule at h
  obtain ⟨x, hx, rfl⟩ := List.mem_map.mp h
  exact Schedule.length_of_mem_chunks (List.fst_mem_of_mem_zipIdx hx)

/-- The size of a batch is its product, unless that does not fit a word. -/
theorem Schedule.toNat_batchSize_le (concurrency multiplier : UInt64) :
    max 1 (batchSize concurrency multiplier).toNat ≤
      max 1 concurrency.toNat * max 1 multiplier.toNat := by
  have hpos : 1 * 1 ≤ max 1 concurrency.toNat * max 1 multiplier.toNat :=
    Nat.mul_le_mul (le_max_left _ _) (le_max_left _ _)
  rw [toNat_batchSize]
  exact max_le hpos (Nat.mod_le _ _)

namespace Closing.Confined

variable [FileStore σ] {s : LintSession} {paths : List Path} {history : History}
  {done rest : List Batch} {batch : Batch} {prior current : List Module}
  {control : Closing.Control} {c : Closing σ}

/-- **A batch keeps no more contents than it has paths**, if nothing that it reaches belongs
to a later batch. -/
theorem length_le (h : c.Confined history done batch prior current control)
    (hretain : s.options.retainDependencies = false)
    (hbatches : s.batches paths = done ++ batch :: rest)
    (hreceived : history.received = prior ++ current)
    (hdelivers : Moment.Delivers history (.closing batch rest control c))
    (hanswers : ∀ m ∈ history.sent, (s.linterOf paths).Answers σ m)
    (hlater : history.LeavesLater (s.batches paths)) :
    c.analyzable.length ≤ batch.paths.length := by
  have hdelivered : history.sent = history.received ++ control.inHand ++ c.results.waiting :=
    hdelivers.delivered
  rw [hreceived] at hdelivered
  have hsub : prior ++ current <+: history.sent :=
    ⟨control.inHand ++ c.results.waiting, by rw [hdelivered, ← List.append_assoc]⟩
  -- what was received was received once
  have hnodup : ((prior ++ current).map fun m => m.path.key).Nodup :=
    hdelivers.nodup_sent.sublist (hsub.sublist.map _)
  rw [List.map_append] at hnodup
  have hkeys : (c.analyzable.map fun m => m.path.key) ⊆ batch.paths.map Path.key := by
    intro k hk
    obtain ⟨m, hm, rfl⟩ := List.mem_map.mp hk
    rw [h.analyzable] at hm
    obtain ⟨hcurrent, hcontent⟩ := List.mem_filter.mp hm
    have hsent : m ∈ history.sent := hsub.subset (List.mem_append_right _ hcurrent)
    have hreach : history.ReachedFrom batch m.path.key :=
      h.reached m.path (List.mem_append_left _ (List.mem_append_left _ (List.mem_map_of_mem
        (List.mem_append_left _ (List.mem_append_left _ hcurrent)))))
    -- the module is an entry, so it belongs to some batch
    obtain ⟨q, hq, hkey⟩ := (PathSet.contains_iff _ _).mp
      ((hanswers m hsent).contains_of_content hretain hcontent)
    obtain ⟨b, hb, hqb⟩ := mem_schedule.mpr hq
    have hb : b ∈ done ++ batch :: rest := hbatches ▸ hb
    rcases List.mem_append.mp hb with hb | hb
    · -- not to an earlier one, whose paths were received before
      refine absurd (h.earlier b hb q hqb) fun hprior => ?_
      refine List.disjoint_of_nodup_append hnodup hprior ?_
      rw [hkey]
      exact List.mem_map_of_mem hcurrent
    rcases List.mem_cons.mp hb with rfl | hb
    · exact List.mem_map.mpr ⟨q, hqb, hkey⟩
    · -- and not to a later one, whose paths are not reached
      rw [hbatches] at hlater
      have hpair := List.rel_of_pairwise_cons (List.pairwise_append.mp hlater).2.1 hb q hqb
      exact absurd (hkey ▸ hreach) hpair
  have hnodup' : (c.analyzable.map fun m => m.path.key).Nodup := by
    rw [h.analyzable]
    exact hnodup.of_append_right.sublist (List.filter_sublist.map _)
  simpa using (hnodup'.subperm hkeys).length_le

end Closing.Confined

/-! ### Imports in files -/

namespace LintSession

variable (s : LintSession) (paths : List Path) (files : MemoryFiles)

/-- No path of a later batch is reached from an earlier batch through the imports in the
files. -/
def LeavesLater : Prop :=
  (s.batches paths).Pairwise fun earlier later => ∀ p ∈ earlier.paths, ∀ q ∈ later.paths,
    ¬Relation.ReflTransGen ((s.linterOf paths).Imports files) p.key q.key

variable {s paths files}

/-- What is not reached through the imports in the files is not reached in an execution. -/
theorem LeavesLater.history {r : Resources MemoryFiles} {workers : Nat}
    {x : Scene MemoryFiles} (hlater : s.LeavesLater paths r.files)
    (h : (s.linterOf paths).Advances workers (s.opening paths r) x) :
    x.history.LeavesLater (s.batches paths) := by
  have hmono : x.history.Imports ≤ (s.linterOf paths).Imports r.files := by
    rintro a b ⟨m, hm, rfl, hb⟩
    obtain ⟨t, ht, rfl⟩ := List.mem_map.mp hb
    exact imports_of_sent h hm ht
  refine List.Pairwise.imp (fun hpair q hq hreached => ?_) hlater
  obtain ⟨p, hp, hway⟩ := hreached
  exact hpair p hp q hq (Relation.ReflTransGen.mono hmono _ _ hway)

end LintSession

/-! ### The bound -/

/-- The peak number of contents is within a bound. -/
def Moment.Within (bound : Nat) (x : Moment σ) : Prop := x.state.counts.peakRetained ≤ bound

/-- A move raises the peak only when a module is put away, and then to no more than is kept
after it. -/
theorem Moment.Within.move [FileStore σ] {l : Linter} {workers bound : Nat} {x y : Moment σ}
    {signal : Signal} (h : x.Within bound) (hmove : l.Move workers x signal y)
    (hkept : ∀ batch rest c, y = .closing batch rest .waiting c → c.state.counts.retained ≤ bound) :
    y.Within bound := by
  cases hmove with
  | @hands batch rest p left c =>
    obtain ⟨fresh, hhands⟩ := Closing.hands_dispatch c p
    show (c.dispatch p).state.counts.peakRetained ≤ bound
    rw [hhands.counts]
    exact h
  | @loads batch rest control c hne hfree =>
    obtain ⟨p, more, hp⟩ := List.exists_cons_of_ne_nil hne
    rw [Closing.step_start l hp]
    exact h
  | sends hp hother => rw [Closing.step_finish l hp]; exact h
  | helps hp => rw [Closing.step_start l hp]; exact h
  | helped hp => rw [Closing.step_finish l hp]; exact h
  | @performs batch rest m act left c =>
    obtain ⟨fresh, hhands⟩ := act.hands_perform c
    show (act.perform c).state.counts.peakRetained ≤ bound
    rw [hhands.counts]
    exact h
  | settles => exact max_le h (hkept _ _ _ rfl)
  | @inspects batch rest received control a hne hfree =>
    obtain ⟨m, more, hm⟩ := List.exists_cons_of_ne_nil hne
    rw [Analyzing.step_start l hm]
    exact h
  | reports hm hother => rw [Analyzing.step_finish l hm]; exact h
  | assists hm => rw [Analyzing.step_start l hm]; exact h
  | assisted hm => rw [Analyzing.step_finish l hm]; exact h
  | @counts batch rest received a hne =>
    obtain ⟨counts, more, hcounts⟩ := List.exists_cons_of_ne_nil hne
    rw [Analyzing.step_receive l hcounts]
    exact h
  | opens | drains | takes | closes | links | turns | posts | posted | counted | releases | ends =>
    exact h

/-- **A run keeps no more contents at a time than a batch has paths**, for any files, number
of workers and order of moves, if contents of dependencies are not retained and no path of a
later batch is reached from an earlier one.  When a batch is over, all contents that were
received have been given back. -/
theorem LintSession.advances_bounded [FileStore σ] (s : LintSession) {paths : List Path}
    {r : Resources σ} {workers : Nat} {x : Scene σ}
    (h : (s.linterOf paths).Advances workers (s.opening paths r) x)
    (hretain : s.options.retainDependencies = false)
    (hlater : x.history.LeavesLater (s.batches paths)) :
    x.moment.state.counts.peakRetained ≤
        max 1 s.options.concurrency.toNat * max 1 s.options.batchMultiplier.toNat ∧
      ∀ rest state, x.moment = .between rest state → state.counts.retained = 0 ∧
        x.history.completed = x.history.received.countP fun m => m.content.isSome := by
  have hinvariant : x.moment.Accounted (s.linterOf paths) x.history ∧
      x.moment.Confined (s.batches paths) x.history ∧
      (x.history.LeavesLater (s.batches paths) → x.moment.Within
        (max 1 (Schedule.batchSize s.options.concurrency.toUInt64
          s.options.batchMultiplier).toNat)) := by
    refine h.induct (motive := fun history moment =>
      moment.Accounted (s.linterOf paths) history ∧ moment.Confined (s.batches paths) history ∧
      (history.LeavesLater (s.batches paths) → moment.Within _)) ?_ ?_
    · exact ⟨s.accounted_opening paths r, ⟨[], rfl, by simp⟩, fun _ => Nat.zero_le _⟩
    · rintro history moment signal moment' ⟨haccounted, hconfined, hwithin⟩ hmove
      have haccounted' := haccounted.move hmove
      have hconfined' := hconfined.move haccounted.counted haccounted.delivers hmove
      refine ⟨haccounted', hconfined', fun hlater => ?_⟩
      refine (hwithin (hlater.mono (history.sent_after signal))).move hmove ?_
      rintro batch rest c rfl
      obtain ⟨done, prior, current, hbatches, hreceived, hconfined'⟩ := hconfined'
      have hretained : c.state.counts.retained = c.analyzable.length := haccounted'.retains.retained
      have hmem : batch ∈ s.batches paths := hbatches ▸ List.mem_append_right _ List.mem_cons_self
      rw [hretained]
      exact (hconfined'.length_le hretain hbatches hreceived haccounted'.delivers
        haccounted'.answers hlater).trans (length_of_mem_schedule hmem)
  obtain ⟨haccounted, -, hwithin⟩ := hinvariant
  refine ⟨?_, ?_⟩
  · have hsize := Schedule.toNat_batchSize_le s.options.concurrency.toUInt64
      s.options.batchMultiplier
    rw [UInt32.toNat_toUInt64] at hsize
    exact (hwithin hlater).trans hsize
  · rintro rest state hbetween
    have hretains := haccounted.retains
    rw [hbetween] at hretains
    exact ⟨hretains.retained, hretains.balance.symm⟩

/-- Two modules that share a dependency, the second one of which imports the first. -/
def MemoryFiles.shared : MemoryFiles :=
  ((MemoryFiles.empty.add "/a.js" "import './c.js';\n").add "/b.js"
    "import './c.js';\nimport './a.js';\n").add "/c.js" "import './c.js';\n"

/-- Batches of one path each. -/
def LintSession.single : LintSession :=
  { standard with options := { batchMultiplier := 1, ordering := .insertion } }

/-- Of two entries that share a dependency, each in a batch of its own and the second one
importing the first, no more than one content is kept at a time. -/
theorem LintSession.advances_bounded_single : ∃ (history : History) (state : RunState MemoryFiles),
    (single.linterOf [⟨"/a.js"⟩, ⟨"/b.js"⟩]).Advances 2
      (single.opening [⟨"/a.js"⟩, ⟨"/b.js"⟩] ⟨MemoryFiles.shared, single.pool⟩)
      ⟨history, .between [] state⟩ ∧
    (single.batches [⟨"/a.js"⟩, ⟨"/b.js"⟩]).map Batch.paths = [[⟨"/a.js"⟩], [⟨"/b.js"⟩]] ∧
    state.counts.peakRetained ≤ 1 ∧ state.counts.retained = 0 := by
  have hbatches : single.batches [⟨"/a.js"⟩, ⟨"/b.js"⟩] = [⟨0, [⟨"/a.js"⟩]⟩, ⟨1, [⟨"/b.js"⟩]⟩] := by
    decide +kernel
  -- the first module imports the dependency, and this imports itself
  have hfirst (k : Path.Key) : (single.linterOf [⟨"/a.js"⟩, ⟨"/b.js"⟩]).Imports MemoryFiles.shared
      (Path.key ⟨"/a.js"⟩) k ↔ k ∈ [Path.key ⟨"/c.js"⟩] := by
    rw [Linter.imports_iff]
    exact iff_of_eq (congrArg (k ∈ ·) (by decide +kernel))
  have hsecond (k : Path.Key) : (single.linterOf [⟨"/a.js"⟩, ⟨"/b.js"⟩]).Imports MemoryFiles.shared
      (Path.key ⟨"/c.js"⟩) k ↔ k ∈ [Path.key ⟨"/c.js"⟩] := by
    rw [Linter.imports_iff]
    exact iff_of_eq (congrArg (k ∈ ·) (by decide +kernel))
  have hreached (k : Path.Key) (hway : Relation.ReflTransGen
      ((single.linterOf [⟨"/a.js"⟩, ⟨"/b.js"⟩]).Imports MemoryFiles.shared) (Path.key ⟨"/a.js"⟩) k) :
      k ∈ [Path.key ⟨"/a.js"⟩, Path.key ⟨"/c.js"⟩] := by
    induction hway with
    | refl => exact List.mem_cons_self
    | tail _ himports ih =>
      rcases List.mem_pair.mp ih with rfl | rfl
      · exact List.mem_cons_of_mem _ ((hfirst _).mp himports)
      · exact List.mem_cons_of_mem _ ((hsecond _).mp himports)
  have hlater : single.LeavesLater [⟨"/a.js"⟩, ⟨"/b.js"⟩] MemoryFiles.shared := by
    rw [LeavesLater, hbatches, List.pairwise_pair]
    intro p hp q hq hway
    rw [List.mem_singleton.mp hp, List.mem_singleton.mp hq] at hway
    exact absurd (hreached _ hway) (by decide)
  obtain ⟨history, state, hadvances, hrun⟩ := single.exists_advances
    (List.cons_ne_nil (⟨"/a.js"⟩ : Path) [⟨"/b.js"⟩]) ⟨MemoryFiles.shared, single.pool⟩ 2
  have hbounded := advances_bounded single hadvances (by decide) (hlater.history hadvances)
  exact ⟨history, state, hadvances, by rw [hbatches]; rfl, hbounded.1, (hbounded.2 [] state rfl).1⟩

end ScriptLint
