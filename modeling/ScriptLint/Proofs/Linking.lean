/-
What the records of a module see when it is analyzed.

Requests are linked once for each batch, from the edges of the module to the records of
its targets, which may belong to the batch, to an earlier one or to the module itself.
When the first module of the batch is linked, all of them are there:

* **`Moment.Knows`** — the graph, as it is when the coordinator has done what it is busy
  with, has the records of the modules that were received, and of the batch the edges;
* **`Moment.Knows.move`** — every move of the run keeps that;
* **`LintSession.advances_links`** — so every record of a module that is analyzed sees
  exactly what its requests lead to.
-/
import ScriptLint.Proofs.Records

namespace ScriptLint

variable {σ : Type}

/-! ### The graph in the course of a run -/

/-- The graph when the coordinator has done what it is busy with. -/
def Closing.settled (c : Closing σ) : Closing.Control → ModuleGraph
  | .taking m left => (settle m (left.foldl Act.perform c)).state.graph
  | .linking left => left.foldl ModuleGraph.link c.state.graph
  | _ => c.state.graph

theorem Act.graph_perform {c c' : Closing σ} (h : c'.state.graph = c.state.graph) (a : Act) :
    (a.perform c').state.graph = (a.perform c).state.graph := by
  cases a with
  | dispatch target =>
    show (c'.dispatch target).state.graph = (c.dispatch target).state.graph
    unfold Closing.dispatch
    rw [h]
    split
    · exact h
    · rfl
  | report d => exact h
  | enter m => exact congrArg (Closing.enter m) h
  | record p i => exact congrArg (fun g : ModuleGraph => g.addRecord p i) h
  | miss p specifier e => exact congrArg (fun g : ModuleGraph => g.addUnresolved p specifier e) h
  | connect p specifier target =>
    exact congrArg (fun g : ModuleGraph => g.addEdge p specifier target) h

/-- What the workers do meanwhile does not matter. -/
theorem Closing.settled_congr {c c' : Closing σ} (h : c'.state.graph = c.state.graph)
    (control : Closing.Control) : c'.settled control = c.settled control := by
  cases control with
  | taking m left =>
    refine congrArg (Closing.conclude m) ?_
    induction left generalizing c c' with
    | nil => exact h
    | cons act left ih => exact ih (Act.graph_perform h act)
  | linking left => exact congrArg (left.foldl ModuleGraph.link) h
  | _ => exact h

/-- What is known while a batch is loaded: `prior` was received in earlier batches, and
`current` in this one. -/
structure Closing.Knows (prior current : List Module) (control : Closing.Control) (c : Closing σ) :
    Prop where
  received : current.map Module.path = c.received
  analyzable : ∀ m ∈ c.analyzable, m ∈ current
  remembers : (c.settled control).Remembers (prior ++ current ++ control.inHand)
  leads : (∀ left, control ≠ .linking left) →
    (c.settled control).Leads (current ++ control.inHand)
  links : ∀ left, control = .linking left →
    ∀ m ∈ current, (c.settled control).Links (prior ++ current) m

/-- What is known while a batch is analyzed. -/
structure Analyzing.Knows (received : List Module) (control : Analyzing.Control)
    (a : Analyzing σ) : Prop where
  remembers : a.state.graph.Remembers received
  links : ∀ m ∈ control.left ++ a.waiting.waiting ++ a.running,
    m ∈ received ∧ a.state.graph.Links received m

/-- What the graph knows of the modules that were received. -/
def Moment.Knows (received : List Module) : Moment σ → Prop
  | .between _ s => s.graph.Remembers received
  | .closing _ _ control c =>
    ∃ prior current, received = prior ++ current ∧ c.Knows prior current control
  | .analyzing _ _ _ control a => a.Knows received control

namespace Closing.Knows

variable {prior current : List Module} {control control' : Closing.Control} {c c' : Closing σ}

/-- Where the graph and what was received stay the same, nothing changes. -/
theorem congr (h : c.Knows prior current control) (hgraph : c'.settled control' = c.settled control)
    (hreceived : c'.received = c.received) (hanalyzable : c'.analyzable = c.analyzable)
    (hhand : control'.inHand = control.inHand)
    (hlinking : ∀ left, control' = .linking left → ∃ left, control = .linking left)
    (hbusy : ∀ left, control = .linking left → ∃ left, control' = .linking left) :
    c'.Knows prior current control' where
  received := h.received.trans hreceived.symm
  analyzable := by rw [hanalyzable]; exact h.analyzable
  remembers := by rw [hgraph, hhand]; exact h.remembers
  leads hnot := by
    rw [hgraph, hhand]
    refine h.leads fun left hleft => ?_
    obtain ⟨left', hleft'⟩ := hbusy left hleft
    exact hnot left' hleft'
  links left hleft := by
    rw [hgraph]
    obtain ⟨left', hleft'⟩ := hlinking left hleft
    exact h.links left' hleft'

/-- Handing out paths does not change what the graph knows. -/
theorem hands {targets fresh : List Path} (h : c.Knows prior current (.handing targets))
    {left : List Path} {p : Path} (hhands : Hands [p] fresh c (c.dispatch p)) :
    (c.dispatch p).Knows prior current (.handing left) where
  received := h.received.trans hhands.received.symm
  analyzable := by rw [hhands.analyzable]; exact h.analyzable
  remembers := h.remembers.of_nodes (graph_dispatch c p)
  leads _ := (h.leads (by simp)).of_nodes (graph_dispatch c p) fun k hk =>
    (hhands.dispatched k).mpr (.inr hk)
  links left hleft := by cases hleft

/-- The coordinator takes a module into its hand. -/
theorem take {m : Module} {more : List Module} (h : c.Knows prior current .waiting)
    (hnew : m.path.key ∉ (prior ++ current).map fun m => m.path.key) :
    (c.taken more).Knows prior current (.taking m (Act.ofModule m)) := by
  obtain ⟨fresh, hreceives⟩ := exists_receives m (c.taken more)
  have hsettled : (c.taken more).settled (.taking m (Act.ofModule m)) =
      (receive m (c.taken more)).state.graph := by rw [receive_eq]; rfl
  have hremembers : c.state.graph.Remembers (prior ++ current ++ []) := h.remembers
  have hleads : c.state.graph.Leads (current ++ []) := h.leads (by simp)
  rw [List.append_nil] at hremembers hleads
  obtain ⟨hremembers', hcore⟩ := hremembers.receive hnew hreceives.edits
  refine ⟨h.received, h.analyzable, ?_, fun _ => ?_, by simp⟩
  · rw [hsettled]
    exact hremembers'
  · rw [hsettled]
    refine hleads.receive ?_ hcore hreceives.edits
      (fun k hk => (hreceives.dispatched k).mpr (.inr hk)) hreceives.all
    intro hmem
    rw [List.map_append] at hnew
    exact hnew (List.mem_append_right _ hmem)

/-- The coordinator puts the module away. -/
theorem settle {m : Module} (h : c.Knows prior current (.taking m [])) :
    (c.settle m).Knows prior (current ++ [m]) .waiting where
  received := by rw [List.map_append, h.received]; rfl
  analyzable n hn := by
    have hn : n ∈ if m.content.isSome then c.analyzable ++ [m] else c.analyzable := hn
    split at hn
    · exact (List.mem_append.mp hn).elim (fun hn => List.mem_append_left _ (h.analyzable n hn))
        fun hn => List.mem_append_right _ hn
    · exact List.mem_append_left _ (h.analyzable n hn)
  remembers := by
    have hremembers : (c.settled (.taking m [])).Remembers (prior ++ current ++ [m]) := h.remembers
    show (c.settled (.taking m [])).Remembers (prior ++ (current ++ [m]) ++ [])
    rwa [List.append_nil, ← List.append_assoc]
  leads _ := by
    have hleads : (c.settled (.taking m [])).Leads (current ++ [m]) := h.leads (by simp)
    show (c.settled (.taking m [])).Leads (current ++ [m] ++ [])
    rwa [List.append_nil]
  links left hleft := by cases hleft

/-- When all modules of the batch are linked, what is known of the batch is known of the
modules to analyze. -/
theorem analyzed (h : c.Knows prior current (.linking [])) {m : Module} (hm : m ∈ c.analyzable) :
    m ∈ prior ++ current ∧ c.state.graph.Links (prior ++ current) m :=
  ⟨List.mem_append_right _ (h.analyzable m hm), h.links [] rfl m (h.analyzable m hm)⟩

end Closing.Knows

namespace Analyzing.Knows

variable {received : List Module} {control control' : Analyzing.Control} {a a' : Analyzing σ}

/-- Where the graph stays the same and no analysis is added, nothing changes. -/
theorem mono (h : a.Knows received control) (hgraph : a'.state.graph = a.state.graph)
    (hleft : ∀ m ∈ control'.left ++ a'.waiting.waiting ++ a'.running,
      m ∈ control.left ++ a.waiting.waiting ++ a.running) : a'.Knows received control' where
  remembers := by rw [hgraph]; exact h.remembers
  links m hm := by rw [hgraph]; exact h.links m (hleft m hm)

/-- A worker takes an analysis to its end. -/
theorem finish [FileStore σ] {l : Linter} {index : Nat} {m : Module}
    (h : a.Knows received control) (hm : a.running[index]? = some m) :
    (a.step l (.finish index)).Knows received control := by
  rw [Analyzing.step_finish l hm]
  refine h.mono rfl fun n hn => ?_
  exact (List.mem_append.mp hn).elim (List.mem_append_left _) fun hn =>
    List.mem_append_right _ (List.mem_of_mem_eraseIdx hn)

end Analyzing.Knows

namespace Moment

variable [FileStore σ] {l : Linter} {history : History} {batch : Batch} {rest : List Batch}
  {prior current : List Module}

/-- When nothing is outstanding, linking the batch links its modules. -/
theorem Delivers.links {c : Closing σ}
    (h : Delivers history (.closing batch rest .waiting c)) (hdone : c.outstanding = 0)
    (hcounted : c.Counted .waiting) (hanswers : ∀ m ∈ history.sent, l.Answers σ m)
    (hreceived : history.received = prior ++ current) (hknows : c.Knows prior current .waiting) :
    (c.reach batch .complete).Knows prior current (.linking c.received) := by
  obtain ⟨hwaiting, hrunning, hresults⟩ := hcounted.idle hdone
  -- what was handed out was sent, and what was sent was received
  have hsent : history.sent = prior ++ current := by
    have hdelivered : history.sent = history.received ++ [] ++ c.results.waiting := h.delivered
    rwa [hresults, List.append_nil, List.append_nil, hreceived] at hdelivered
  have hdispatches : c.state.graph.Dispatches ((prior ++ current).map Module.path) := by
    have hdispatches : c.state.graph.Dispatches
        (history.sent.map Module.path ++ c.running ++ c.waiting.waiting) := h.dispatches
    rwa [hrunning, hwaiting, List.append_nil, List.append_nil, hsent] at hdispatches
  have hremembers : c.state.graph.Remembers (prior ++ current ++ []) := hknows.remembers
  have hleads : c.state.graph.Leads (current ++ []) := hknows.leads (by simp)
  rw [List.append_nil] at hremembers hleads
  have hpaths : ((current.map Module.path).map Path.key).Nodup := by
    have hnodup := hdispatches.nodup
    rw [List.map_append, List.map_append] at hnodup
    exact hnodup.of_append_right
  have hsettled : (c.reach batch .complete).settled (.linking c.received) =
      (current.map Module.path).foldl ModuleGraph.link c.state.graph := by
    rw [hknows.received]
    rfl
  refine ⟨hknows.received, hknows.analyzable, ?_, fun hnot => absurd rfl (hnot _),
    fun left hleft m hm => ?_⟩
  · rw [hsettled]
    show ModuleGraph.Remembers (prior ++ current ++ []) _
    rw [List.append_nil]
    exact hremembers.links hpaths
  · obtain rfl := Closing.Control.linking.inj hleft
    rw [hsettled]
    refine hleads.links hremembers (fun k hk => ?_) hpaths hm
      (hanswers m (hsent ▸ List.mem_append_right _ hm))
    rw [← Function.comp_def, ← List.map_map]
    exact (hdispatches.mem k).mp hk

/-- **Every move keeps what the graph knows.** -/
theorem Knows.move {workers : Nat} {x y : Moment σ} {signal : Signal}
    (h : x.Knows history.received) (hcounted : x.Counted) (hdelivers : x.Delivers history)
    (hanswers : ∀ m ∈ history.sent, l.Answers σ m) (hmove : l.Move workers x signal y) :
    y.Knows (history.after signal).received := by
  cases hmove with
  | @opens batch rest s =>
    have hremembers : s.graph.Remembers history.received := h
    refine ⟨history.received, [], (List.append_nil _).symm, rfl, by simp [Closing.opened], ?_,
      fun _ => ⟨by simp [Closing.Control.inHand], by simp [Closing.Control.inHand]⟩, by simp⟩
    show s.graph.Remembers (history.received ++ [] ++ [])
    rwa [List.append_nil, List.append_nil]
  | @hands batch rest p left c =>
    obtain ⟨prior, current, hreceived, hknows⟩ := h
    obtain ⟨fresh, hhands⟩ := Closing.hands_dispatch c p
    exact ⟨prior, current, hreceived, hknows.hands hhands⟩
  | drains =>
    obtain ⟨prior, current, hreceived, hknows⟩ := h
    exact ⟨prior, current, hreceived, hknows.congr rfl rfl rfl rfl (by simp) (by simp)⟩
  | @loads batch rest control c hne hfree =>
    -- a worker leaves the graph alone
    obtain ⟨prior, current, hreceived, hknows⟩ := h
    obtain ⟨p, more, hp⟩ := List.exists_cons_of_ne_nil hne
    rw [Closing.step_start l hp]
    refine ⟨prior, current, hreceived, hknows.congr ?_ rfl rfl rfl
      (fun left hleft => ⟨left, hleft⟩) fun left hleft => ⟨left, hleft⟩⟩
    apply Closing.settled_congr
    rfl
  | @sends batch rest control c index p hp hother =>
    obtain ⟨prior, current, hreceived, hknows⟩ := h
    rw [Closing.step_finish l hp]
    refine ⟨prior, current, hreceived, hknows.congr ?_ rfl rfl rfl
      (fun left hleft => ⟨left, hleft⟩) fun left hleft => ⟨left, hleft⟩⟩
    apply Closing.settled_congr
    rfl
  | helps hp =>
    obtain ⟨prior, current, hreceived, hknows⟩ := h
    rw [Closing.step_start l hp]
    exact ⟨prior, current, hreceived, hknows.congr rfl rfl rfl rfl (by simp) (by simp)⟩
  | helped hp =>
    obtain ⟨prior, current, hreceived, hknows⟩ := h
    rw [Closing.step_finish l hp]
    exact ⟨prior, current, hreceived, hknows.congr rfl rfl rfl rfl (by simp) (by simp)⟩
  | @takes batch rest m more c hm =>
    obtain ⟨prior, current, hreceived, hknows⟩ := h
    refine ⟨prior, current, hreceived, hknows.take ?_⟩
    -- what was sent was sent once
    have hdelivered : history.sent = history.received ++ [] ++ c.results.waiting :=
      hdelivers.delivered
    have hnodup := hdelivers.nodup_sent
    rw [hdelivered, hm, List.append_nil, hreceived, List.map_append] at hnodup
    exact fun hmem => List.disjoint_of_nodup_append hnodup hmem List.mem_cons_self
  | @performs batch rest m act left c =>
    obtain ⟨prior, current, hreceived, hknows⟩ := h
    obtain ⟨fresh, hhands⟩ := act.hands_perform c
    exact ⟨prior, current, hreceived, hknows.congr rfl hhands.received hhands.analyzable rfl
      (by simp) (by simp)⟩
  | @settles batch rest m c =>
    -- the module joins the ones that were received in this batch
    obtain ⟨prior, current, hreceived, hknows⟩ := h
    refine ⟨prior, current ++ [m], ?_, hknows.settle⟩
    show history.received ++ [m] = _
    rw [hreceived, List.append_assoc]
  | closes hdone =>
    obtain ⟨prior, current, hreceived, hknows⟩ := h
    exact ⟨prior, current, hreceived,
      Delivers.links hdelivers hdone hcounted hanswers hreceived hknows⟩
  | links =>
    obtain ⟨prior, current, hreceived, hknows⟩ := h
    exact ⟨prior, current, hreceived, hknows.congr rfl rfl rfl rfl (by simp) (by simp)⟩
  | @turns batch rest c =>
    obtain ⟨prior, current, hreceived, hknows⟩ := h
    have hremembers : c.state.graph.Remembers (prior ++ current ++ []) := hknows.remembers
    rw [List.append_nil] at hremembers
    show Analyzing.Knows history.received _ _
    rw [hreceived]
    refine ⟨hremembers, fun m hm => hknows.analyzed ?_⟩
    have hm : m ∈ c.analyzable ++ [] ++ [] := hm
    rwa [List.append_nil, List.append_nil] at hm
  | @posts batch rest received m left a =>
    have h : a.Knows history.received _ := h
    refine h.mono rfl fun n hn => ?_
    simp only [Analyzing.post, Channel.send, Analyzing.Control.left, List.mem_append,
      List.mem_cons, List.not_mem_nil] at hn ⊢
    tauto
  | @posted batch rest received a => exact Analyzing.Knows.mono h rfl fun _ hn => hn
  | @inspects batch rest received control a hne hfree =>
    have h : a.Knows history.received control := h
    obtain ⟨m, more, hm⟩ := List.exists_cons_of_ne_nil hne
    rw [Analyzing.step_start l hm]
    refine h.mono rfl fun n hn => ?_
    simp only [hm, List.mem_append, List.mem_cons, List.not_mem_nil] at hn ⊢
    tauto
  | @reports batch rest received control a index m hm hother =>
    exact Analyzing.Knows.finish h hm
  | @assists batch rest received m more a hm =>
    have h : a.Knows history.received _ := h
    rw [Analyzing.step_start l hm]
    refine h.mono rfl fun n hn => ?_
    simp only [hm, Analyzing.Control.left, List.mem_append, List.mem_cons,
      List.not_mem_nil] at hn ⊢
    tauto
  | @assisted batch rest received a index m hm =>
    exact (Analyzing.Knows.finish h hm).mono rfl fun _ hn => hn
  | @counts batch rest received a hne =>
    have h : a.Knows history.received _ := h
    obtain ⟨counts, more, hcounts⟩ := List.exists_cons_of_ne_nil hne
    rw [Analyzing.step_receive l hcounts]
    exact ⟨h.remembers, h.links⟩
  | @counted batch rest received a hdone =>
    have h : a.Knows history.received _ := h
    exact ⟨h.remembers, h.links⟩
  | @releases batch rest received p left a =>
    have h : a.Knows history.received _ := h
    refine ⟨h.remembers.releaseDependency p, fun m hm => ?_⟩
    -- no analysis is left whose records could lose their edges
    have hcounted : a.Counted _ := hcounted
    have hpending := hcounted.pending
    rw [hcounted.releasing _ rfl] at hpending
    have hwaiting : a.waiting.waiting = [] := List.length_eq_zero_iff.mp (by omega)
    have hrunning : a.running = [] := List.length_eq_zero_iff.mp (by omega)
    have hm : m ∈ [] ++ a.waiting.waiting ++ a.running := hm
    simp [hwaiting, hrunning] at hm
  | @ends batch rest received a => exact Analyzing.Knows.remembers h

end Moment

end ScriptLint
