/-
What a loaded module is made of.

Loading a file fills two lists, one entry of each for every segment: a record for the graph,
and what the analysis is given.  Nothing but the index ties them together.  So each turn of
the loop has to add to both, whether the segment could be read or not; and whether the second
list is kept decides about the lease as well.

* **`Filling.Aligned`** — the two lists agree index by index;
* **`LoadSettings.aligned_fill`** — the loop over the segments fills them so, as each turn of
  it keeps them aligned (`LoadSettings.aligned_turn`);
* **`LoadSettings.Resolved`** — each specifier that is handled is resolved once;
* **`Module.Leased`** — what loading does to the pool;
* **`LoadSettings.load_aligned`** — what loading leaves, for every file, every registry of
  loaders and all settings.
-/
import ScriptLint.Proofs.Custody
import ScriptLint.Proofs.Findings

namespace ScriptLint

open Arena

/-! ### Two lists -/

/-- A segment as the analysis is given it: with its statements and its names, if it could be
read. -/
structure Pane where
  segment : Segment
  script : Option Script
  scope : Option Scope

/-- A part of a module as the analysis is given it. -/
def Part.pane (p : Part) : Pane where
  segment := p.segment
  script := p.outcome.toOption.map Extract.script
  scope := p.outcome.toOption.map Extract.scope

/-- What the analysis of a module is given.  That is nothing, unless its content is kept. -/
def Module.panes (m : Module) : List Pane := m.kept.map Part.pane

/-- The two lists that are filled while a file is loaded. -/
structure Filling where
  records : List (Except Diagnostic Extract) := []
  panes : List Pane := []

/-- The two lists fit the segments, and each other.  Both have one entry for each segment, in
order; what the analysis is given has statements unless the record is a problem, and names if
it has statements and they are kept; and a record carries its own index. -/
structure Filling.Aligned (kept : Bool) (segments : List Segment) (f : Filling) : Prop where
  length_records : f.records.length = segments.length
  segments_panes : f.panes.map Pane.segment = segments
  script : ∀ (i : Nat) pane record, f.panes[i]? = some pane → f.records[i]? = some record →
    (pane.script = none ↔ ∃ d, record = .error d)
  scope : kept = true → ∀ pane ∈ f.panes, pane.scope = none ↔ pane.script = none
  index : ∀ (i : Nat) e, f.records[i]? = some (.ok e) → e.interface.segment = i

/-- An entry of a list with one entry more is one from before, or the new one. -/
theorem getElem?_snoc {α : Type} {items : List α} {a b : α} {i : Nat}
    (h : (items ++ [a])[i]? = some b) :
    i < items.length ∧ items[i]? = some b ∨ i = items.length ∧ b = a := by
  rcases Nat.lt_trichotomy i items.length with hlt | rfl | hgt
  · rw [List.getElem?_append_left hlt] at h
    exact .inl ⟨hlt, h⟩
  · rw [List.getElem?_concat_length] at h
    exact .inr ⟨rfl, (Option.some.inj h).symm⟩
  · rw [List.getElem?_eq_none (by rw [List.length_append]; exact hgt)] at h
    cases h

namespace Filling

/-- Both lists with one entry more. -/
def push (f : Filling) (record : Except Diagnostic Extract) (pane : Pane) : Filling :=
  ⟨f.records ++ [record], f.panes ++ [pane]⟩

variable {kept : Bool} {segments : List Segment} {f : Filling}

/-- Before the first segment both lists are empty. -/
theorem Aligned.nil (kept : Bool) : Aligned kept [] {} where
  length_records := rfl
  segments_panes := rfl
  script i pane record hpane := by cases hpane
  scope _ pane hpane := by cases hpane
  index i e he := by cases he

/-- The lists stay aligned if both get an entry for the next segment. -/
theorem Aligned.push {record : Except Diagnostic Extract} {pane : Pane} {segment : Segment}
    (h : f.Aligned kept segments) (hsegment : pane.segment = segment)
    (hscript : pane.script = none ↔ ∃ d, record = .error d)
    (hscope : kept = true → (pane.scope = none ↔ pane.script = none))
    (hindex : ∀ e, record = .ok e → e.interface.segment = segments.length) :
    (f.push record pane).Aligned kept (segments ++ [segment]) := by
  have hlengths : f.panes.length = f.records.length := by
    rw [h.length_records, ← h.segments_panes, List.length_map]
  constructor
  case length_records => simp [Filling.push, h.length_records]
  case segments_panes => simp [Filling.push, h.segments_panes, hsegment]
  case script =>
    intro i pane' record' hpane' hrecord'
    rcases getElem?_snoc hpane' with ⟨hlt, hpane'⟩ | ⟨rfl, rfl⟩
    · rcases getElem?_snoc hrecord' with ⟨-, hrecord'⟩ | ⟨rfl, -⟩
      · exact h.script i pane' record' hpane' hrecord'
      · omega
    · rcases getElem?_snoc hrecord' with ⟨hlt, -⟩ | ⟨-, rfl⟩
      · omega
      · exact hscript
  case scope =>
    intro hkept pane' hpane'
    rcases List.mem_append.mp hpane' with hpane' | hpane'
    · exact h.scope hkept pane' hpane'
    · cases List.mem_singleton.mp hpane'
      exact hscope hkept
  case index =>
    intro i e he
    rcases getElem?_snoc he with ⟨-, hold⟩ | ⟨rfl, hnew⟩
    · exact h.index i e hold
    · rw [h.length_records]
      exact hindex e hnew.symm

end Filling

/-! ### The loop over the segments -/

namespace LoadSettings

variable {σ : Type} [FileStore σ] (s : LoadSettings) (files : σ) (path : Path)
  (entry composite : Bool)

/-- One turn of the loop over the segments: both lists get an entry.  Names are collected only
for what is kept. -/
def turn (f : Filling) (segment : Segment) (index : Nat) : Filling :=
  match segment.parse with
  | .error failure =>
    f.push (.error { failure.diagnostic with
      path, segment := if composite then some index else none }) ⟨segment, none, none⟩
  | .ok script =>
    f.push (.ok (s.extractOf files path entry index segment script))
      ⟨segment, some script,
        if s.keeps entry then some (Scope.ofBody script.body) else none⟩

/-- The two lists for the segments of a file. -/
def fill (segments : List Segment) : Filling :=
  segments.zipIdx.foldl (fun f x => s.turn files path entry composite f x.1 x.2) {}

theorem fill_concat (segments : List Segment) (segment : Segment) :
    s.fill files path entry composite (segments ++ [segment]) =
      s.turn files path entry composite (s.fill files path entry composite segments) segment
        segments.length := by
  rw [fill, List.zipIdx_append, List.foldl_append, ← fill]
  simp

variable {s files path entry composite}

/-- **One turn** keeps the lists aligned. -/
theorem aligned_turn {f : Filling} {segments : List Segment}
    (h : f.Aligned (s.keeps entry) segments) (segment : Segment) :
    (s.turn files path entry composite f segment segments.length).Aligned (s.keeps entry)
      (segments ++ [segment]) := by
  unfold LoadSettings.turn
  cases segment.parse with
  | error failure =>
    refine h.push rfl ?_ ?_ ?_
    · exact iff_of_true rfl ⟨_, rfl⟩
    · exact fun _ => iff_of_true rfl rfl
    · intro e he
      cases he
  | ok script =>
    refine h.push rfl ?_ ?_ ?_
    · refine iff_of_false (Option.some_ne_none _) ?_
      rintro ⟨d, hd⟩
      cases hd
    · intro hkept
      rw [if_pos hkept]
      exact iff_of_false (Option.some_ne_none _) (Option.some_ne_none _)
    · rintro _ ⟨⟩
      simp only [extractOf, interfaceOf]
      split <;> rfl

/-- **The loop** fills the lists so that they are aligned. -/
theorem aligned_fill (segments : List Segment) :
    (s.fill files path entry composite segments).Aligned (s.keeps entry) segments := by
  induction segments using List.reverseRecOn with
  | nil => exact .nil _
  | append_singleton segments segment ih =>
    rw [fill_concat]
    exact aligned_turn ih segment

theorem records_turn (f : Filling) (segment : Segment) (index : Nat) :
    (s.turn files path entry composite f segment index).records =
      f.records ++ [(s.part files path entry composite index segment).outcome] := by
  unfold turn
  cases hparse : segment.parse with
  | error failure =>
    rw [outcome_of_error hparse]
    rfl
  | ok script =>
    rw [outcome_of_ok hparse]
    rfl

theorem panes_turn (hkept : s.keeps entry = true) (f : Filling) (segment : Segment)
    (index : Nat) :
    (s.turn files path entry composite f segment index).panes =
      f.panes ++ [(s.part files path entry composite index segment).pane] := by
  unfold turn Part.pane
  cases hparse : segment.parse with
  | error failure =>
    rw [outcome_of_error hparse]
    rfl
  | ok script =>
    rw [outcome_of_ok hparse, hkept]
    rfl

/-- The parts of a file that has these segments. -/
def partsOf (s : LoadSettings) (files : σ) (path : Path) (entry composite : Bool)
    (segments : List Segment) : List Part :=
  segments.zipIdx.map fun x => s.part files path entry composite x.2 x.1

theorem partsOf_concat (segments : List Segment) (segment : Segment) :
    s.partsOf files path entry composite (segments ++ [segment]) =
      s.partsOf files path entry composite segments ++
        [s.part files path entry composite segments.length segment] := by
  simp [partsOf, List.zipIdx_append]

/-- The records of the loop are what became of the segments. -/
theorem records_fill (segments : List Segment) :
    (s.fill files path entry composite segments).records =
      (s.partsOf files path entry composite segments).map Part.outcome := by
  induction segments using List.reverseRecOn with
  | nil => rfl
  | append_singleton segments segment ih =>
    rw [fill_concat, records_turn, ih, partsOf_concat, List.map_append, List.map_singleton]

/-- The other list of the loop is what the analysis is given of them, if it is kept. -/
theorem panes_fill (hkept : s.keeps entry = true) (segments : List Segment) :
    (s.fill files path entry composite segments).panes =
      (s.partsOf files path entry composite segments).map Part.pane := by
  induction segments using List.reverseRecOn with
  | nil => rfl
  | append_singleton segments segment ih =>
    rw [fill_concat, panes_turn hkept, ih, partsOf_concat, List.map_append, List.map_singleton]

end LoadSettings

/-! ### Resolutions -/

namespace LoadSettings

/-- What a segment asks for is resolved: each specifier that the resolver handles once, and
nothing without a resolver. -/
def Resolved {σ : Type} [FileStore σ] (s : LoadSettings) (files : σ) (e : Extract) : Prop :=
  match s.resolver with
  | none => e.resolutions = []
  | some resolver => ∃ firsts,
    Request.Firsts (fun specifier => resolver.handles specifier = true) e.interface.requests
      firsts ∧
    e.resolutions = firsts.map fun r => ⟨r.specifier, r.span,
      (resolver.resolve (FileStore.isFile files) e.interface.path.parent r.specifier).mapError
        (·.error e.interface.path.parent)⟩

variable {σ : Type} [FileStore σ] {s : LoadSettings} {files : σ}

theorem resolved_of_eq {e : Extract} (h : e.resolutions = s.resolutions files e.interface) :
    s.Resolved files e := by
  unfold Resolved
  rw [h]
  unfold resolutions
  cases s.resolver with
  | none => rfl
  | some resolver =>
    exact ⟨_, firsts_handled resolver.handles e.interface.requests, rfl⟩

end LoadSettings

/-! ### Modules -/

theorem Arena.Pool.leased_acquire (p : Pool) : p.acquire.2.leased = p.leased + 1 := by
  unfold acquire
  split <;> rfl

namespace Module

/-- What loading a module does to the pool: there is one lease more if the module keeps one,
and none otherwise.  The lease is one that nobody else holds. -/
structure Leased (m : Module) (before after : Pool) : Prop where
  leased : after.leased = before.leased + m.lease?.toList.length
  lease : ∀ lease ∈ m.lease?, lease = before.acquire.1
  sound : ∀ live, before.Sound live → after.Sound (m.lease?.toList ++ live)

/-- What is settled for a module without content: whether it has content then, and with it the
lease.  Nothing else changes. -/
structure Settled (s : LoadSettings) (m m' : Module) (before after : Pool) : Prop where
  eq : m' = { m with content := m'.content }
  isSome_content : m'.content.isSome = s.keeps m.entry
  leased : m'.Leased before after

variable {s : LoadSettings} {m : Module} {pool : Pool}

/-- The content is kept, with the lease. -/
theorem settled_kept (hkept : s.keeps m.entry = true) (text : Bytes) :
    Settled s m { m with content := some ⟨pool.acquire.1, text⟩ } pool pool.acquire.2 where
  eq := rfl
  isSome_content := hkept.symm
  leased := {
    leased := pool.leased_acquire
    lease := fun _ hlease => (Option.some.inj hlease).symm
    sound := fun _ h => h.acquire.1 }

/-- The content is not kept, and all leases have ended. -/
theorem settled_dropped (hcontent : m.content = none) (hkept : ¬ s.keeps m.entry = true)
    {after : Pool} (hleased : after.leased = pool.leased)
    (hsound : ∀ live, pool.Sound live → after.Sound live) : Settled s m m pool after where
  eq := rfl
  isSome_content := by simp [hcontent, hkept]
  leased := {
    leased := by simp [lease?, hcontent, hleased]
    lease := by simp [lease?, hcontent]
    sound := by simpa [lease?, hcontent] using hsound }

variable {σ : Type}

/-- The lease is kept with the content, or ends. -/
theorem settled_settle (hcontent : m.content = none) (text : Bytes) (files : σ) :
    Settled s m (s.settle m text pool.acquire.1 ⟨files, pool.acquire.2⟩).1 pool
      (s.settle m text pool.acquire.1 ⟨files, pool.acquire.2⟩).2.pool := by
  unfold LoadSettings.settle
  split
  · exact settled_kept ‹_› text
  · refine settled_dropped hcontent ‹_› ?_ fun live h => h.acquire.1.giveBack
    rw [Pool.giveBack, Pool.leased_acquire, Nat.add_sub_cancel]

/-! A module has parts, or at most one record, which is a problem then. -/

theorem body_of_parts {parts : List Part} (h : m.parts = some parts) : m.body = .parts parts := by
  unfold Module.parts at h
  split at h
  · rename_i hbody
    rw [hbody, Option.some.inj h]
  · cases h

theorem records_of_parts {parts : List Part} (h : m.parts = some parts) :
    m.records = parts.map Part.outcome := by
  rw [records, body_of_parts h]

theorem panes_of_parts {parts : List Part} (h : m.parts = some parts) :
    m.panes = if m.content.isSome then parts.map Part.pane else [] := by
  rw [panes, kept, body_of_parts h]
  cases m.content <;> rfl

theorem bare_of_no_parts (h : m.parts = none) :
    m.panes = [] ∧ (m.records = [] ∨ ∃ d, m.records = [.error d]) := by
  unfold Module.parts at h
  unfold panes kept records
  cases hbody : m.body with
  | unsupported => cases m.content <;> exact ⟨rfl, .inl rfl⟩
  | refused d => cases m.content <;> exact ⟨rfl, .inr ⟨d, rfl⟩⟩
  | parts parts =>
    rw [hbody] at h
    cases h

end Module

namespace LoadSettings

variable {σ : Type} [FileStore σ] (s : LoadSettings)

/-- The segments of a file, if its form is known, and it can be read and cut. -/
def segments? (path : Path) (files : σ) : Option (List Segment) := do
  let form ← s.loaders.find? path.extension
  let text ← (FileStore.read path files).1.toOption
  (form.split path.extension text).toOption

variable {s} {path : Path} {entry : Bool} {r r' : Resources σ} {m : Module}

theorem parts_ofText {form : FileForm} {text : Bytes} (files : σ) :
    (s.ofText files path entry form text).parts =
      ((form.split path.extension text).toOption).map
        (s.partsOf files path entry (s.ofText files path entry form text).composite) := by
  unfold ofText
  cases form.split path.extension text with
  | error f => rfl
  | ok segments => rfl

/-- **Loading a module** is to find its parts, which are the segments of the file, and to settle
what becomes of its content. -/
theorem settled_load (h : s.load path entry r = (.ok m, r')) :
    ∃ m₀ : Module, m₀.entry = entry ∧ m₀.Settled s m r.pool r'.pool ∧
      m₀.parts =
        (s.segments? path r.files).map (s.partsOf r'.files path entry m₀.composite) := by
  unfold load at h
  unfold segments?
  cases hform : s.loaders.find? path.extension with
  | none =>
    rw [hform] at h
    refine ⟨{ path, entry, body := .unsupported }, rfl, ?_, rfl⟩
    dsimp only at h
    split at h
    · cases h
      exact Module.settled_kept ‹_› []
    · cases h
      exact Module.settled_dropped rfl ‹_› rfl fun live hlive => hlive
  | some form =>
    simp only [hform] at h
    generalize FileStore.read path r.files = answer at h ⊢
    obtain ⟨(e | reason) | text, files⟩ := answer
    · -- the file could not be read
      cases h
      exact ⟨ofUnreadable path entry e, rfl, Module.settled_settle rfl [] files, rfl⟩
    · cases h
    · cases h
      have hcontent := s.content_ofText files path entry form text
      refine ⟨s.ofText files path entry form text, s.entry_ofText .., ?_, ?_⟩
      · exact Module.settled_settle hcontent text files
      · rw [settle_eq]
        exact parts_ofText files

/-- What loading leaves of a file that has segments: two aligned lists, the second one only if
the content is kept. -/
structure Fills (s : LoadSettings) (files : σ) (path : Path) (entry : Bool) (m : Module)
    (segments : List Segment) : Prop where
  aligned : (s.fill files path entry m.composite segments).Aligned m.content.isSome segments
  records : m.records = (s.fill files path entry m.composite segments).records
  panes : m.panes = if m.content.isSome then
    (s.fill files path entry m.composite segments).panes else []

theorem fills_of_parts {files : σ} {segments : List Segment}
    (hcontent : m.content.isSome = s.keeps entry)
    (hparts : m.parts = some (s.partsOf files path entry m.composite segments)) :
    s.Fills files path entry m segments where
  aligned := hcontent ▸ aligned_fill segments
  records := by rw [Module.records_of_parts hparts, records_fill]
  panes := by
    rw [Module.panes_of_parts hparts]
    split
    · rw [panes_fill (hcontent ▸ ‹_›)]
    · rfl

/-- What a segment asks for is resolved, whatever segments there are. -/
theorem resolved_of_parts {files : σ} {composite : Bool} {segments : List Segment}
    (hparts : m.parts = some (s.partsOf files path entry composite segments)) {e : Extract}
    (he : .ok e ∈ m.records) : s.Resolved files e := by
  rw [Module.records_of_parts hparts, partsOf, List.map_map] at he
  obtain ⟨⟨segment, index⟩, -, he⟩ := List.mem_map.mp he
  exact resolved_of_eq (s.resolutions_part he)

/-- **What loading leaves.**  For every file, every registry of loaders and all settings, a
module that is loaded has content if it is an entry, or if dependencies keep theirs, and
otherwise it has none.  If the file has segments, there is one record for each of them and,
with content, one entry for the analysis, which fit each other by the index.  If it has none,
nothing is given to the analysis, and at most one problem to the graph.  In every segment that
could be read, each handled specifier is resolved once.  And one lease more is alive if the
module has content, which it holds. -/
theorem load_aligned (h : s.load path entry r = (.ok m, r')) :
    m.content.isSome = (entry || s.retainDependencies) ∧
      (∀ segments, s.segments? path r.files = some segments →
        s.Fills r'.files path entry m segments) ∧
      (s.segments? path r.files = none →
        m.panes = [] ∧ (m.records = [] ∨ ∃ d, m.records = [.error d])) ∧
      (∀ e, .ok e ∈ m.records → s.Resolved r'.files e) ∧
      m.Leased r.pool r'.pool := by
  obtain ⟨m₀, hentry, hsettled, hparts⟩ := settled_load h
  have hcontent : m.content.isSome = s.keeps entry := hentry ▸ hsettled.isSome_content
  have hparts : m.parts =
      (s.segments? path r.files).map (s.partsOf r'.files path entry m.composite) := by
    rw [hsettled.eq]
    exact hparts
  refine ⟨hcontent, ?fills, ?bare, ?resolved, hsettled.leased⟩
  case fills =>
    intro segments hsegments
    rw [hsegments] at hparts
    exact fills_of_parts hcontent hparts
  case bare =>
    intro hnone
    rw [hnone] at hparts
    exact Module.bare_of_no_parts hparts
  case resolved =>
    intro e he
    cases hsegments : s.segments? path r.files with
    | none =>
      rw [hsegments] at hparts
      rcases (Module.bare_of_no_parts hparts).2 with hrecords | ⟨d, hrecords⟩
      · rw [hrecords] at he
        cases he
      · rw [hrecords] at he
        cases List.mem_singleton.mp he
    | some segments =>
      rw [hsegments] at hparts
      exact resolved_of_parts hparts he

namespace Mixed

/-- A file with two scripts.  In the first one a module is imported twice, and a package in
between; in the second one a bracket is open. -/
def files : MemoryFiles :=
  MemoryFiles.empty.add ⟨"/a.vue"⟩ <|
    "<script>\nimport './b.js';\nimport 'p';\nimport './b.js';\n</script>\n" ++
      "<script>\nf(;\n</script>\n"

/-- The resolver does not handle packages. -/
def loading : LoadSettings := { loaders := .standard, resolver := some {} }

/-- A pool without arenas. -/
def pool : Pool := { capacity := 1, blockSize := 4096 }

/-- The file as it is loaded for an entry. -/
def loaded : Attempt Module × Resources MemoryFiles :=
  loading.load ⟨"/a.vue"⟩ true ⟨files, pool⟩

/-- What is resolved for a segment that can be read. -/
def resolved (record : Except Diagnostic Extract) : Option (List (Bytes × Span)) :=
  record.toOption.map fun e => e.resolutions.map fun r => (r.specifier, r.span)

/-- The file has two records and two entries for the analysis, of which the second ones are a
problem and nothing; the module that is imported twice is resolved once, where it is imported
first; and the only arena is lent to the module. -/
theorem load_aligned_mixed :
    ∃ m r' first second, loaded = (.ok m, r') ∧
      loading.segments? ⟨"/a.vue"⟩ files = some [first, second] ∧
      loading.Fills r'.files ⟨"/a.vue"⟩ true m [first, second] ∧
      (∀ e, .ok e ∈ m.records → loading.Resolved r'.files e) ∧
      m.Leased pool r'.pool ∧ r'.pool.leased = 1 ∧
      m.panes.map (fun pane => (pane.script.isSome, pane.scope.isSome)) =
        [(true, true), (false, false)] ∧
      m.records.map resolved =
        [some ([("./b.js", ⟨16, 24⟩)] : List (Bytes × Span)), none] := by
  have hsegments : loading.segments? ⟨"/a.vue"⟩ files =
      some [⟨"\nimport './b.js';\nimport 'p';\nimport './b.js';\n", 8, ⟨false, false⟩⟩,
        ⟨"\nf(;\n", 73, ⟨false, false⟩⟩] := by decide +kernel
  have hpanes : loaded.1.toOption.map (fun m =>
      m.panes.map fun pane => (pane.script.isSome, pane.scope.isSome)) =
        some [(true, true), (false, false)] := by decide +kernel
  have hrecords : loaded.1.toOption.map (fun m => m.records.map resolved) =
      some [some ([("./b.js", ⟨16, 24⟩)] : List (Bytes × Span)), none] := by decide +kernel
  have hleased : loaded.2.pool.leased = 1 := by decide +kernel
  rcases hloaded : loaded with ⟨mishap | m, r'⟩
  · rw [hloaded] at hpanes
    cases hpanes
  · rw [hloaded] at hpanes hrecords hleased
    obtain ⟨-, hfills, -, hresolved, hlease⟩ := load_aligned hloaded
    exact ⟨m, r', _, _, rfl, hsegments, hfills _ hsegments, hresolved, hlease, hleased,
      Option.some.inj hpanes, Option.some.inj hrecords⟩

end Mixed

end LoadSettings

end ScriptLint
