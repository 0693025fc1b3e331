/-
Which modules import which.

What the graph and the rules take from a loaded module is a function of its keyed
body, so two modules with the same keyed body have the same problems, the same
targets and the same interfaces, up to the spelling of paths:

* **`Module.targets_congr`**, **`Module.diagnostics_congr`**,
  **`Module.interfaces_congr`** — what is read off a module;
* **`Request.Firsts`** — each specifier that is wanted once, as it is first requested;
* **`Linter.Imports`** — the imports between modules, by keys, as the files have
  them;
* **`Linter.Reaches`** — the least set of modules that contains the entries and is
  closed under imports;
* **`Linter.linkTable`** — the interfaces that the requests of a segment lead to.
-/
import Mathlib.Logic.Relation
import ScriptLint.Proofs.Loading

namespace ScriptLint

namespace Module

/-! ### Read off a keyed body -/

/-- The part of a keyed module that does not depend on who asked for it. -/
def Keyed.body (k : Keyed) :
    Bool × Option (Path.Key × Diagnostic) × Option (List (Segment × Except (Path.Key × Diagnostic)
      (Script × (Path.Key × Interface) × List (Bytes × Span × Except Bytes Path.Key)))) :=
  (k.composite, k.refusal, k.parts)

variable {m m' : Module}

theorem composite_congr (h : m.keyed.body = m'.keyed.body) : m.composite = m'.composite :=
  congrArg Prod.fst h

theorem refusal_congr (h : m.keyed.body = m'.keyed.body) :
    m.refusal.map Diagnostic.keyed = m'.refusal.map Diagnostic.keyed :=
  congrArg (fun b => b.2.1) h

theorem parts_congr (h : m.keyed.body = m'.keyed.body) :
    m.parts.map (List.map fun p => (p.segment, keyedOutcome p.outcome)) =
      m'.parts.map (List.map fun p => (p.segment, keyedOutcome p.outcome)) :=
  congrArg (fun b => b.2.2) h

theorem records_eq (m : Module) :
    m.records = (m.refusal.map .error).toList ++ (m.parts.getD []).map Part.outcome := by
  rw [records, refusal, parts]
  cases m.body <;> simp

theorem records_congr (h : m.keyed.body = m'.keyed.body) :
    m.records.map keyedOutcome = m'.records.map keyedOutcome := by
  have hparts (m : Module) : ((m.parts.getD []).map Part.outcome).map keyedOutcome =
      ((m.parts.map (List.map fun p => (p.segment, keyedOutcome p.outcome))).getD []).map
        Prod.snd := by
    cases m.parts <;> simp
  have hrefusal (m : Module) : (m.refusal.map .error).toList.map keyedOutcome =
      ((m.refusal.map Diagnostic.keyed).map .error).toList := by
    cases m.refusal <;> rfl
  rw [records_eq, records_eq, List.map_append, List.map_append, hparts, hparts, hrefusal, hrefusal,
    refusal_congr h, parts_congr h]

theorem diagnostics_congr (h : m.keyed.body = m'.keyed.body) :
    m.diagnostics.map Diagnostic.keyed = m'.diagnostics.map Diagnostic.keyed := by
  have hread (m : Module) : m.diagnostics.map Diagnostic.keyed =
      (m.records.map keyedOutcome).filterMap fun
        | .error d => some d
        | .ok _ => none := by
    rw [diagnostics, List.map_filterMap, List.filterMap_map]
    refine List.filterMap_congr fun o _ => ?_
    cases o <;> rfl
  rw [hread, hread, records_congr h]

theorem failed_congr (h : m.keyed.body = m'.keyed.body) : m.failed = m'.failed := by
  have hempty := congrArg List.isEmpty (diagnostics_congr h)
  rw [List.isEmpty_map, List.isEmpty_map] at hempty
  rw [failed, failed, hempty]

theorem isSupported_congr (h : m.keyed.body = m'.keyed.body) : m.isSupported = m'.isSupported := by
  have hread (m : Module) : m.isSupported =
      ((m.refusal.map Diagnostic.keyed).isSome ||
        (m.parts.map (List.map fun p => (p.segment, keyedOutcome p.outcome))).isSome) := by
    rw [isSupported, refusal, parts]
    cases m.body <;> rfl
  rw [hread, hread, refusal_congr h, parts_congr h]

theorem interfaces_congr (h : m.keyed.body = m'.keyed.body) :
    m.interfaces.map Interface.keyed = m'.interfaces.map Interface.keyed := by
  have hread (m : Module) : m.interfaces.map Interface.keyed =
      (m.records.map keyedOutcome).filterMap fun
        | .error _ => none
        | .ok e => some e.2.1 := by
    rw [interfaces, List.map_filterMap, List.filterMap_map]
    refine List.filterMap_congr fun o _ => ?_
    cases o <;> rfl
  rw [hread, hread, records_congr h]

theorem edges_congr (h : m.keyed.body = m'.keyed.body) :
    m.edges.map (fun e => (e.specifier, e.target.key)) =
      m'.edges.map (fun e => (e.specifier, e.target.key)) := by
  have hread (m : Module) : m.edges.map (fun e => (e.specifier, e.target.key)) =
      (m.records.map keyedOutcome).flatMap fun
        | .error _ => []
        | .ok e => e.2.2.filterMap fun r => r.2.2.toOption.map fun k => (r.1, k) := by
    rw [edges, List.map_flatMap, List.flatMap_map]
    refine List.flatMap_congr fun o _ => ?_
    cases o with
    | error d => rfl
    | ok e =>
      show (e.resolutions.filterMap _).map _ = (e.resolutions.map Resolution.keyed).filterMap _
      rw [List.map_filterMap, List.filterMap_map]
      refine List.filterMap_congr fun r _ => ?_
      rw [Function.comp_apply, Resolution.keyed, Resolution.edge?]
      cases r.outcome <;> rfl
  rw [hread, hread, records_congr h]

theorem targets_congr (h : m.keyed.body = m'.keyed.body) :
    m.targets.map Path.key = m'.targets.map Path.key := by
  have hedges := congrArg (List.map Prod.snd) (edges_congr h)
  simpa [targets, Function.comp_def] using hedges

end Module

namespace Module

/-! ### The module of a path -/

@[simp] theorem path_keeping (m : Module) (keep : Bool) (text : Bytes) :
    (m.keeping keep text).path = m.path := by
  unfold keeping
  split <;> rfl

@[simp] theorem entry_keeping (m : Module) (keep : Bool) (text : Bytes) :
    (m.keeping keep text).entry = m.entry := by
  unfold keeping
  split <;> rfl

@[simp] theorem body_keeping (m : Module) (keep : Bool) (text : Bytes) :
    (m.keeping keep text).body = m.body := by
  unfold keeping
  split <;> rfl

@[simp] theorem records_keeping (m : Module) (keep : Bool) (text : Bytes) :
    (m.keeping keep text).records = m.records := by
  rw [records, body_keeping, records]

@[simp] theorem keyed_body_keeping (m : Module) (keep : Bool) (text : Bytes) :
    (m.keeping keep text).keyed.body = m.keyed.body := by
  unfold keeping
  split <;> rfl

end Module

/-! ### First requests -/

/-- The requests of the specifiers that are wanted, each once: as it is first requested, and in
that order. -/
structure Request.Firsts (wanted : Bytes → Prop) (requests firsts : List Request) : Prop where
  nodup : (firsts.map Request.specifier).Nodup
  mem_iff : ∀ specifier, specifier ∈ firsts.map Request.specifier ↔
    wanted specifier ∧ specifier ∈ requests.map Request.specifier
  first : ∀ r ∈ firsts, requests.find? (fun q => q.specifier = r.specifier) = some r
  ordered : firsts.Pairwise fun a b =>
    requests.findIdx (fun q => q.specifier = a.specifier) <
      requests.findIdx (fun q => q.specifier = b.specifier)

namespace Request.Firsts

variable {wanted : Bytes → Prop} {requests firsts : List Request} {r : Request}

theorem nil (wanted : Bytes → Prop) : Firsts wanted [] [] where
  nodup := .nil
  mem_iff specifier := by simp
  first r hr := absurd hr List.not_mem_nil
  ordered := .nil

/-- The order of the first requests, behind a request of something else. -/
theorem ordered_cons (h : Firsts wanted requests firsts)
    (hother : ∀ q ∈ firsts, r.specifier ≠ q.specifier) :
    firsts.Pairwise fun a b =>
      (r :: requests).findIdx (fun q => q.specifier = a.specifier) <
        (r :: requests).findIdx (fun q => q.specifier = b.specifier) := by
  refine h.ordered.imp_of_mem fun {a b} ha hb hlt => ?_
  rw [List.findIdx_cons, List.findIdx_cons, decide_eq_false (hother a ha),
    decide_eq_false (hother b hb)]
  exact Nat.succ_lt_succ hlt

theorem first_cons (h : Firsts wanted requests firsts)
    (hother : ∀ q ∈ firsts, r.specifier ≠ q.specifier) :
    ∀ q ∈ firsts, (r :: requests).find? (fun q' => q'.specifier = q.specifier) = some q := by
  intro q hq
  rw [List.find?_cons_of_neg (by simpa using hother q hq)]
  exact h.first q hq

/-- A request of something that is not wanted, or no more. -/
theorem skip (h : Firsts wanted requests firsts) (hr : ¬ wanted r.specifier) :
    Firsts wanted (r :: requests) firsts := by
  have hother (q : Request) (hq : q ∈ firsts) : r.specifier ≠ q.specifier := by
    intro hsame
    have hwanted := ((h.mem_iff q.specifier).mp (List.mem_map_of_mem hq)).1
    exact hr (hsame ▸ hwanted)
  refine ⟨h.nodup, fun specifier => ?_, h.first_cons hother, h.ordered_cons hother⟩
  rw [h.mem_iff, List.map_cons, List.mem_cons]
  constructor
  · rintro ⟨hwanted, hmem⟩
    exact ⟨hwanted, .inr hmem⟩
  · rintro ⟨hwanted, rfl | hmem⟩
    · exact absurd hwanted hr
    · exact ⟨hwanted, hmem⟩

/-- The first request of something that is wanted. -/
theorem take {others : Bytes → Prop} (h : Firsts others requests firsts)
    (hr : wanted r.specifier)
    (hothers : ∀ specifier, others specifier ↔ wanted specifier ∧ specifier ≠ r.specifier) :
    Firsts wanted (r :: requests) (r :: firsts) := by
  have hother (q : Request) (hq : q ∈ firsts) : r.specifier ≠ q.specifier := by
    have hwanted := ((h.mem_iff q.specifier).mp (List.mem_map_of_mem hq)).1
    exact ((hothers q.specifier).mp hwanted).2.symm
  constructor
  case nodup =>
    refine List.nodup_cons.mpr ⟨fun hmem => ?_, h.nodup⟩
    exact ((hothers _).mp ((h.mem_iff _).mp hmem).1).2 rfl
  case mem_iff =>
    intro specifier
    rw [List.map_cons, List.map_cons, List.mem_cons, List.mem_cons, h.mem_iff,
      hothers]
    by_cases hsame : specifier = r.specifier
    · simp [hsame, hr]
    · simp [hsame]
  case first =>
    intro q hq
    rcases List.mem_cons.mp hq with rfl | hq
    · exact List.find?_cons_of_pos (by simp)
    · exact h.first_cons hother q hq
  case ordered =>
    refine List.pairwise_cons.mpr ⟨fun q hq => ?_, h.ordered_cons hother⟩
    rw [List.findIdx_cons, List.findIdx_cons, decide_eq_true rfl,
      decide_eq_false (hother q hq)]
    exact Nat.succ_pos _

/-- What holds of a specifier that is wanted and requested holds of one of the first requests. -/
theorem exists_iff (h : Firsts wanted requests firsts) (P : Bytes → Prop) :
    (∃ r ∈ firsts, P r.specifier) ↔
      ∃ r ∈ requests, wanted r.specifier ∧ P r.specifier := by
  constructor
  · rintro ⟨r, hr, hP⟩
    have hwanted := ((h.mem_iff r.specifier).mp (List.mem_map_of_mem hr)).1
    exact ⟨r, List.mem_of_find?_eq_some (h.first r hr), hwanted, hP⟩
  · rintro ⟨r, hr, hwanted, hP⟩
    have hmem := (h.mem_iff r.specifier).mpr ⟨hwanted, List.mem_map_of_mem hr⟩
    obtain ⟨r', hr', hsame⟩ := List.mem_map.mp hmem
    exact ⟨r', hr', hsame ▸ hP⟩

end Request.Firsts

namespace LoadSettings

/-- The requests that are resolved, with those seen before. -/
theorem firsts_firstRequests (handles : Bytes → Bool) (seen : List Bytes)
    (requests : List Request) :
    Request.Firsts (fun specifier => handles specifier = true ∧ specifier ∉ seen) requests
      (firstRequests seen (requests.filter fun r => handles r.specifier)) := by
  induction requests generalizing seen with
  | nil => exact .nil _
  | cons r requests ih =>
    by_cases hhandles : handles r.specifier = true
    · rw [List.filter_cons_of_pos (p := fun r : Request => handles r.specifier) hhandles,
        firstRequests]
      split
      · exact (ih seen).skip fun hwanted => hwanted.2 ‹_›
      · refine (ih (r.specifier :: seen)).take ⟨hhandles, ‹_›⟩ fun specifier => ?_
        rw [List.mem_cons, not_or, and_comm (a := specifier ≠ r.specifier), and_assoc]
    · rw [List.filter_cons_of_neg (p := fun r : Request => handles r.specifier) hhandles]
      exact (ih seen).skip fun hwanted => hhandles hwanted.1

/-- The requests that are resolved. -/
theorem firsts_handled (handles : Bytes → Bool) (requests : List Request) :
    Request.Firsts (fun specifier => handles specifier = true) requests
      (firstRequests [] (requests.filter fun r => handles r.specifier)) := by
  have hfirsts := firsts_firstRequests handles [] requests
  simpa only [List.not_mem_nil, not_false_eq_true, and_true] using hfirsts

end LoadSettings

namespace Linter

variable (l : Linter) (files : MemoryFiles)

@[simp] theorem path_module (p : Path) : (l.module files p).path = p := by
  unfold Linter.module
  cases l.loading.loaders.find? p.extension with
  | none => exact Module.path_keeping _ _ _
  | some form =>
    simp only
    cases (FileStore.read p files).1 with
    | error mishap => cases mishap <;> simp [Closing.brokenModule, LoadSettings.ofUnreadable]
    | ok text => simp [LoadSettings.path_ofText]

@[simp] theorem entry_module (p : Path) : (l.module files p).entry = l.entries.contains p := by
  unfold Linter.module
  cases l.loading.loaders.find? p.extension with
  | none => exact Module.entry_keeping _ _ _
  | some form =>
    simp only
    cases (FileStore.read p files).1 with
    | error mishap => cases mishap <;> simp [Closing.brokenModule, LoadSettings.ofUnreadable]
    | ok text => simp [LoadSettings.entry_ofText]

/-- Linters that load in the same way load an entry, or a dependency, of both the same. -/
theorem module_congr {l l' : Linter} (hloading : l.loading = l'.loading) (files : MemoryFiles)
    {p : Path} (hentry : l.entries.contains p = l'.entries.contains p) :
    l.module files p = l'.module files p := by
  unfold Linter.module
  rw [hloading, hentry]

/-- Only entries have content, where that of dependencies is not retained. -/
theorem content_module {p : Path} (hretain : l.loading.retainDependencies = false)
    (hentry : l.entries.contains p = false) : (l.module files p).content = none := by
  unfold Linter.module
  simp only [LoadSettings.keeps, hretain, hentry, Bool.or_self, Module.keeping]
  cases l.loading.loaders.find? p.extension with
  | none => rfl
  | some form =>
    cases (FileStore.read p files).1 with
    | error mishap => cases mishap <;> rfl
    | ok text => exact LoadSettings.content_ofText _ _ _ _ _ _

/-- With the interfaces of dependencies, entries or not, modules have the same
bodies. -/
theorem body_module_congr {l l' : Linter} (hloading : l.loading = l'.loading)
    (hextract : l.loading.extractDependencies = true) (files : MemoryFiles) {p q : Path}
    (h : p.key = q.key) : (l.module files p).keyed.body = (l'.module files q).keyed.body := by
  rw [← congrArg Module.Keyed.body (l'.keyed_module files h)]
  unfold Linter.module
  rw [← hloading]
  cases l.loading.loaders.find? p.extension with
  | none => simp only [Module.keyed_body_keeping]; rfl
  | some form =>
    simp only
    cases (FileStore.read p files).1 with
    | error mishap =>
      cases mishap with
      | brokenOff reason => rfl
      | failed e => simp only [Module.keyed_body_keeping]; rfl
    | ok text =>
      simp only [Module.keyed_body_keeping, LoadSettings.ofText, LoadSettings.part, hextract,
        Bool.or_true, if_true]
      cases form.split p.extension text <;> rfl

/-- The segments of a file as it is read, cut and parsed. -/
def Cut (p : Path) (segments : List Segment) : Prop :=
  ∃ form text, l.loading.loaders.find? p.extension = some form ∧
    (FileStore.read p files).1 = .ok text ∧ form.split p.extension text = .ok segments

/-- The codes of problems with loading. -/
def loadCodes : List Bytes := [Code.disk, Code.parse, Code.internal]

/-- A file that can be cut has the segments that it is cut into. -/
theorem records_of_cut {p : Path} {segments : List Segment} (h : l.Cut files p segments) :
    ∃ composite, (l.module files p).records = segments.zipIdx.map fun x =>
      (l.loading.part files p (l.entries.contains p) composite x.2 x.1).outcome := by
  obtain ⟨form, text, hform, hread, hsplit⟩ := h
  refine ⟨!LoadSettings.isWhole text segments, ?_⟩
  unfold Linter.module
  simp only [hform, hread, Module.records_keeping, LoadSettings.ofText, hsplit]
  simp only [Module.records, List.map_map]
  rfl

/-- A module has no segments, or it could not be cut, or it has those of its file. -/
theorem records_module (p : Path) :
    (l.module files p).records = [] ∨
      (∃ d : Diagnostic, (l.module files p).records = [.error d] ∧ d.path = p ∧
        d.code ∈ loadCodes) ∨
      ∃ segments composite, l.Cut files p segments ∧ (l.module files p).records =
        segments.zipIdx.map fun x =>
          (l.loading.part files p (l.entries.contains p) composite x.2 x.1).outcome := by
  unfold Linter.module Cut
  cases hform : l.loading.loaders.find? p.extension with
  | none => exact .inl (Module.records_keeping _ _ _)
  | some form =>
    simp only
    cases hread : (FileStore.read p files).1 with
    | error mishap =>
      cases mishap with
      | brokenOff reason => exact .inr (.inl ⟨_, rfl, rfl, by simp [internalDiagnostic, loadCodes]⟩)
      | failed e =>
        refine .inr (.inl ⟨_, Module.records_keeping _ _ _, rfl, ?_⟩)
        simp [loadCodes]
    | ok text =>
      simp only [Module.records_keeping, LoadSettings.ofText]
      cases hsplit : form.split p.extension text with
      | error f =>
        refine .inr (.inl ⟨_, rfl, rfl, ?_⟩)
        simp [Failure.diagnostic, loadCodes]
      | ok segments =>
        refine .inr (.inr ⟨segments, !LoadSettings.isWhole text segments,
          ⟨form, text, rfl, rfl, hsplit⟩, ?_⟩)
        simp only [Module.records, List.map_map]
        rfl

/-- The problems of a module are about its file. -/
theorem diagnostics_module {p : Path} {d : Diagnostic} (h : d ∈ (l.module files p).diagnostics) :
    d.path = p ∧ d.code ∈ loadCodes := by
  obtain ⟨o, ho, hd⟩ := List.mem_filterMap.mp h
  rcases l.records_module files p with hr | ⟨e, hr, he⟩ | ⟨segments, composite, _, hr⟩
  · rw [hr] at ho
    exact absurd ho List.not_mem_nil
  · rw [hr, List.mem_singleton] at ho
    subst ho
    obtain rfl : e = d := by simpa using hd
    exact he
  · rw [hr] at ho
    obtain ⟨x, _, rfl⟩ := List.mem_map.mp ho
    unfold LoadSettings.part at hd
    cases hparse : x.1.parse with
    | error f =>
      simp only [hparse, Option.some.injEq] at hd
      subst hd
      exact ⟨rfl, by simp [Failure.diagnostic, loadCodes]⟩
    | ok script => simp [hparse] at hd

/-- A segment that could be read, as the graph takes it. -/
theorem extract_module {p : Path} {e : Extract} (h : .ok e ∈ (l.module files p).records) :
    ∃ segments index segment script, l.Cut files p segments ∧ (segment, index) ∈ segments.zipIdx ∧
      segment.parse = .ok script ∧ e = ⟨script,
        if l.entries.contains p || l.loading.extractDependencies then
          .ofScript p index segment.offset script
        else { path := p, segment := index },
        l.loading.resolutions files
          (if l.entries.contains p || l.loading.extractDependencies then
            .ofScript p index segment.offset script
          else { path := p, segment := index })⟩ := by
  rcases l.records_module files p with hr | ⟨d, hr, _⟩ | ⟨segments, composite, hcut, hr⟩
  · rw [hr] at h
    exact absurd h List.not_mem_nil
  · rw [hr] at h
    simp at h
  · rw [hr] at h
    obtain ⟨x, hx, hpart⟩ := List.mem_map.mp h
    unfold LoadSettings.part at hpart
    cases hparse : x.1.parse with
    | error f => simp [hparse] at hpart
    | ok script =>
      simp only [hparse, Except.ok.injEq] at hpart
      exact ⟨segments, x.2, x.1, script, hcut, hx, hparse, hpart.symm⟩

/-- The interfaces of a module carry its path. -/
theorem path_interface {p : Path} {i : Interface} (h : i ∈ (l.module files p).interfaces) :
    i.path = p := by
  obtain ⟨o, ho, hi⟩ := List.mem_filterMap.mp h
  cases o with
  | error d => simp [recordInterface?] at hi
  | ok e =>
    obtain ⟨_, _, _, _, _, _, _, rfl⟩ := l.extract_module files ho
    simp only [recordInterface?, Option.some.injEq] at hi
    subst hi
    split <;> rfl

/-! ### Imports -/

/-- A request of a segment of `p` leads to `t`.  Dependencies have requests only
where their interfaces are extracted, and without a resolver none is resolved. -/
def Requests (p t : Path) : Prop :=
  ∃ segments, l.Cut files p segments ∧ ∃ segment ∈ segments, ∃ script,
    segment.parse = .ok script ∧
    (l.entries.contains p = true ∨ l.loading.extractDependencies = true) ∧
    ∃ statement ∈ script.body, ∃ request,
      Interface.requestOf segment.offset statement = some request ∧
      ∃ resolver, l.loading.resolver = some resolver ∧
        resolver.handles request.specifier = true ∧
        resolver.resolve (FileStore.isFile files) p.parent request.specifier = .ok t

/-- One module imports another one, by keys. -/
def Imports (a b : Path.Key) : Prop :=
  ∃ p t : Path, p.key = a ∧ t.key = b ∧ l.Requests files p t

/-- The least set of modules with the entries that is closed under imports. -/
inductive Reaches : Path.Key → Prop where
  | entry {p : Path} (h : p ∈ l.entries.paths) : Reaches p.key
  | imported {a b : Path.Key} (h : Reaches a) (hab : l.Imports files a b) : Reaches b

variable {l files}

/-- Which targets the resolutions of an interface have. -/
theorem exists_resolution {s : LoadSettings} {i : Interface} {t : Path} :
    (∃ r ∈ s.resolutions files i, r.outcome = .ok t) ↔
      ∃ request ∈ i.requests, ∃ resolver, s.resolver = some resolver ∧
        resolver.handles request.specifier = true ∧
        resolver.resolve (FileStore.isFile files) i.path.parent request.specifier = .ok t := by
  have hok {x : Except Unresolved Path} {directory : Path} :
      x.mapError (·.error directory) = .ok t ↔ x = .ok t := by
    cases x <;> simp [Except.mapError]
  unfold LoadSettings.resolutions
  cases s.resolver with
  | none => simp
  | some resolver =>
    simp only [List.mem_map, exists_exists_and_eq_and, hok, Option.some.injEq, exists_eq_left']
    exact (LoadSettings.firsts_handled resolver.handles i.requests).exists_iff fun specifier =>
      resolver.resolve (FileStore.isFile files) i.path.parent specifier = .ok t

/-- The targets of a loaded module are those of its requests. -/
theorem mem_targets_module {p t : Path} :
    t ∈ (l.module files p).targets ↔ l.Requests files p t := by
  have htargets : t ∈ (l.module files p).targets ↔
      ∃ e, .ok e ∈ (l.module files p).records ∧ ∃ r ∈ e.resolutions, r.outcome = .ok t := by
    simp only [Module.targets, Module.edges, List.mem_map, List.mem_flatMap]
    constructor
    · rintro ⟨_, ⟨o, ho, hedge⟩, rfl⟩
      cases o with
      | error d => exact absurd hedge List.not_mem_nil
      | ok e =>
        obtain ⟨r, hr, hout⟩ := List.mem_filterMap.mp hedge
        refine ⟨e, ho, r, hr, ?_⟩
        unfold Resolution.edge? at hout
        cases hr' : r.outcome with
        | error u => simp [hr', Except.toOption] at hout
        | ok t =>
          simp only [hr', Except.toOption, Option.map_some, Option.some.injEq] at hout
          rw [← hout]
    · rintro ⟨e, he, r, hr, hout⟩
      refine ⟨⟨r.specifier, t⟩, ⟨.ok e, he, List.mem_filterMap.mpr ⟨r, hr, ?_⟩⟩, rfl⟩
      simp [Resolution.edge?, hout, Except.toOption]
  rw [htargets]
  constructor
  · rintro ⟨e, he, hr⟩
    obtain ⟨segments, index, segment, script, hcut, hmem, hparse, rfl⟩ := l.extract_module files he
    have hsegment : segment ∈ segments :=
      List.mem_of_getElem? (List.mk_mem_zipIdx_iff_getElem?.mp hmem)
    obtain ⟨request, hrequest, hresolver⟩ := exists_resolution.mp hr
    refine ⟨segments, hcut, segment, hsegment, script, hparse, ?_⟩
    split at hrequest
    · rename_i hextract
      obtain ⟨statement, hs, hof⟩ := List.mem_filterMap.mp hrequest
      refine ⟨by simpa using hextract, statement, hs, request, hof, ?_⟩
      rw [if_pos hextract] at hresolver
      exact hresolver
    · exact absurd hrequest List.not_mem_nil
  · rintro ⟨segments, hcut, segment, hsegment, script, hparse, hextract, statement, hs, request,
      hof, hresolver⟩
    obtain ⟨composite, hrecords⟩ := l.records_of_cut files hcut
    obtain ⟨index, hindex⟩ := List.getElem?_of_mem hsegment
    have hmem : (segment, index) ∈ segments.zipIdx := List.mk_mem_zipIdx_iff_getElem?.mpr hindex
    have hpart : (l.loading.part files p (l.entries.contains p) composite index segment).outcome ∈
        (l.module files p).records := by
      rw [hrecords]
      exact List.mem_map_of_mem hmem
    simp only [LoadSettings.part, hparse, if_pos (show
      (l.entries.contains p || l.loading.extractDependencies) = true by simpa using hextract)]
      at hpart
    exact ⟨_, hpart, exists_resolution.mpr
      ⟨request, List.mem_filterMap.mpr ⟨statement, hs, hof⟩, hresolver⟩⟩

/-- The spelling of a module's path does not matter for its imports. -/
theorem imports_iff {p : Path} {b : Path.Key} :
    l.Imports files p.key b ↔ b ∈ (l.module files p).targets.map Path.key := by
  constructor
  · rintro ⟨q, t, hq, rfl, ht⟩
    rw [← Module.targets_congr (congrArg Module.Keyed.body (l.keyed_module files hq))]
    exact List.mem_map_of_mem (mem_targets_module.mpr ht)
  · intro hb
    obtain ⟨t, ht, rfl⟩ := List.mem_map.mp hb
    exact ⟨p, t, rfl, rfl, mem_targets_module.mp ht⟩

theorem imports_of_mem {p t : Path} (h : t ∈ (l.module files p).targets) :
    l.Imports files p.key t.key :=
  imports_iff.mpr (List.mem_map_of_mem h)

/-- Linters whose modules have the same bodies have the same imports. -/
theorem imports_congr {l' : Linter}
    (h : ∀ p, (l.module files p).keyed.body = (l'.module files p).keyed.body) (a b : Path.Key) :
    l.Imports files a b ↔ l'.Imports files a b := by
  have hp (p : Path) (b : Path.Key) : l.Imports files p.key b ↔ l'.Imports files p.key b := by
    rw [imports_iff, imports_iff, Module.targets_congr (h p)]
  constructor
  · rintro ⟨p, t, rfl, rfl, ht⟩
    exact (hp p _).mp ⟨p, t, rfl, rfl, ht⟩
  · rintro ⟨p, t, rfl, rfl, ht⟩
    exact (hp p _).mpr ⟨p, t, rfl, rfl, ht⟩

/-- What a request resolves to is a file. -/
theorem isFile_target {p t : Path} (h : t ∈ (l.module files p).targets) :
    FileStore.isFile files t = true := by
  obtain ⟨_, _, _, _, _, _, _, _, _, request, _, resolver, _, _, hresolve⟩ :=
    mem_targets_module.mp h
  unfold Resolver.resolve at hresolve
  split at hresolve
  · exact absurd hresolve (by simp)
  · split at hresolve
    · rename_i q hq
      obtain rfl : q = t := by simpa using hresolve
      exact List.find?_some hq
    · exact absurd hresolve (by simp)

/-- What is reached is an entry or a file. -/
theorem entry_or_file {k : Path.Key} (h : l.Reaches files k) :
    k ∈ l.entries.paths.map Path.key ∨ k ∈ files.files := by
  cases h with
  | entry hp => exact .inl (List.mem_map_of_mem hp)
  | imported _ hab =>
    obtain ⟨p, t, _, rfl, ht⟩ := hab
    have hfile := isFile_target (mem_targets_module.mpr ht)
    rw [MemoryFiles.isFile_eq] at hfile
    exact .inr (Std.TreeMap.contains_iff_mem.mp hfile)

theorem Reaches.mono {l' : Linter}
    (hentries : ∀ p, l.entries.contains p = true → l'.entries.contains p = true)
    (himports : ∀ a b, l.Imports files a b → l'.Imports files a b) {k : Path.Key}
    (h : l.Reaches files k) : l'.Reaches files k := by
  induction h with
  | @entry p hp =>
    have hcontains := hentries p ((l.entries.contains_iff p).mpr ⟨p, hp, rfl⟩)
    obtain ⟨q, hq, hkey⟩ := (l'.entries.contains_iff p).mp hcontains
    exact hkey ▸ .entry hq
  | imported _ hab ih => exact .imported ih (himports _ _ hab)

/-- With the same entries and imports, the same modules are reached. -/
theorem reaches_congr {l' : Linter}
    (hentries : ∀ p, l.entries.contains p = l'.entries.contains p)
    (himports : ∀ a b, l.Imports files a b ↔ l'.Imports files a b) (k : Path.Key) :
    l.Reaches files k ↔ l'.Reaches files k :=
  ⟨Reaches.mono (fun p hp => (hentries p).symm.trans hp) fun a b => (himports a b).mp,
    Reaches.mono (fun p hp => (hentries p).trans hp) fun a b => (himports a b).mpr⟩

/-- Where an import leads on from, everything that it leads to is reached. -/
theorem Reaches.trans {a b : Path.Key} (h : l.Reaches files a)
    (hab : Relation.ReflTransGen (l.Imports files) a b) : l.Reaches files b := by
  induction hab with
  | refl => exact h
  | tail _ hstep ih => exact .imported ih hstep

end Linter

end ScriptLint
