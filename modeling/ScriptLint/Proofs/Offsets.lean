/-
The same script at two offsets.

Two systems of offsets meet in a file with several segments.  Statements and findings count
from the beginning of their segment; faults and records count from the beginning of the file,
and a rule that takes a place from a record moves it into the segment first.  So a known rule
finds the same in a segment as in the script alone, and inside of it.

* **`Segment.parse_eq`** — a segment is parsed as the script alone, with the fault moved;
* **`Segment.shifted_toLocal_requests`** — the places of a record survive the way into the
  segment and back;
* **`Subject.Coincides`** — the subjects are alike but for where their segments begin;
* **`Rule.check_coincides`** — no known rule tells such subjects apart;
* **`Rule.place_of_check`** — a known rule reports at places of the script.
-/
import ScriptLint.Proofs.Bounds
import ScriptLint.Proofs.Cycles

namespace ScriptLint

/-! ### Moves -/

/-- The fault at the place that its segment gives it in the file. -/
def Failure.shifted (offset : UInt32) (f : Failure) : Failure := ⟨f.fault, f.span.shifted offset⟩

/-- The segment as the beginning of a file. -/
def Segment.atStart (s : Segment) : Segment := { s with offset := 0 }

namespace Segment

variable {s : Segment} {script : Script}

/-- A segment is parsed as the script alone, apart from the place of the fault. -/
theorem parse_eq (s : Segment) : s.parse = s.atStart.parse.mapError (Failure.shifted s.offset) := by
  unfold parse
  cases h : Script.parse s.dialect s.text with
  | error f => simp [atStart, h, Except.mapError, Failure.shifted]
  | ok script => simp [atStart, h, Except.mapError]

theorem parse_atStart (h : s.parse = .ok script) : s.atStart.parse = .ok script := by
  rw [parse_eq] at h
  cases halone : s.atStart.parse with
  | error f => simp [halone, Except.mapError] at h
  | ok alone => simpa [halone, Except.mapError] using h

theorem parse_atStart_error {f : Failure} (h : s.parse = .error f) :
    ∃ own, s.atStart.parse = .error own ∧ f = own.shifted s.offset := by
  rw [parse_eq] at h
  cases halone : s.atStart.parse with
  | error own => exact ⟨own, rfl, by simpa [halone, Except.mapError] using h.symm⟩
  | ok alone => simp [halone, Except.mapError] at h

end Segment

/-! ### Records -/

/-- The request at the place that its segment gives it in the file. -/
def Request.shifted (offset : UInt32) (r : Request) : Request :=
  { r with span := r.span.shifted offset }

/-- The request at its place in a segment. -/
def Request.inSegment (segment : Segment) (r : Request) : Request :=
  { r with span := segment.toLocal r.span }

/-- The imported name at the place that its segment gives it in the file. -/
def ImportedName.shifted (offset : UInt32) (n : ImportedName) : ImportedName :=
  { n with span := n.span.shifted offset }

/-- The imported name at its place in a segment. -/
def ImportedName.inSegment (segment : Segment) (n : ImportedName) : ImportedName :=
  { n with span := segment.toLocal n.span }

namespace Interface

variable {statement : Statement}

theorem requestOf_shifted (offset : UInt32) (statement : Statement) :
    requestOf offset statement = (requestOf 0 statement).map (Request.shifted offset) := by
  unfold requestOf
  split <;> simp [Request.shifted]

theorem importsOf_shifted (offset : UInt32) (statement : Statement) :
    importsOf offset statement = (importsOf 0 statement).map (ImportedName.shifted offset) := by
  unfold importsOf
  split <;> simp [ImportedName.shifted]

/-- A record asks for what the script asks for, at the places in the file. -/
theorem requests_shifted (path : Path) (index : Nat) (offset : UInt32) (script : Script) :
    (ofScript path index offset script).requests =
      (script.body.filterMap (requestOf 0)).map (Request.shifted offset) := by
  rw [ofScript, List.map_filterMap]
  exact List.filterMap_congr fun statement _ => requestOf_shifted offset statement

theorem imports_shifted (path : Path) (index : Nat) (offset : UInt32) (script : Script) :
    (ofScript path index offset script).imports =
      (script.body.flatMap (importsOf 0)).map (ImportedName.shifted offset) := by
  rw [ofScript, List.map_flatMap]
  exact List.flatMap_congr fun statement _ => importsOf_shifted offset statement

/-- A module is asked for where its name stands. -/
theorem place_requestOf {P : Span → Prop} (h : statement.Places P) {r : Request}
    (hr : requestOf 0 statement = some r) : P r.span := by
  unfold requestOf at hr
  split at hr
  · rename_i source _ hsource
    cases hr
    simpa using h.source source hsource
  · rename_i source _ hsource
    cases hr
    simpa using h.source source hsource
  · cases hr

/-- A name is imported where its binding stands. -/
theorem place_importsOf {P : Span → Prop} (h : statement.Places P) {n : ImportedName}
    (hn : n ∈ importsOf 0 statement) : P n.span := by
  unfold importsOf at hn
  split at hn
  · rename_i hkind _
    obtain ⟨b, hb, rfl⟩ := List.mem_map.mp hn
    simpa using h.bindings hkind b hb
  · cases hn

end Interface

namespace Segment

variable {s : Segment} {script : Script} {span : Span}

/-- The segment, with offsets in the file that fit into a span. -/
def Fits (s : Segment) : Prop := s.offset.toNat + s.text.length < 2 ^ 32

theorem Fits.length (h : s.Fits) : s.text.length < 2 ^ 32 :=
  Nat.lt_of_le_of_lt (Nat.le_add_left _ _) h

theorem Fits.atStart (h : s.Fits) : s.atStart.Fits := by
  have hlength := h.length
  simpa [Fits, Segment.atStart] using hlength

/-- A place of a segment is found again from its place in the file. -/
theorem Fits.toLocal_shifted (h : s.Fits) (hspan : span.Within 0 s.text.length) :
    s.toLocal (span.shifted s.offset) = span := by
  have hordered := hspan.ordered
  have hstop := hspan.stop
  unfold Fits at h
  exact Segment.toLocal_shifted (by omega)

section

variable (hfits : s.Fits) (hparse : s.parse = .ok script)
include hfits hparse

/-- The places of the requests of a script lie inside of it. -/
theorem within_requests :
    ∀ r ∈ script.body.filterMap (Interface.requestOf 0), r.span.Within 0 s.text.length := by
  intro r hr
  obtain ⟨statement, hstatement, hr⟩ := List.mem_filterMap.mp hr
  exact Interface.place_requestOf (places_of_parse hfits.length hparse statement hstatement) hr

/-- The places of the imported names of a script lie inside of it. -/
theorem within_imports :
    ∀ n ∈ script.body.flatMap (Interface.importsOf 0), n.span.Within 0 s.text.length := by
  intro n hn
  obtain ⟨statement, hstatement, hn⟩ := List.mem_flatMap.mp hn
  exact Interface.place_importsOf (places_of_parse hfits.length hparse statement hstatement) hn

/-- The requests of a record, at their places in the segment, are those of the script. -/
theorem requests_inSegment (path : Path) (index : Nat) :
    (Interface.ofScript path index s.offset script).requests.map (Request.inSegment s) =
      script.body.filterMap (Interface.requestOf 0) := by
  rw [Interface.requests_shifted, List.map_map]
  refine (List.map_congr_left fun r hr => ?_).trans (List.map_id _)
  have hplace := hfits.toLocal_shifted (within_requests hfits hparse r hr)
  simp only [Function.comp_apply, Request.inSegment, Request.shifted, hplace, id]

theorem imports_inSegment (path : Path) (index : Nat) :
    (Interface.ofScript path index s.offset script).imports.map (ImportedName.inSegment s) =
      script.body.flatMap (Interface.importsOf 0) := by
  rw [Interface.imports_shifted, List.map_map]
  refine (List.map_congr_left fun n hn => ?_).trans (List.map_id _)
  have hplace := hfits.toLocal_shifted (within_imports hfits hparse n hn)
  simp only [Function.comp_apply, ImportedName.inSegment, ImportedName.shifted, hplace, id]

/-- **The places of a record** survive the way into the segment and back. -/
theorem shifted_toLocal_requests (path : Path) (index : Nat) :
    ∀ r ∈ (Interface.ofScript path index s.offset script).requests,
      (s.toLocal r.span).shifted s.offset = r.span := by
  rw [Interface.requests_shifted]
  intro r hr
  obtain ⟨own, hown, rfl⟩ := List.mem_map.mp hr
  have hplace := hfits.toLocal_shifted (within_requests hfits hparse own hown)
  simp only [Request.shifted, hplace]

theorem shifted_toLocal_imports (path : Path) (index : Nat) :
    ∀ n ∈ (Interface.ofScript path index s.offset script).imports,
      (s.toLocal n.span).shifted s.offset = n.span := by
  rw [Interface.imports_shifted]
  intro n hn
  obtain ⟨own, hown, rfl⟩ := List.mem_map.mp hn
  have hplace := hfits.toLocal_shifted (within_imports hfits hparse own hown)
  simp only [ImportedName.shifted, hplace]

end

end Segment

/-! ### Subjects -/

/-- The records lead to the same modules, and ask for the same at the same places of their
segments. -/
structure Record.Coincides (s s' : Segment) (r r' : Record) : Prop where
  loaded : r.loaded = r'.loaded
  requests : r.interface.requests.map (Request.inSegment s) =
    r'.interface.requests.map (Request.inSegment s')
  imports : r.interface.imports.map (ImportedName.inSegment s) =
    r'.interface.imports.map (ImportedName.inSegment s')

/-- The subjects are alike but for where their segments begin. -/
structure Subject.Coincides (s s' : Subject) : Prop where
  path : s.path = s'.path
  script : s.script = s'.script
  scope : s.scope = s'.scope
  record : Option.Rel (Record.Coincides s.segment s'.segment) s.record s'.record
  graph : s.graph = s'.graph

namespace Rule

variable {s s' : Subject} {r r' : Record} {g : ModuleGraph}

/-! ### Rules -/

/-- The rule reads requests at their places in the segment. -/
theorem noSelfImport_eq (hr : s.record = some r) :
    noSelfImport.check s =
      ⟨((r.interface.requests.map (Request.inSegment s.segment)).filter fun q =>
          (target? r q.specifier).any fun i => i.path.same s.path).map fun q =>
        { span := q.span, message := "Module imports itself" }, none⟩ := by
  simp only [noSelfImport, hr, List.filter_map, List.map_map]
  rfl

theorem noCycle_eq (hr : s.record = some r) (hg : s.graph = some g) :
    noCycle.check s =
      ⟨(r.interface.requests.map (Request.inSegment s.segment)).filterMap fun q =>
        (wayBack? s r g q).map fun way =>
          { span := q.span, message := "Dependency cycle detected",
            help := chainText s.path way }, none⟩ := by
  simp only [noCycle, hr, hg, List.filterMap_map]
  rfl

theorem named_eq (hr : s.record = some r) (hg : s.graph = some g) :
    named.check s =
      ⟨((r.interface.imports.map (ImportedName.inSegment s.segment)).filter (isMissing r g)).map
        fun n =>
          { span := n.span,
            message := "'" ++ n.outer ++ "' is not exported by '" ++ n.specifier ++ "'" },
        none⟩ := by
  simp only [named, hr, hg, List.filter_map, List.map_map]
  rfl

/-! ### Subjects that coincide -/

theorem records_of_coincides (h : s.Coincides s') :
    (s.record = none ∧ s'.record = none) ∨
      ∃ r r', s.record = some r ∧ s'.record = some r' ∧ r.Coincides s.segment s'.segment r' := by
  have hrecord := h.record
  cases hr : s.record with
  | none =>
    cases hr' : s'.record with
    | none => exact .inl ⟨rfl, rfl⟩
    | some r' => rw [hr, hr'] at hrecord; cases hrecord
  | some r =>
    cases hr' : s'.record with
    | none => rw [hr, hr'] at hrecord; cases hrecord
    | some r' =>
      rw [hr, hr'] at hrecord
      obtain ⟨hcoincides⟩ := hrecord
      exact .inr ⟨r, r', rfl, rfl, hcoincides⟩

theorem target?_coincides {segment segment' : Segment} (h : r.Coincides segment segment' r') :
    target? r = target? r' := by
  funext specifier
  rw [target?, target?, h.loaded]

theorem wayBack?_coincides (h : s.Coincides s') (hr : r.Coincides s.segment s'.segment r') :
    wayBack? s r g = wayBack? s' r' g := by
  funext q
  simp only [wayBack?, target?_coincides hr, h.path]

theorem isMissing_coincides {segment segment' : Segment} (h : r.Coincides segment segment' r') :
    isMissing r g = isMissing r' g := by
  funext n
  rw [isMissing, isMissing, target?_coincides h]

theorem noSelfImport_coincides (h : s.Coincides s') :
    noSelfImport.check s = noSelfImport.check s' := by
  rcases records_of_coincides h with ⟨hr, hr'⟩ | ⟨r, r', hr, hr', hrecord⟩
  · simp only [noSelfImport, hr, hr']
  · rw [noSelfImport_eq hr, noSelfImport_eq hr', hrecord.requests, target?_coincides hrecord,
      h.path]

theorem noCycle_coincides (h : s.Coincides s') : noCycle.check s = noCycle.check s' := by
  rcases records_of_coincides h with ⟨hr, hr'⟩ | ⟨r, r', hr, hr', hrecord⟩
  · simp only [noCycle, hr, hr']
  · cases hg : s.graph with
    | none => simp only [noCycle, hr, hr', hg, h.graph.symm.trans hg]
    | some g =>
      rw [noCycle_eq hr hg, noCycle_eq hr' (h.graph.symm.trans hg), hrecord.requests,
        wayBack?_coincides h hrecord, h.path]

theorem named_coincides (h : s.Coincides s') : named.check s = named.check s' := by
  rcases records_of_coincides h with ⟨hr, hr'⟩ | ⟨r, r', hr, hr', hrecord⟩
  · simp only [named, hr, hr']
  · cases hg : s.graph with
    | none => simp only [named, hr, hr', hg, h.graph.symm.trans hg]
    | some g =>
      rw [named_eq hr hg, named_eq hr' (h.graph.symm.trans hg), hrecord.imports,
        isMissing_coincides hrecord]

/-- **A known rule finds the same** at the same places of two segments. -/
theorem check_coincides {rule : Rule} (hrule : rule ∈ builtin) (h : s.Coincides s') :
    rule.check s = rule.check s' :=
  check_eq_of_cross hrule h.script h.scope (noSelfImport_coincides h) (noCycle_coincides h)
    (named_coincides h)

/-! ### Places of findings -/

theorem source_of_mem_duplicates {seen : List (Bytes × Bool)} {body : List Statement}
    {source : Identifier} (h : source ∈ duplicates seen body) :
    ∃ statement ∈ body, statement.source = some source := by
  induction body generalizing seen with
  | nil => cases h
  | cons statement rest ih =>
    have hrest {seen : List (Bytes × Bool)} (h : source ∈ duplicates seen rest) :
        ∃ later ∈ statement :: rest, later.source = some source := by
      obtain ⟨later, hlater, hsource⟩ := ih h
      exact ⟨later, List.mem_cons_of_mem _ hlater, hsource⟩
    rw [duplicates] at h
    split at h
    · rename_i own _ hown
      split at h
      · rcases List.mem_cons.mp h with rfl | h
        · exact ⟨statement, List.mem_cons_self, hown⟩
        · exact hrest h
      · exact hrest h
    · exact hrest h

theorem binding_of_mem_entries {body : List Statement} {e : Scope.Entry}
    (h : e ∈ (Scope.ofBody body).entries) (hkind : e.kind = .importing) :
    ∃ statement ∈ body, statement.kind = .importing ∧
      ∃ b ∈ statement.bindings, e.span = b.span := by
  obtain ⟨_, hentries, he⟩ := List.mem_flatten.mp h
  obtain ⟨⟨statement, index⟩, hstatement, rfl⟩ := List.mem_map.mp hentries
  refine ⟨statement, List.fst_mem_of_mem_zipIdx hstatement, ?_⟩
  have hdeclared {kind : Scope.Kind} (hne : kind ≠ .importing)
      (h : e ∈ Scope.declaredEntries kind index statement) : False := by
    obtain ⟨d, _, rfl⟩ := List.mem_map.mp h
    exact hne hkind
  dsimp only [Scope.statementEntries] at he
  split at he
  · rename_i himporting
    obtain ⟨b, hb, rfl⟩ := List.mem_map.mp he
    exact ⟨himporting, b, hb, rfl⟩
  · exact (hdeclared (by decide) he).elim
  · exact (hdeclared (by decide) he).elim
  · exact (hdeclared (by decide) he).elim
  · exact (hdeclared (by decide) he).elim
  · cases he
  · cases he

end Rule

/-- The places that rules report about a subject have a property. -/
structure Subject.Places (P : Span → Prop) (s : Subject) : Prop where
  body : ∀ statement ∈ s.script.body, statement.Places P
  scope : ∀ scope ∈ s.scope, scope = .ofBody s.script.body
  requests : ∀ r ∈ s.record, ∀ q ∈ r.interface.requests.map (Request.inSegment s.segment), P q.span
  imports : ∀ r ∈ s.record, ∀ n ∈ r.interface.imports.map (ImportedName.inSegment s.segment),
    P n.span

namespace Rule

variable {s : Subject} {P : Span → Prop} {finding : Finding}

theorem place_of_noUnusedImports (h : s.Places P)
    (hfinding : finding ∈ (noUnusedImports.check s).findings) : P finding.span := by
  simp only [noUnusedImports] at hfinding
  cases hscope : s.scope with
  | none => simp [hscope] at hfinding
  | some scope =>
    simp only [hscope] at hfinding
    obtain ⟨e, he, rfl⟩ := List.mem_map.mp hfinding
    obtain ⟨he, hunused⟩ := List.mem_filter.mp he
    simp only [isUnusedImport, Bool.and_eq_true, decide_eq_true_eq] at hunused
    rw [h.scope scope hscope] at he
    obtain ⟨statement, hstatement, hkind, b, hb, hspan⟩ :=
      binding_of_mem_entries he hunused.1.1
    show P e.span
    rw [hspan]
    exact (h.body statement hstatement).bindings hkind b hb

/-- **A known rule reports** at places of the script. -/
theorem place_of_check {rule : Rule} (hrule : rule ∈ builtin) (h : s.Places P)
    (hfinding : finding ∈ (rule.check s).findings) : P finding.span := by
  simp only [builtin, List.mem_cons, List.not_mem_nil, or_false] at hrule
  rcases hrule with rfl | rfl | rfl | rfl | rfl | rfl
  · obtain ⟨statement, hstatement, rfl⟩ := List.mem_map.mp hfinding
    exact (h.body statement (List.mem_filter.mp hstatement).1).span
  · obtain ⟨source, hsource, rfl⟩ := List.mem_map.mp hfinding
    obtain ⟨statement, hstatement, hown⟩ := source_of_mem_duplicates hsource
    exact (h.body statement hstatement).source source hown
  · exact place_of_noUnusedImports h hfinding
  · cases hr : s.record with
    | none => simp [noSelfImport, hr] at hfinding
    | some r =>
      rw [noSelfImport_eq hr] at hfinding
      obtain ⟨q, hq, rfl⟩ := List.mem_map.mp hfinding
      exact h.requests r hr q (List.mem_filter.mp hq).1
  · cases hr : s.record with
    | none => simp [noCycle, hr] at hfinding
    | some r =>
      cases hg : s.graph with
      | none => simp [noCycle, hr, hg] at hfinding
      | some g =>
        rw [noCycle_eq hr hg] at hfinding
        obtain ⟨q, hq, hway⟩ := List.mem_filterMap.mp hfinding
        obtain ⟨way, _, rfl⟩ := Option.map_eq_some_iff.mp hway
        exact h.requests r hr q hq
  · cases hr : s.record with
    | none => simp [named, hr] at hfinding
    | some r =>
      cases hg : s.graph with
      | none => simp [named, hr, hg] at hfinding
      | some g =>
        rw [named_eq hr hg] at hfinding
        obtain ⟨n, hn, rfl⟩ := List.mem_map.mp hfinding
        exact h.imports r hr n (List.mem_filter.mp hn).1

end Rule

end ScriptLint
