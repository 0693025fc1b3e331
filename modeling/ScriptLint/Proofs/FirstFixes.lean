/-
Which fixes are applied.

Fixes are tried in the order of their places, and those for the same place in the order in
which they were proposed.  So if any two places are the same or apart, the first fix for each
place is applied and every other one is skipped; then it is known which messages are fixed,
and what is left can be told segment by segment.

* **`Span.Separate`** — places of a text that are the same or apart, two by two;
* **`Fix.mem_applied_iff`** — the fixes that are applied;
* **`AnalysisSettings.unfixed`** — the messages that are left, by a walk over all of them;
* **`AnalysisSettings.report_owners`** — these are the ones that are reported.
-/
import ScriptLint.Proofs.Bounds
import ScriptLint.Proofs.Reporting

namespace ScriptLint

/-! ### Places -/

/-- Places of a text with a given length.  None of them is empty, and two of them are the same
or apart. -/
structure Span.Separate (length : Nat) (places : List Span) : Prop where
  nonempty : ∀ s ∈ places, s.start.toNat < s.stop.toNat
  inside : ∀ s ∈ places, s.stop.toNat ≤ length
  apart : ∀ s ∈ places, ∀ s' ∈ places,
    s = s' ∨ s.stop.toNat ≤ s'.start.toNat ∨ s'.stop.toNat ≤ s.start.toNat

/-- Places one behind the other. -/
theorem Span.separate_of_pairwise {length : Nat} {places : List Span}
    (hplaces : ∀ s ∈ places, s.start.toNat < s.stop.toNat ∧ s.stop.toNat ≤ length)
    (h : places.Pairwise fun a b => a.stop.toNat ≤ b.start.toNat) :
    Separate length places :=
  ⟨fun s hs => (hplaces s hs).1, fun s hs => (hplaces s hs).2,
    fun _ hs _ hs' => eq_or_of_pairwise h hs hs'⟩

theorem Span.Separate.mono {length : Nat} {places places' : List Span}
    (h : Separate length places) (hsub : places' ⊆ places) : Separate length places' :=
  ⟨fun s hs => h.nonempty s (hsub hs), fun s hs => h.inside s (hsub hs),
    fun s hs s' hs' => h.apart s (hsub hs) s' (hsub hs')⟩

/-! ### The order in which fixes are tried -/

namespace Fix

/-- The first fix is tried no later than the second one. -/
def notAfter (a b : Fix × Nat) : Bool :=
  a.1.span.start < b.1.span.start ||
    (a.1.span.start == b.1.span.start && a.1.span.stop ≤ b.1.span.stop)

theorem tryOrder_eq (fixes : List Fix) : tryOrder fixes = fixes.zipIdx.mergeSort notAfter := rfl

theorem notAfter_iff {a b : Fix × Nat} : notAfter a b = true ↔
    a.1.span.start.toNat < b.1.span.start.toNat ∨
      a.1.span.start.toNat = b.1.span.start.toNat ∧
        a.1.span.stop.toNat ≤ b.1.span.stop.toNat := by
  simp [notAfter, UInt32.lt_iff_toNat_lt, UInt32.le_iff_toNat_le, UInt32.toNat_inj]

theorem notAfter_trans (a b c : Fix × Nat) (hab : notAfter a b = true)
    (hbc : notAfter b c = true) : notAfter a c = true := by
  rw [notAfter_iff] at *
  omega

theorem notAfter_total (a b : Fix × Nat) : (notAfter a b || notAfter b a) = true := by
  rw [Bool.or_eq_true, notAfter_iff, notAfter_iff]
  omega

variable {fixes : List Fix} {source : Bytes}

theorem mem_tryOrder {f : Fix} {i : Nat} : (f, i) ∈ tryOrder fixes ↔ fixes[i]? = some f := by
  rw [tryOrder_eq, List.mem_mergeSort, List.mk_mem_zipIdx_iff_getElem?]

/-- **Fixes for the same place** are tried in the order in which they were proposed. -/
theorem filter_tryOrder (fixes : List Fix) (place : Span) :
    (tryOrder fixes).filter (fun x => x.1.span = place) =
      fixes.zipIdx.filter fun x => x.1.span = place := by
  have hsame : (fixes.zipIdx.filter fun x => x.1.span = place).Pairwise
      fun a b => notAfter a b = true := by
    refine List.pairwise_of_forall_mem_list fun a ha b hb => ?_
    have hplace : a.1.span = b.1.span :=
      (decide_eq_true_eq.mp (List.mem_filter.mp ha).2).trans
        (decide_eq_true_eq.mp (List.mem_filter.mp hb).2).symm
    rw [notAfter_iff, hplace]
    omega
  have hsub := (List.sublist_mergeSort notAfter_trans notAfter_total hsame
    List.filter_sublist).filter fun x => x.1.span = place
  rw [List.filter_filter, ← tryOrder_eq] at hsub
  simp only [Bool.and_self] at hsub
  have hperm : (tryOrder fixes).Perm fixes.zipIdx := List.mergeSort_perm _ _
  exact (hsub.eq_of_length ((hperm.filter _).length_eq).symm).symm

/-- Of two fixes the one is done with before the other: its place comes first, or it was proposed
first for the same place. -/
def Before (a b : Fix × Nat) : Prop :=
  a.1.span.stop.toNat ≤ b.1.span.start.toNat ∨ a.1.span = b.1.span ∧ a.2 < b.2

theorem pairwise_tryOrder {length : Nat} (h : Span.Separate length (fixes.map Fix.span)) :
    (tryOrder fixes).Pairwise Before := by
  have hplace {x : Fix × Nat} (hx : x ∈ tryOrder fixes) : x.1.span ∈ fixes.map Fix.span :=
    List.mem_map_of_mem (List.mem_of_getElem? (mem_tryOrder.mp hx))
  rw [List.pairwise_iff_forall_sublist]
  intro a b hab
  have ha := hplace (hab.subset List.mem_cons_self)
  have hb := hplace (hab.subset (List.mem_cons_of_mem _ List.mem_cons_self))
  rcases h.apart _ ha _ hb with hsame | hbefore | hafter
  · -- both are found in the list of the fixes for this place
    refine .inr ⟨hsame, ?_⟩
    have hproposed := hab.filter fun x => x.1.span = b.1.span
    rw [filter_tryOrder] at hproposed
    simp only [hsame, decide_true, List.filter_cons_of_pos, List.filter_nil] at hproposed
    have hordered : fixes.zipIdx.Pairwise fun a b => a.2 < b.2 := by
      rw [← List.pairwise_map, List.zipIdx_map_snd]
      exact List.pairwise_lt_range'
    exact List.pairwise_iff_forall_sublist.mp hordered (hproposed.trans List.filter_sublist)
  · exact .inl hbefore
  · have hle := List.pairwise_iff_forall_sublist.mp
      (List.pairwise_mergeSort notAfter_trans notAfter_total fixes.zipIdx) hab
    have := h.nonempty _ hb
    have := notAfter_iff.mp hle
    omega

/-! ### The fixes that are applied -/

/-- The fix with a number is the first one for its place, and does not begin before the cursor. -/
def IsFirst (tried : List (Fix × Nat)) (cursor i : Nat) : Prop :=
  ∃ f, (f, i) ∈ tried ∧ cursor ≤ f.span.start.toNat ∧ ∀ x ∈ tried, x.2 < i → x.1.span ≠ f.span

section

variable {tried : List (Fix × Nat)} {f : Fix} {cursor k i : Nat}

/-- A fix that is applied is the first one for its place; behind it the others are as they
were. -/
theorem isFirst_applied (hbefore : ∀ x ∈ tried, Before (f, k) x)
    (hf : f.span.start.toNat < f.span.stop.toNat) (hcursor : cursor ≤ f.span.start.toNat) :
    IsFirst ((f, k) :: tried) cursor i ↔ i = k ∨ IsFirst tried f.span.stop.toNat i := by
  constructor
  · rintro ⟨g, hg, hstart, hothers⟩
    rcases List.mem_cons.mp hg with hg | hg
    · exact .inl (congrArg Prod.snd hg)
    · -- its place is not that of `f`, which is taken, so it is behind it
      refine .inr ⟨g, hg, ?_, fun x hx => hothers x (List.mem_cons_of_mem _ hx)⟩
      rcases hbefore _ hg with hbehind | ⟨hsame, hlater⟩
      · exact hbehind
      · exact absurd hsame (hothers (f, k) List.mem_cons_self hlater)
  · rintro (rfl | ⟨g, hg, hstart, hothers⟩)
    · refine ⟨f, List.mem_cons_self, hcursor, List.forall_mem_cons.mpr ⟨?_, fun x hx hlt => ?_⟩⟩
      · exact fun hlt => absurd hlt (Nat.lt_irrefl _)
      rcases hbefore x hx with hbehind | ⟨_, hlater⟩
      · intro hsame
        rw [hsame] at hbehind
        exact absurd hbehind (Nat.not_le.mpr hf)
      · exact absurd hlt (Nat.lt_asymm hlater)
    · refine ⟨g, List.mem_cons_of_mem _ hg, ?_,
        List.forall_mem_cons.mpr ⟨fun _ hsame => ?_, hothers⟩⟩
      · exact Nat.le_trans hcursor (Nat.le_trans (Nat.le_of_lt hf) hstart)
      · rw [← hsame] at hstart
        exact absurd hstart (Nat.not_le.mpr hf)

/-- A fix that begins before the cursor does not matter. -/
theorem isFirst_skipped (hcursor : ¬ cursor ≤ f.span.start.toNat) :
    IsFirst ((f, k) :: tried) cursor i ↔ IsFirst tried cursor i := by
  constructor
  · rintro ⟨g, hg, hstart, hothers⟩
    rcases List.mem_cons.mp hg with hg | hg
    · obtain rfl := congrArg Prod.fst hg
      exact absurd hstart hcursor
    · exact ⟨g, hg, hstart, fun x hx => hothers x (List.mem_cons_of_mem _ hx)⟩
  · rintro ⟨g, hg, hstart, hothers⟩
    refine ⟨g, List.mem_cons_of_mem _ hg, hstart,
      List.forall_mem_cons.mpr ⟨fun _ hsame => ?_, hothers⟩⟩
    rw [← hsame] at hstart
    exact hcursor hstart

/-- Of fixes that are tried in their order, the first ones for their places are applied. -/
theorem mem_applied_applyFrom (hordered : tried.Pairwise Before)
    (hfits : ∀ x ∈ tried, x.1.span.start.toNat < x.1.span.stop.toNat ∧
      x.1.span.stop.toNat ≤ source.length) :
    i ∈ (applyFrom source cursor tried).applied ↔ IsFirst tried cursor i := by
  induction tried generalizing cursor with
  | nil => simp [applyFrom, IsFirst]
  | cons first rest ih =>
    obtain ⟨f, k⟩ := first
    obtain ⟨⟨hnonempty, hinside⟩, hfits⟩ := List.forall_mem_cons.mp hfits
    obtain ⟨hbefore, hordered⟩ := List.pairwise_cons.mp hordered
    have hfit : f.fits source.length cursor = true ↔ cursor ≤ f.span.start.toNat := by
      simp only [fits, Bool.and_eq_true, decide_eq_true_eq, UInt32.le_iff_toNat_le]
      exact ⟨fun h => h.2, fun h => ⟨⟨Nat.le_of_lt hnonempty, hinside⟩, h⟩⟩
    rw [applyFrom]
    split
    case isTrue happlied =>
      rw [List.mem_cons, ih hordered hfits, isFirst_applied hbefore hnonempty (hfit.mp happlied)]
    case isFalse hskipped =>
      rw [isFirst_skipped (mt hfit.mpr hskipped)]
      exact ih hordered hfits

end

/-- **The first fix for each place** is applied, and no other one. -/
theorem mem_applied_iff {i : Nat} (h : Span.Separate source.length (fixes.map Fix.span)) :
    i ∈ (apply source fixes).applied ↔
      ∃ f, fixes[i]? = some f ∧ f.span ∉ (fixes.take i).map Fix.span := by
  have hplace (x : Fix × Nat) (hx : x ∈ tryOrder fixes) : x.1.span ∈ fixes.map Fix.span :=
    List.mem_map_of_mem (List.mem_of_getElem? (mem_tryOrder.mp hx))
  have hearlier (place : Span) : (∀ x ∈ tryOrder fixes, x.2 < i → x.1.span ≠ place) ↔
      place ∉ (fixes.take i).map Fix.span := by
    simp only [List.mem_map, not_exists, not_and]
    constructor
    · intro hothers f hf
      obtain ⟨k, hk⟩ := List.mem_iff_getElem?.mp hf
      rw [List.getElem?_take] at hk
      split at hk
      · exact hothers (f, k) (mem_tryOrder.mpr hk) ‹_›
      · cases hk
    · intro hothers x hx hlt
      refine hothers x.1 (List.mem_iff_getElem?.mpr ⟨x.2, ?_⟩)
      rw [List.getElem?_take, if_pos hlt]
      exact mem_tryOrder.mp hx
  rw [apply, List.mem_mergeSort, mem_applied_applyFrom (pairwise_tryOrder h) fun x hx =>
    ⟨h.nonempty _ (hplace x hx), h.inside _ (hplace x hx)⟩]
  simp only [IsFirst, mem_tryOrder, Nat.zero_le, true_and, hearlier]

end Fix

/-! ### The messages that are fixed -/

/-- The place that the fix of a message is for. -/
def Message.place? (message : Message) : Option Span := message.fix?.map Fix.span

namespace AnalysisSettings

/-- The places that the fixes of messages are for. -/
def places (messages : List Message) : List Span := messages.filterMap Message.place?

variable {text : Bytes} {messages : List Message} {m : Module}

theorem places_cons (message : Message) (messages : List Message) :
    places (message :: messages) = message.place?.toList ++ places messages := by
  unfold places
  rw [List.filterMap_cons]
  cases message.place? <;> rfl

theorem places_append (messages messages' : List Message) :
    places (messages ++ messages') = places messages ++ places messages' :=
  List.filterMap_append

theorem places_eq (messages : List Message) :
    ((proposals messages).map Prod.fst).map Fix.span = places messages := by
  have hzip : (messages.zipIdx.map Prod.fst).filterMap Message.place? = places messages := by
    rw [List.zipIdx_map_fst, places]
  rw [proposals, List.map_filterMap, List.map_filterMap, ← hzip, List.filterMap_map]
  refine List.filterMap_congr fun x _ => ?_
  simp [Message.place?, Option.map_map, Function.comp_def]

/-- The proposals of some messages come before those of the messages behind them. -/
theorem proposals_append (before after : List Message) :
    ∃ rest, proposals (before ++ after) = proposals before ++ rest ∧
      ∀ message f, after.head? = some message → message.fix? = some f →
        rest.head? = some (f, before.length) := by
  refine ⟨(after.zipIdx before.length).filterMap fun x => x.1.fix?.map (·, x.2), ?_, ?_⟩
  · rw [proposals, List.zipIdx_append, List.filterMap_append, Nat.zero_add]
    rfl
  · intro message f hhead hfix
    obtain ⟨rest, rfl⟩ := List.head?_eq_some_iff.mp hhead
    rw [List.zipIdx_cons, List.filterMap_cons]
    simp [hfix]

/-- **A message is fixed** if its fix is the first one for its place. -/
theorem mem_owners_iff {before after : List Message} {message : Message}
    (h : Span.Separate text.length (places (before ++ message :: after))) :
    before.length ∈ owners text (before ++ message :: after) ↔
      ∃ place, message.place? = some place ∧ place ∉ places before := by
  obtain ⟨rest, hproposals, hrest⟩ := proposals_append before (message :: after)
  -- the proposal of the message, and what is proposed before it
  have hget {f : Fix} (hfix : message.fix? = some f) :
      (proposals (before ++ message :: after))[(proposals before).length]? =
        some (f, before.length) := by
    rw [hproposals, List.getElem?_append_right (Nat.le_refl _), Nat.sub_self,
      ← List.head?_eq_getElem?]
    exact hrest message f rfl hfix
  have htake : ((((proposals (before ++ message :: after)).map Prod.fst).take
      (proposals before).length).map Fix.span) = places before := by
    rw [← places_eq before, hproposals, List.map_append, List.take_left' (List.length_map ..)]
  have happlied {i : Nat} : i ∈ (fixed text (before ++ message :: after)).applied ↔ _ :=
    Fix.mem_applied_iff (places_eq _ ▸ h)
  constructor
  · intro howner
    obtain ⟨i, hi, hlookup⟩ := List.mem_filterMap.mp howner
    obtain ⟨⟨f, _⟩, hproposal, rfl⟩ := Option.map_eq_some_iff.mp hlookup
    obtain ⟨message', hmessage, hfix⟩ := mem_proposals.mp (List.mem_of_getElem? hproposal)
    obtain rfl : message = message' := by simpa using hmessage
    -- no message has two proposals, so this is the one above
    have hindex : i = (proposals before).length := by
      have hi : ((proposals (before ++ message :: after)).map Prod.snd)[i]? =
          some before.length := by
        rw [List.getElem?_map, hproposal]
        rfl
      have hindex : ((proposals (before ++ message :: after)).map Prod.snd)[
          (proposals before).length]? = some before.length := by
        rw [List.getElem?_map, hget hfix]
        rfl
      obtain ⟨hlt, _⟩ := List.getElem?_eq_some_iff.mp hi
      exact (List.getElem?_inj hlt (nodup_owners_proposals _)).mp (hi.trans hindex.symm)
    obtain ⟨g, hg, hnew⟩ := happlied.mp hi
    rw [List.getElem?_map, hproposal] at hg
    obtain rfl := Option.some.inj hg
    rw [hindex, htake] at hnew
    exact ⟨f.span, congrArg (Option.map Fix.span) hfix, hnew⟩
  · rintro ⟨place, hplace, hnew⟩
    obtain ⟨f, hfix, rfl⟩ := Option.map_eq_some_iff.mp hplace
    refine List.mem_filterMap.mpr ⟨(proposals before).length, happlied.mpr ⟨f, ?_, ?_⟩, ?_⟩
    · rw [List.getElem?_map, hget hfix]
      rfl
    · rwa [htake]
    · rw [hget hfix]
      rfl

/-! ### The messages that are reported -/

/-- The messages that are left when the fixes for the places in the list were made before: those
without a fix, and those whose place another fix has already got. -/
def unfixed (taken : List Span) : List Message → List Message
  | [] => []
  | message :: rest =>
    if message.place?.all (· ∈ taken) then
      message :: unfixed (taken ++ message.place?.toList) rest
    else unfixed (taken ++ message.place?.toList) rest

/-- **The messages that are reported** after their fixes were made. -/
theorem report_owners (h : Span.Separate text.length (places messages)) :
    report m messages (owners text messages) =
      (unfixed [] messages).map (Message.diagnostic m) := by
  -- the walk over the messages behind some of them
  have hwalk (before after : List Message) (hsplit : messages = before ++ after) :
      ((after.zipIdx before.length).filter fun x => x.2 ∉ owners text messages).map Prod.fst =
        unfixed (places before) after := by
    induction after generalizing before with
    | nil => rfl
    | cons message rest ih =>
      have hrest := ih (before ++ [message]) (by rw [hsplit, List.append_assoc]; rfl)
      rw [List.length_append, List.length_singleton, places_append, places_cons message [],
        show places [] = [] from rfl, List.append_nil] at hrest
      have hleft : decide (before.length ∉ owners text messages) =
          message.place?.all (· ∈ places before) := by
        subst hsplit
        rw [Bool.eq_iff_iff, decide_eq_true_eq, mem_owners_iff h]
        cases message.place? <;> simp
      rw [List.zipIdx_cons, List.filter_cons, unfixed, hleft]
      split
      · rw [List.map_cons, hrest]
      · exact hrest
  have hall := congrArg (List.map (Message.diagnostic m)) (hwalk [] messages rfl)
  rw [List.map_map] at hall
  exact hall

/-- Messages behind others. -/
theorem unfixed_append (taken : List Span) (messages messages' : List Message) :
    unfixed taken (messages ++ messages') =
      unfixed taken messages ++ unfixed (taken ++ places messages) messages' := by
  induction messages generalizing taken with
  | nil => simp [unfixed, places]
  | cons message rest ih =>
    rw [List.cons_append, unfixed, unfixed, ih, List.append_assoc, places_cons]
    split <;> rfl

/-- Places that no message has a fix for do not matter. -/
theorem unfixed_apart {taken taken' : List Span} (h : ∀ s ∈ taken, s ∉ places messages) :
    unfixed (taken ++ taken') messages = unfixed taken' messages := by
  induction messages generalizing taken' with
  | nil => rfl
  | cons message rest ih =>
    have hrest : ∀ s ∈ taken, s ∉ places rest := fun s hs hin =>
      h s hs (places_cons message rest ▸ List.mem_append_right _ hin)
    have hall : message.place?.all (· ∈ taken ++ taken') = message.place?.all (· ∈ taken') := by
      cases hplace : message.place? with
      | none => rfl
      | some place =>
        have hout : place ∉ taken := fun hin => h place hin (by simp [places_cons, hplace])
        simp [hout]
    rw [unfixed, unfixed, hall, List.append_assoc, ih hrest]

/-- Groups of messages that have no place in common. -/
theorem unfixed_flatMap {α : Type} {xs : List α} {said : α → List Message}
    (h : xs.Pairwise fun a b => ∀ s ∈ places (said a), s ∉ places (said b)) :
    unfixed [] (xs.flatMap said) = xs.flatMap fun x => unfixed [] (said x) := by
  induction xs with
  | nil => rfl
  | cons x rest ih =>
    obtain ⟨hx, hrest⟩ := List.pairwise_cons.mp h
    have hapart : ∀ s ∈ places (said x), s ∉ places (rest.flatMap said) := by
      intro s hs hin
      obtain ⟨message, hmessage, hplace⟩ := List.mem_filterMap.mp hin
      obtain ⟨y, hy, hmessage⟩ := List.mem_flatMap.mp hmessage
      exact hx y hy s hs (List.mem_filterMap.mpr ⟨message, hmessage, hplace⟩)
    have htaken : unfixed (places (said x) ++ []) (rest.flatMap said) =
        unfixed [] (rest.flatMap said) := unfixed_apart hapart
    rw [List.append_nil] at htaken
    rw [List.flatMap_cons, unfixed_append, List.nil_append, htaken, ih hrest, List.flatMap_cons]

/-- Messages that are moved, with their places. -/
theorem unfixed_map {move : Message → Message} {movePlace : Span → Span}
    (hinj : Function.Injective movePlace) (taken : List Span)
    (h : ∀ message ∈ messages, (move message).place? = message.place?.map movePlace) :
    unfixed (taken.map movePlace) (messages.map move) = (unfixed taken messages).map move := by
  induction messages generalizing taken with
  | nil => rfl
  | cons message rest ih =>
    obtain ⟨hmessage, hrest⟩ := List.forall_mem_cons.mp h
    have hall : (message.place?.map movePlace).all (· ∈ taken.map movePlace) =
        message.place?.all (· ∈ taken) := by
      cases message.place? with
      | none => rfl
      | some place => exact decide_eq_decide.mpr (List.mem_map_of_injective hinj)
    have htaken : taken.map movePlace ++ (message.place?.map movePlace).toList =
        (taken ++ message.place?.toList).map movePlace := by
      cases message.place? <;> simp
    rw [List.map_cons, unfixed, unfixed, hmessage, hall, htaken, ih _ hrest]
    split <;> rfl

theorem unfixed_sublist (taken : List Span) (messages : List Message) :
    (unfixed taken messages).Sublist messages := by
  induction messages generalizing taken with
  | nil => exact .slnil
  | cons message rest ih =>
    rw [unfixed]
    split
    · exact (ih _).cons_cons _
    · exact (ih _).cons _

end AnalysisSettings

/-! ### The places of `debugger` statements -/

/-- The `debugger` statements of a script. -/
def Script.debuggers (script : Script) : List Statement :=
  script.body.filter fun s => s.kind = .debugger

namespace Outline

variable {o : Outline} {i stop : Nat} {source : Bytes}

/-- Nothing is listed after a `debugger` of the module level. -/
theorem lifted_of_debugger {s : Statement} {lifted : List Statement} (ho : o.Lawful source)
    (h : o.statement i = .ok (s :: lifted, stop)) (hkind : s.kind = .debugger) : lifted = [] := by
  unfold statement at h
  split at h
  · obtain ⟨⟨first, stop'⟩, himport, h⟩ := bind_ok h
    cases h
    rfl
  split at h
  · obtain ⟨⟨first, stop'⟩, hexport, h⟩ := bind_ok h
    cases h
    exact absurd hkind (leaves_exporting ho hexport).1
  split at h
  · cases h
    rfl
  · cases h
    exact absurd hkind (leaves_plain ho).1

variable {place : Nat → Nat × Nat} {tiles : List Tile}

/-- No statement is empty. -/
theorem Tiling.nonempty (h : o.Tiling place i tiles) (hplace : o.Placed source place)
    (hlength : source.length < 2 ^ 32) :
    ∀ s ∈ tiles.flatMap Tile.statements, s.span.start < s.span.stop := by
  intro s hs
  obtain ⟨t, ht, hs⟩ := List.mem_flatMap.mp hs
  rcases List.mem_cons.mp hs with rfl | hs
  · exact (h.spaced hplace hlength).nonempty t ht
  · obtain ⟨placed, hplaced, hwithin, _⟩ := (h.fits t ht).inside
    rw [← hplaced] at hs
    obtain ⟨p, hp, rfl⟩ := List.mem_map.mp hs
    obtain ⟨hstands, _, hstop⟩ := hwithin p hp
    have hinside := hplace.range_inside (h.fits t ht).ahead (h.fits t ht).atTop.le
    obtain ⟨hstart, hstop⟩ := hstands.toNat_span (by omega)
    rw [UInt32.lt_iff_toNat_lt, hstart, hstop]
    exact hstands.nonempty

/-- The `debugger` statements are one behind the other. -/
theorem Tiling.debuggers (ho : o.Lawful source) (h : o.Tiling place i tiles)
    (hplace : o.Placed source place) (hlength : source.length < 2 ^ 32) :
    ((tiles.flatMap Tile.statements).filter fun s => s.kind = .debugger).Pairwise
      fun a b => a.span.stop ≤ b.span.start := by
  have hspaced := h.spaced hplace hlength
  -- a statement of a tile is inside of the first one
  have hinside {t : Tile} {s : Statement} (ht : t ∈ tiles)
      (hs : s ∈ t.statements.filter fun s => s.kind = .debugger) :
      t.main.span.start ≤ s.span.start ∧ s.span.stop ≤ t.main.span.stop := by
    rcases List.mem_cons.mp (List.mem_filter.mp hs).1 with rfl | hs
    · exact ⟨UInt32.le_refl _, UInt32.le_refl _⟩
    · exact hspaced.inside t ht s hs
  rw [List.filter_flatMap, List.pairwise_flatMap]
  refine ⟨fun t ht => ?_, ?_⟩
  · rw [Tile.statements, List.filter_cons]
    split
    case isTrue hkind =>
      rw [lifted_of_debugger ho (h.fits t ht).statement (decide_eq_true_eq.mp hkind)]
      exact List.pairwise_singleton _ _
    case isFalse => exact (hspaced.apart t ht).filter _
  · refine hspaced.increasing.imp_of_mem fun {t t'} ht ht' hbefore s hs s' hs' => ?_
    exact UInt32.le_trans (hinside ht hs).2 (UInt32.le_trans hbefore (hinside ht' hs').1)

end Outline

/-- The places of the `debugger` statements of a segment in its file. -/
def Segment.debuggers (s : Segment) : List Span :=
  match s.parse with
  | .ok script => script.debuggers.map fun statement => statement.span.shifted s.offset
  | .error _ => []

section

variable {text : Bytes} {segments : List Segment} {s : Segment}

/-- A `debugger` statement as part of the file. -/
theorem toNat_debugger {script : Script} {statement : Statement} (hlength : text.length < 2 ^ 32)
    (hs : s.LiesIn text) (h : s.parse = .ok script) (hstatement : statement ∈ script.debuggers) :
    (statement.span.shifted s.offset).start.toNat =
        s.offset.toNat + statement.span.start.toNat ∧
      (statement.span.shifted s.offset).stop.toNat =
        s.offset.toNat + statement.span.stop.toNat ∧
      statement.span.stop.toNat ≤ s.text.length := by
  have hsize : s.text.length < 2 ^ 32 := by have := hs.inside; omega
  have hplace := (Segment.places_of_parse hsize h _ (List.mem_filter.mp hstatement).1).span
  obtain ⟨hstart, hstop⟩ := toNat_shifted hlength hs hplace.ordered hplace.stop
  exact ⟨hstart, hstop, hplace.stop⟩

/-- The `debugger` statements of a segment lie where it does, one behind the other. -/
theorem debuggers_lie (hlength : text.length < 2 ^ 32) (hs : s.LiesIn text) :
    (∀ place ∈ s.debuggers, s.offset.toNat ≤ place.start.toNat ∧
      place.start.toNat < place.stop.toNat ∧
      place.stop.toNat ≤ s.offset.toNat + s.text.length) ∧
    s.debuggers.Pairwise fun a b => a.stop.toNat ≤ b.start.toNat := by
  unfold Segment.debuggers
  cases hparse : s.parse with
  | error f => simp
  | ok script =>
    have hsize : s.text.length < 2 ^ 32 := by have := hs.inside; omega
    obtain ⟨o, ho, hbody⟩ := Segment.exists_outline hparse
    obtain ⟨place, hplace⟩ := Segment.placed_outline ho
    obtain ⟨tiles, htiles, hstatements⟩ :=
      Outline.exists_tiling (Segment.regular_outline ho) hplace .start hbody
    refine ⟨fun span hspan => ?_, ?_⟩
    · obtain ⟨statement, hstatement, rfl⟩ := List.mem_map.mp hspan
      obtain ⟨hstart, hstop, hinside⟩ := toNat_debugger hlength hs hparse hstatement
      have hnonempty := UInt32.lt_iff_toNat_lt.mp (htiles.nonempty hplace hsize statement
        (hstatements ▸ (List.mem_filter.mp hstatement).1))
      omega
    · have hordered := htiles.debuggers (Segment.lawful_outline hsize ho) hplace hsize
      rw [← hstatements] at hordered
      refine List.pairwise_map.mpr (hordered.imp_of_mem fun {a b} ha hb hab => ?_)
      rw [(toNat_debugger hlength hs hparse ha).2.1, (toNat_debugger hlength hs hparse hb).1]
      exact Nat.add_le_add_left (UInt32.le_iff_toNat_le.mp hab) _

/-- **The `debugger` statements of a file** are apart, also those of different segments. -/
theorem LaidFrom.separate (h : LaidFrom text 0 segments) (hlength : text.length < 2 ^ 32) :
    Span.Separate text.length (segments.flatMap Segment.debuggers) := by
  have hlie {s : Segment} (hs : s ∈ segments) := debuggers_lie hlength (h.liesIn s hs).1
  refine Span.separate_of_pairwise (fun place hplace => ?_) ?_
  · obtain ⟨s, hs, hplace⟩ := List.mem_flatMap.mp hplace
    have := (hlie hs).1 place hplace
    have := (h.liesIn s hs).1.inside
    omega
  · refine List.pairwise_flatMap.mpr ⟨fun s hs => (hlie hs).2, ?_⟩
    refine h.ordered.imp_of_mem fun {s s'} hs hs' hbefore place hplace place' hplace' => ?_
    have := (hlie hs).1 place hplace
    have := (hlie hs').1 place' hplace'
    simp only [Segment.Precedes] at hbefore
    omega

end

/-! ### Analyses with fixes -/

/-- The kept segments of the module lie in the text, and were read. -/
structure Module.CutFrom (m : Module) (text : Bytes) : Prop where
  laid : LaidFrom text 0 (m.kept.map Part.segment)
  read : ∀ part ∈ m.kept, ∀ e, part.outcome = .ok e → part.segment.parse = .ok e.script

namespace AnalysisSettings

variable {settings : AnalysisSettings} {links : Nat → Table Interface}
  {graph : Option ModuleGraph} {m : Module} {text : Bytes}
  (hrules : ∀ setting ∈ settings.rules, setting.rule ∈ Rule.builtin)
include hrules

/-- The fixes of a segment are for its `debugger` statements. -/
theorem places_saidOf {index : Nat} {part : Part}
    (hread : ∀ e, part.outcome = .ok e → part.segment.parse = .ok e.script) :
    places (settings.saidOf links graph m index part) ⊆ part.segment.debuggers := by
  intro place hplace
  obtain ⟨message, hmessage, hplace⟩ := List.mem_filterMap.mp hplace
  obtain ⟨f, hfix, rfl⟩ := Option.map_eq_some_iff.mp hplace
  rw [← messages_inspectPart] at hmessage
  obtain ⟨e, subject, finding, fix, houtcome, _, hscript, hfinding, hfix, hspan⟩ :=
    finding_of_mem_messages hrules hmessage hfix
  obtain ⟨statement, hstatement, rfl⟩ := List.mem_map.mp hfinding
  obtain rfl := Option.some.inj hfix
  rw [Segment.debuggers, hread e houtcome, hspan]
  rw [hscript] at hstatement
  exact List.mem_map_of_mem hstatement

/-- **What is reported behind the fixes** is told segment by segment. -/
theorem report_fixed (hcut : m.CutFrom text) (hlength : text.length < 2 ^ 32) :
    report m (settings.messages links graph m)
        (owners text (settings.messages links graph m)) =
      m.kept.zipIdx.flatMap fun x =>
        (unfixed [] (settings.saidOf links graph m x.2 x.1)).map (Message.diagnostic m) := by
  have hpart {x : Part × Nat} (hx : x ∈ m.kept.zipIdx) : x.1 ∈ m.kept :=
    List.mem_of_getElem? (List.mem_zipIdx_iff_getElem?.mp hx)
  have hplaces {x : Part × Nat} (hx : x ∈ m.kept.zipIdx) :
      places (settings.saidOf links graph m x.2 x.1) ⊆ x.1.segment.debuggers :=
    places_saidOf hrules (hcut.read x.1 (hpart hx))
  have hseparate : Span.Separate text.length (places (settings.messages links graph m)) := by
    refine (hcut.laid.separate hlength).mono fun place hplace => ?_
    obtain ⟨message, hmessage, hplace⟩ := List.mem_filterMap.mp hplace
    obtain ⟨x, hx, hmessage⟩ := List.mem_flatMap.mp hmessage
    refine List.mem_flatMap.mpr ⟨x.1.segment, List.mem_map_of_mem (hpart hx), ?_⟩
    exact hplaces hx (List.mem_filterMap.mpr ⟨message, hmessage, hplace⟩)
  -- no place of a segment is one of a later segment
  have hgroups : m.kept.zipIdx.Pairwise fun x y =>
      ∀ place ∈ places (settings.saidOf links graph m x.2 x.1),
        place ∉ places (settings.saidOf links graph m y.2 y.1) := by
    have hordered : m.kept.zipIdx.Pairwise fun x y => x.1.segment.Precedes y.1.segment := by
      have hordered := List.pairwise_map.mp hcut.laid.ordered
      rwa [← List.zipIdx_map_fst 0 m.kept, List.pairwise_map] at hordered
    refine hordered.imp_of_mem fun {x y} hx hy hbefore place hin hin' => ?_
    have hlie {z : Part × Nat} (hz : z ∈ m.kept.zipIdx) := (debuggers_lie hlength
      (hcut.laid.liesIn _ (List.mem_map_of_mem (hpart hz))).1).1 place
    have := hlie hx (hplaces hx hin)
    have := hlie hy (hplaces hy hin')
    simp only [Segment.Precedes] at hbefore
    omega
  rw [report_owners hseparate, messages, unfixed_flatMap hgroups, List.map_flatMap]

end AnalysisSettings

end ScriptLint
