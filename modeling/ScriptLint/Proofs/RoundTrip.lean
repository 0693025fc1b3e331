/-
Reading back what clauses say.

A text that spells clauses is a script with one statement for each clause, in order, and the
interface of the script is the one of the clauses.  The lexemes of clauses are balanced, so
that their braces can be paired; what follows a clause is a semicolon, the first word of the
next clause, or nothing.

* **`Balanced`** — braces with plain lexemes between them;
* **`Outline.bodyFrom_clauses`** — the statements of a list of clauses;
* **`Segment.parse_clauses`** — a text that spells clauses is read as these clauses.
-/
import ScriptLint.Proofs.ClauseStatements

namespace ScriptLint

open Outline Clause

/-! ### Balanced lexemes -/

/-- Lexemes of clauses with braces in pairs, one pair never inside of another. -/
inductive Balanced : List Lexeme → Prop
  | nil : Balanced []
  | plain {l : Lexeme} {rest : List Lexeme} : l.Legal → ¬ l.IsBracket → Balanced rest →
      Balanced (l :: rest)
  | group {inside rest : List Lexeme} : Plain inside → Balanced rest →
      Balanced (.mark '\x7b' :: (inside ++ .mark '\x7d' :: rest))

/-- Lexemes whose only brackets are braces in pairs, one pair never inside of another. -/
inductive Braced : List Lexeme → Prop
  | flat {lexemes : List Lexeme} : Flat lexemes → Braced lexemes
  | group {before inside rest : List Lexeme} : Flat before → Flat inside → Braced rest →
      Braced (before ++ .mark '\x7b' :: (inside ++ .mark '\x7d' :: rest))

theorem Braced.prepend {flat lexemes : List Lexeme} (hflat : Flat flat) (h : Braced lexemes) :
    Braced (flat ++ lexemes) := by
  cases h with
  | flat hflat' => exact .flat (List.forall_mem_append.mpr ⟨hflat, hflat'⟩)
  | group hbefore hinside hrest =>
    rw [← List.append_assoc]
    exact .group (List.forall_mem_append.mpr ⟨hflat, hbefore⟩) hinside hrest

theorem Braced.append {a b : List Lexeme} (ha : Braced a) (hb : Braced b) : Braced (a ++ b) := by
  induction ha with
  | flat hflat => exact hb.prepend hflat
  | group hbefore hinside _ ih =>
    rw [List.append_assoc, List.cons_append, List.append_assoc, List.cons_append]
    exact .group hbefore hinside ih

theorem Braced.cons {l : Lexeme} {lexemes : List Lexeme} (h : Braced lexemes)
    (hno : ∀ text ∈ Token.openers ++ Token.closers, l.isText text = false) :
    Braced (l :: lexemes) :=
  h.prepend (List.forall_mem_singleton.mpr hno)

namespace Balanced

variable {a b lexemes : List Lexeme}

theorem append (ha : Balanced a) (hb : Balanced b) : Balanced (a ++ b) := by
  induction ha with
  | nil => exact hb
  | plain hl hbracket _ ih => exact .plain hl hbracket ih
  | @group inside rest hinside _ ih =>
    rw [List.cons_append, List.append_assoc, List.cons_append]
    exact .group hinside ih

theorem of_plain (h : Plain lexemes) : Balanced lexemes := by
  induction lexemes with
  | nil => exact .nil
  | cons l lexemes ih =>
    obtain ⟨⟨hl, hbracket⟩, h⟩ := List.forall_mem_cons.mp h
    exact .plain hl hbracket (ih h)

theorem legal (h : Balanced lexemes) : ∀ l ∈ lexemes, l.Legal := by
  have hbraces : Lexeme.Legal (.mark '\x7b') ∧ Lexeme.Legal (.mark '\x7d') := by
    constructor <;> exact List.mem_of_elem_eq_true rfl
  induction h with
  | nil => simp
  | plain hl _ _ ih => exact List.forall_mem_cons.mpr ⟨hl, ih⟩
  | group hinside _ ih =>
    refine List.forall_mem_cons.mpr ⟨hbraces.1, List.forall_mem_append.mpr ⟨?_, ?_⟩⟩
    · exact fun l hl => (hinside l hl).1
    · exact List.forall_mem_cons.mpr ⟨hbraces.2, ih⟩

/-- Every brace of balanced lexemes stands in a pair. -/
theorem braced (h : Balanced lexemes) : Braced lexemes := by
  induction h with
  | nil => exact .flat (List.forall_mem_nil _)
  | plain hl hbracket _ ih => exact ih.cons (Lexeme.isText_bracket hl.readable hbracket)
  | group hinside _ ih => exact .group (List.forall_mem_nil _) hinside.flat ih

/-- The first word of a clause, and maybe `type` after it. -/
theorem headed {word : Bytes} (hword : word ∈ Lexeme.keywords) (typeOnly : Bool)
    (h : Balanced lexemes) : Balanced (.keyword word :: (typeWord typeOnly ++ lexemes)) :=
  (of_plain (plain_keyword hword (plain_typeWord typeOnly))).append h

theorem braces {entries : List ListEntry} (h : ∀ e ∈ entries, e.Legal) (comma : Bool) :
    Balanced (Clause.braces entries comma) :=
  .group (plain_separated h comma) .nil

theorem group_lexemes {g : Group} (h : g.Legal) : Balanced g.lexemes := by
  cases g with
  | list entries comma => exact braces h comma
  | all name =>
    refine of_plain (plain_mark (by decide) (by decide) (plain_aliased fun n hn => ?_))
    rw [← Option.some.inj hn]
    exact isOuterName_of_isFreeName h

theorem form_lexemes {f : Form} (h : f.Legal) : Balanced f.lexemes := by
  -- every form is its first word, maybe `type`, and then groups and plain lexemes
  have horigin {source : Literal} (hsource : source.Legal) : Balanced (origin source) :=
    of_plain (plain_origin hsource)
  have hname {name : Identifier} {rest : List Lexeme} (hname : isFreeName name.name = true)
      (hrest : Plain rest) : Plain (.name name :: rest) :=
    plain_name (isOuterName_of_isFreeName hname) hrest
  cases f with
  | effect source =>
    exact of_plain (plain_keyword (by decide) (plain_nil.cons h (by simp [Lexeme.IsBracket])))
  | single typeOnly name source =>
    exact headed (by decide) typeOnly (of_plain (hname h.1 (plain_origin h.2)))
  | grouped typeOnly first group source =>
    obtain ⟨hfirst, hgroup, hsource⟩ := h
    have hrest := (group_lexemes hgroup).append (horigin hsource)
    cases first with
    | none => exact headed (by decide) typeOnly hrest
    | some first =>
      have hcomma : Plain [.mark ','] := plain_mark (by decide) (by decide) plain_nil
      have hhead := of_plain (hname (hfirst first rfl) hcomma)
      exact headed (by decide) typeOnly (hhead.append hrest)
  | star typeOnly name source =>
    have hrest := (plain_aliased h.1).append (plain_origin h.2)
    exact headed (by decide) typeOnly (of_plain (plain_mark (by decide) (by decide) hrest))
  | list typeOnly entries comma source =>
    cases source with
    | none => exact headed (by decide) typeOnly (braces h.1 comma)
    | some source =>
      exact headed (by decide) typeOnly ((braces h.1 comma).append (horigin (h.2 source rfl)))

theorem ending (semicolon : Bool) : Balanced (Clause.ending semicolon) := by
  cases semicolon with
  | false => exact .nil
  | true => exact of_plain (plain_mark (by decide) (by decide) plain_nil)

/-- The lexemes of clauses are balanced. -/
theorem clauses {clauses : List Clause} (h : ∀ c ∈ clauses, c.form.Legal) :
    Balanced (clauses.flatMap Clause.lexemes) := by
  induction clauses with
  | nil => exact .nil
  | cons c clauses ih =>
    obtain ⟨hc, h⟩ := List.forall_mem_cons.mp h
    exact ((form_lexemes hc).append (.ending c.semicolon)).append (ih h)

end Balanced

/-- A clause begins with `import` or `export`. -/
theorem Clause.exists_keyword (c : Clause) : ∃ word tail, c.lexemes = .keyword word :: tail ∧
    (word = "import" ∨ word = "export") := by
  obtain ⟨form, semicolon⟩ := c
  cases form with
  | effect | single => exact ⟨_, _, rfl, .inl rfl⟩
  | grouped typeOnly first => cases first <;> exact ⟨_, _, rfl, .inl rfl⟩
  | star => exact ⟨_, _, rfl, .inr rfl⟩
  | list typeOnly entries comma source => cases source <;> exact ⟨_, _, rfl, .inr rfl⟩

/-! ### Pairing the braces -/

namespace Outline

variable {o : Outline} {i j : Nat} {lexemes : List Lexeme} {clauses : List Clause}
  {partner : Array (Option Nat)} {opened : List (Nat × Token)} {tokens : List Token}

theorem opens_of_shows {t : Token} (h : Lexeme.Shows (.mark '\x7b') t) : t.opens = true :=
  List.any_eq_true.mpr ⟨"\x7b", by decide, (h.isText _).trans (by decide)⟩

theorem closes_of_shows {t : Token} (h : Lexeme.Shows (.mark '\x7d') t) :
    t.opens = false ∧ t.closes = true := by
  constructor
  · have hall : ∀ text ∈ Token.openers, Lexeme.isText (.mark '\x7d') text = false := by decide
    exact List.any_eq_false.mpr fun text htext => by simp [h.isText, hall text htext]
  · exact List.any_eq_true.mpr ⟨"\x7d", by decide, (h.isText _).trans (by decide)⟩

theorem passes_of_shows {l : Lexeme} {t : Token}
    (hno : ∀ text ∈ Token.openers ++ Token.closers, l.isText text = false)
    (h : l.Shows t) : t.opens = false ∧ t.closes = false := by
  constructor
  · exact List.any_eq_false.mpr fun text htext => by
      simp [h.isText, hno text (List.mem_append_left _ htext)]
  · exact List.any_eq_false.mpr fun text htext => by
      simp [h.isText, hno text (List.mem_append_right _ htext)]

/-- Lexemes that are no brackets are passed. -/
theorem pairFrom_flat {inside rest : List Lexeme} (hflat : Flat inside)
    (h : List.Forall₂ Lexeme.Shows (inside ++ rest) tokens) : ∃ after,
      List.Forall₂ Lexeme.Shows rest after ∧
      pairFrom partner opened i tokens =
        pairFrom partner opened (i + inside.length) after := by
  induction inside generalizing i tokens with
  | nil => exact ⟨tokens, h, rfl⟩
  | cons l inside ih =>
    obtain ⟨hno, hflat⟩ := List.forall_mem_cons.mp hflat
    obtain ⟨t, tokens, ht, htokens, rfl⟩ := List.forall₂_cons_left_iff.mp h
    obtain ⟨hopens, hcloses⟩ := passes_of_shows hno ht
    obtain ⟨after, hafter, hpair⟩ := ih hflat htokens
    refine ⟨after, hafter, ?_⟩
    rw [pairFrom_pass hopens hcloses, hpair, List.length_cons, Nat.add_assoc, Nat.add_comm 1]

/-- The braces of lexemes can be paired, if they stand in pairs. -/
theorem pairFrom_braced (hbraced : Braced lexemes)
    (h : List.Forall₂ Lexeme.Shows lexemes tokens) :
    ∃ partner', pairFrom partner [] i tokens = .ok partner' := by
  induction hbraced generalizing partner i tokens with
  | flat hflat =>
    obtain ⟨after, hafter, hpair⟩ := pairFrom_flat hflat (by rwa [List.append_nil])
    cases hafter
    exact ⟨partner, hpair⟩
  | @group before inside rest hbefore hinside _ ih =>
    obtain ⟨after, hafter, hpair⟩ := pairFrom_flat hbefore h
    obtain ⟨opener, tokens, hopen, htokens, rfl⟩ := List.forall₂_cons_left_iff.mp hafter
    obtain ⟨after, hafter, hpair'⟩ := pairFrom_flat hinside htokens
    obtain ⟨closer, after, hclose, hrest, rfl⟩ := List.forall₂_cons_left_iff.mp hafter
    obtain ⟨hno, hcloses⟩ := closes_of_shows hclose
    -- the only open brace is the one that the closing brace is paired with
    rw [hpair, pairFrom, if_pos (opens_of_shows hopen), hpair', pairFrom, if_neg (by simp [hno]),
      if_pos hcloses]
    simp only [hclose.text, hopen.text, Lexeme.text]
    exact ih hrest

/-- The tokens carry the lexemes that they show. -/
theorem carries_of_shows (hdrop : o.tokens.toList.drop i = tokens)
    (h : List.Forall₂ Lexeme.Shows lexemes tokens) : o.Carries i lexemes := by
  induction h generalizing i with
  | nil => trivial
  | @cons l t lexemes tokens hl _ ih =>
    have hi : o.tokens.toList[i]? = some t := by
      have := congrArg List.head? hdrop
      rwa [List.head?_drop] at this
    refine ⟨⟨t, by rwa [Array.getElem?_toList] at hi, hl⟩, ih ?_⟩
    rw [← List.drop_drop, hdrop]
    rfl

theorem is_eq_false_of_size_le (h : o.size ≤ i) (text : Bytes) : o.is i text = false := by
  rw [is, Array.getElem?_eq_none h]
  rfl

/-- The outline of lexemes whose braces stand in pairs. -/
theorem exists_nested (hbraced : Braced lexemes) (h : List.Forall₂ Lexeme.Shows lexemes tokens) :
    ∃ o, ofTokens tokens = .ok o ∧ o.Nested ∧ o.Carries 0 lexemes ∧ lexemes.length = o.size := by
  obtain ⟨partner, hpartner⟩ : ∃ partner,
      pairFrom (Array.replicate tokens.length none) [] 0 tokens = .ok partner :=
    pairFrom_braced hbraced h
  have hof : ofTokens tokens = .ok ⟨tokens.toArray, partner⟩ := by
    rw [ofTokens, hpartner]
    rfl
  refine ⟨_, hof, nested_ofTokens hof, carries_of_shows rfl h, ?_⟩
  rw [h.length_eq, size, List.size_toArray]

/-- The outline of a text that spells clauses. -/
theorem exists_clausal (hbalanced : Balanced lexemes)
    (h : List.Forall₂ Lexeme.Shows lexemes tokens) :
    ∃ o, ofTokens tokens = .ok o ∧ o.Clausal ∧ o.Carries 0 lexemes ∧ lexemes.length = o.size := by
  obtain ⟨o, hof, hnested, hcarries, hsize⟩ := exists_nested hbalanced.braced h
  refine ⟨o, hof, ⟨hnested, fun i text htext => ?_⟩, hcarries, hsize⟩
  by_cases hi : i < lexemes.length
  · obtain ⟨l, hl, hat⟩ := hcarries.exists_at (Nat.zero_le i) (by omega)
    rw [hat.is, Lexeme.isText_foreign (hbalanced.legal l hl) text htext]
  · exact is_eq_false_of_size_le (by omega) text

/-! ### Statement after statement -/

/-- What follows a clause does not belong to it, apart from its semicolon. -/
theorem finishes_clause {semicolon : Bool}
    (h : o.Carries j (ending semicolon ++ clauses.flatMap Clause.lexemes))
    (hsize : j + (ending semicolon ++ clauses.flatMap Clause.lexemes).length = o.size) :
    o.Finishes j semicolon := by
  cases semicolon with
  | true =>
    have hat : o.At j (.mark ';') := h.1
    constructor
    all_goals exact hat.is_eq
  | false =>
    -- without a semicolon the next clause follows, or nothing does
    cases clauses with
    | nil =>
      have hj : o.size ≤ j := by
        rw [← hsize]
        exact Nat.le_refl _
      constructor
      all_goals exact is_eq_false_of_size_le hj _
    | cons c clauses =>
      obtain ⟨word, tail, hc, hword⟩ := c.exists_keyword
      have hat : o.At j (.keyword word) := by
        rw [List.flatMap_cons, hc] at h
        exact h.1
      rcases hword with rfl | rfl
      all_goals
        constructor
        all_goals exact hat.is_eq

theorem behind_eq (c : Clause) :
    behind (i + c.form.lexemes.length) c.semicolon = i + c.lexemes.length := by
  obtain ⟨form, semicolon⟩ := c
  cases semicolon with
  | false =>
    rw [behind, Clause.lexemes, ending, if_neg Bool.false_ne_true, if_neg Bool.false_ne_true,
      List.append_nil]
  | true =>
    rw [behind, Clause.lexemes, ending, if_pos rfl, if_pos rfl, List.length_append,
      List.length_singleton, Nat.add_assoc]

/-- **The statements of clauses** are these, in order. -/
theorem bodyFrom_clauses (ho : o.Clausal) (hlegal : ∀ c ∈ clauses, c.form.Legal)
    (h : o.Carries i (clauses.flatMap Clause.lexemes))
    (hsize : i + (clauses.flatMap Clause.lexemes).length = o.size) :
    ∃ body, o.bodyFrom i = .ok body ∧ List.Forall₂ Clause.Node clauses body := by
  induction clauses generalizing i with
  | nil =>
    have hi : ¬ i < o.size := by
      rw [← hsize]
      exact Nat.lt_irrefl _
    exact ⟨[], by rw [bodyFrom, if_neg hi], .nil⟩
  | cons c clauses ih =>
    obtain ⟨hc, hlegal⟩ := List.forall_mem_cons.mp hlegal
    rw [List.flatMap_cons] at h hsize
    obtain ⟨word, tail, hhead, hword⟩ := c.exists_keyword
    have hat : o.At i (.keyword word) := by
      rw [hhead] at h
      exact h.1
    have hmark : o.is i ";" = false := by
      rcases hword with rfl | rfl
      all_goals exact hat.is_eq
    have hlength : 0 < c.lexemes.length := by
      rw [hhead]
      exact Nat.succ_pos _
    have hform : o.Carries i c.form.lexemes := h.left.left
    -- the form is followed by its semicolon and the other clauses
    have hfinish : o.Finishes (i + c.form.lexemes.length) c.semicolon := by
      rw [Clause.lexemes, List.append_assoc] at h hsize
      refine finishes_clause h.right ?_
      rw [List.length_append] at hsize
      omega
    obtain ⟨s, hstatement, hnode⟩ := statement_clause ho hc hform hfinish
    rw [behind_eq] at hstatement
    obtain ⟨body, hbody, hnodes⟩ := ih hlegal h.right (by rw [List.length_append] at hsize; omega)
    refine ⟨s :: body, ?_, .cons hnode hnodes⟩
    rw [bodyFrom, if_pos hat.lt, hmark, if_neg Bool.false_ne_true, hstatement]
    show (do let rest ← o.bodyFrom (max (i + c.lexemes.length) (i + 1)); return [s] ++ rest) = _
    rw [Nat.max_eq_left (by omega), hbody]
    rfl

end Outline

/-! ### The interface -/

/-- Statements that are the clauses share what the clauses share. -/
theorem Interface.ofScript_eq {clauses : List Clause} {script : Script}
    (h : List.Forall₂ Clause.Node clauses script.body) (path : Path) (segment : Nat)
    (offset : UInt32) :
    Interface.ofScript path segment offset script =
      Interface.ofClauses path segment offset clauses := by
  obtain ⟨text, dialect, body⟩ := script
  replace h : List.Forall₂ Clause.Node clauses body := h
  simp only [Interface.ofScript, Interface.ofClauses, Interface.mk.injEq, true_and]
  induction h with
  | nil => exact ⟨rfl, rfl, rfl, rfl⟩
  | @cons c s clauses body hnode _ ih =>
    -- the first statement adds what the first clause says
    obtain ⟨hrequests, himports, hexports, hall⟩ := ih
    refine ⟨?_, ?_, ?_, ?_⟩
    · rw [List.flatMap_cons, ← hnode.requests, ← hrequests, List.filterMap_cons]
      cases Interface.requestOf offset s <;> rfl
    · rw [List.flatMap_cons, List.flatMap_cons, hnode.imports, himports]
    · rw [List.flatMap_cons, List.flatMap_cons, List.filter_append, List.map_append, hnode.exports,
        hexports]
    · rw [List.flatMap_cons, List.any_append, List.any_cons, hnode.exportsAll, hall]

namespace Segment

/-- **A text that spells clauses** is read as one statement for each clause, in order, and its
interface is the one of the clauses. -/
theorem parse_clauses {s : Segment} {clauses : List Clause} (hlegal : ∀ c ∈ clauses, c.form.Legal)
    (h : Clause.Spell clauses s.text) :
    ∃ script, s.parse = .ok script ∧ List.Forall₂ Clause.Node clauses script.body ∧
      ∀ path segment, Interface.ofScript path segment s.offset script =
        Interface.ofClauses path segment s.offset clauses := by
  have hbalanced := Balanced.clauses hlegal
  obtain ⟨tokens, hscan, hshows⟩ : ∃ tokens, Token.scan s.dialect.elements s.text = .ok tokens ∧
      List.Forall₂ Lexeme.Shows (clauses.flatMap Clause.lexemes) tokens :=
    h.scan_eq hbalanced.legal
  obtain ⟨o, hof, ho, hcarries, hsize⟩ := Outline.exists_clausal hbalanced hshows
  obtain ⟨body, hbody, hnodes⟩ := Outline.bodyFrom_clauses ho hlegal hcarries (by omega)
  refine ⟨⟨s.text, s.dialect, body⟩, ?_, hnodes, fun path segment => ?_⟩
  · have hparse : Script.parse s.dialect s.text = .ok ⟨s.text, s.dialect, body⟩ := by
      simp only [Script.parse, hscan, hof, Outline.body, hbody, bind, Except.bind]
      rfl
    rw [parse, hparse]
  · exact Interface.ofScript_eq hnodes path segment s.offset

/-- A default with a list, a comment in place of the semicolon, and an export of everything. -/
theorem parse_clauses_default_star : ∃ (s : Segment) (clauses : List Clause) (script : Script),
    s.text = "import a,\x7bdefault as b\x7dfrom\"./x\"//\nexport*from\"y\"" ∧ s.offset = 100 ∧
    Clause.Spell clauses s.text ∧ s.parse = .ok script ∧
    List.Forall₂ Clause.Node clauses script.body ∧
    ∀ path segment, Interface.ofScript path segment 100 script =
      { path, segment,
        requests := [⟨"./x", .importing, ⟨127, 132⟩, false⟩,
          ⟨"y", .reexporting, ⟨146, 149⟩, false⟩],
        imports := [⟨"./x", "default", "a", ⟨107, 108⟩, false⟩,
          ⟨"./x", "default", "b", ⟨121, 122⟩, false⟩],
        exports := [], exportsAll := true } := by
  let clauses : List Clause :=
    [⟨.grouped false (some ⟨"a", ⟨7, 8⟩⟩)
        (.list [⟨⟨"default", ⟨10, 17⟩⟩, some ⟨"b", ⟨21, 22⟩⟩, false⟩] false)
        ⟨'"', "./x", ⟨27, 32⟩⟩, false⟩,
      ⟨.star false none ⟨'"', "y", ⟨46, 49⟩⟩, false⟩]
  have hlegal : ∀ c ∈ clauses, c.form.Legal := by
    have hname : ∀ n ∈ some (⟨"a", ⟨7, 8⟩⟩ : Identifier), isFreeName n.name = true := by decide
    have hentry : ListEntry.Legal ⟨⟨"default", ⟨10, 17⟩⟩, some ⟨"b", ⟨21, 22⟩⟩, false⟩ :=
      ⟨by decide, by decide⟩
    have hsources : Literal.Legal ⟨'"', "./x", ⟨27, 32⟩⟩ ∧ Literal.Legal ⟨'"', "y", ⟨46, 49⟩⟩ := by
      decide +kernel
    refine List.forall_mem_cons.mpr ⟨⟨hname, ?_, hsources.1⟩, ?_⟩
    · exact List.forall_mem_singleton.mpr hentry
    · exact List.forall_mem_singleton.mpr ⟨by simp, hsources.2⟩
  have hspell : Clause.Spell clauses
      "import a,\x7bdefault as b\x7dfrom\"./x\"//\nexport*from\"y\"" := by
    have hblank : Filler [' '] := .blank rfl .nil
    have hcomment : Filler ['/', '/', '\n'] := .line (List.forall_mem_nil _) .nil
    -- one step for each lexeme, with the filler before it
    have h : Spells false 0 (clauses.flatMap Clause.lexemes) _ :=
      .next .nil (by decide) (by decide) <| .next hblank (by decide) (by decide) <|
      .next .nil (by decide) (by decide) <| .next .nil (by decide) (by decide) <|
      .next .nil (by decide) (by decide) <| .next hblank (by decide) (by decide) <|
      .next hblank (by decide) (by decide) <| .next .nil (by decide) (by decide) <|
      .next .nil (by decide) (by decide) <| .next .nil (by decide) (by decide) <|
      .next hcomment (by decide) (by decide) <| .next .nil (by decide) (by decide) <|
      .next .nil (by decide) (by decide) <| .next .nil (by decide) (by decide) <|
      .done (.filler .nil)
    exact h
  obtain ⟨script, hparse, hnodes, hinterface⟩ :=
    parse_clauses (s := ⟨_, 100, ⟨false, false⟩⟩) hlegal hspell
  exact ⟨_, clauses, script, rfl, rfl, hspell, hparse, hnodes, hinterface⟩

end Segment

end ScriptLint
