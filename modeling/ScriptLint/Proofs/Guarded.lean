/-
Reading with every access guarded.

The functions that read statements look tokens and partners up by their indices.  Here they
are written once more, each look-up and each jump guarded: there is no result if an index is
out of range, if a bracket has no partner, or if a reader would not go forward.

* **`Outline.Guarded.statement`** — the guarded reader of a statement;
* **`Outline.Guarded.body`** — the guarded loop over all statements.
-/
import ScriptLint.Statement.Parse

namespace ScriptLint

namespace Outline

namespace Guarded

variable (o : Outline)

/-! ### Look-ups -/

/-- The token at an index, if there is one. -/
def token (i : Nat) : Option Token := o.tokens[i]?

/-- The partner of the bracket at an index, if it is known and ahead. -/
def partner (k : Nat) : Option { m : Nat // k < m } := do
  let m ← o.partner[k]?.join
  if h : k < m then some ⟨m, h⟩ else none

/-- The index behind a group, if the group ends ahead. -/
def afterGroup (k : Nat) : Option { next : Nat // k < next } :=
  (partner o k).map fun ⟨m, hm⟩ => ⟨m + 1, Nat.lt_succ_of_lt hm⟩

/-- The identifier at an index. -/
def identifier (i : Nat) : Option Identifier := do
  let t ← token o i
  return ⟨t.text, t.span⟩

/-- The bytes from one token up to the last one before an index. -/
def spanOf (i stop : Nat) : Option Span := do
  let first ← token o i
  if stop ≤ i then return first.span
  let last ← token o (stop - 1)
  return ⟨first.span.start, last.span.stop⟩

/-- What is found at each of the indices, in order. -/
def collect {α : Type} (f : Nat → Option (List α)) : List Nat → Option (List α)
  | [] => some []
  | i :: rest => do return (← f i) ++ (← collect f rest)

/-- The identifiers that the tokens from `start` up to `stop` mention. -/
def references (declared : List Identifier) (start stop : Nat) : Option (List Identifier) :=
  collect (fun i => do
    let t ← token o i
    return if o.isMention i && declared.all (·.span != t.span) then [⟨t.text, t.span⟩] else [])
    (indices start (min stop o.size))

/-- The `debugger` statements among the tokens from `start` up to `stop`. -/
def debuggers (start stop : Nat) : Option (List Statement) :=
  collect (fun i => do
    if o.isDebugger i then
      return [{ kind := .debugger, span := ← spanOf o i (if o.is (i + 1) ";" then i + 2 else i + 1) }]
    else return [])
    (indices start (min stop o.size))

/-! ### Ends -/

/-- A line begins at the token of an index behind `start`, and a statement may begin there. -/
def breaksBefore (start i : Nat) : Option Bool :=
  if start < i then do
    let t ← token o i
    let before ← token o (i - 1)
    return t.onNewLine && before.endsExpression && t.startsStatement
  else some false

/-- The end of the statement that begins at `start`, looked for from `i` on. -/
def statementEndFrom (start i : Nat) : Option Nat :=
  if i < o.size then
    match breaksBefore o start i with
    | none => none
    | some true => some i
    | some false =>
      if o.opens i then
        match afterGroup o i with
        | none => none
        | some ⟨next, _⟩ => statementEndFrom start next
      else if o.is i ";" then some (i + 1)
      else if o.closes i then some i
      else statementEndFrom start (i + 1)
  else some o.size
termination_by o.size - i
decreasing_by all_goals omega

/-- The end of a function. -/
def functionEnd (k : Nat) : Option Nat :=
  if k < o.size then
    if o.is k "\x7b" then (afterGroup o k).map Subtype.val
    else if o.opens k then
      match afterGroup o k with
      | none => none
      | some ⟨next, _⟩ => functionEnd next
    else if o.is k ";" then some (k + 1)
    else functionEnd (k + 1)
  else some o.size
termination_by o.size - k
decreasing_by all_goals omega

/-- The end of a class. -/
def classEnd (k : Nat) : Option Nat :=
  if k < o.size then
    if o.opensClassBody k then (afterGroup o k).map Subtype.val
    else if o.opens k then
      match afterGroup o k with
      | none => none
      | some ⟨next, _⟩ => classEnd next
    else classEnd (k + 1)
  else some o.size
termination_by o.size - k
decreasing_by all_goals omega

/-! ### Declarations -/

/-- The names that a destructuring pattern binds. -/
def patternNames (opener : Nat) : Option (List Identifier) := do
  collect (fun k =>
    if o.isBindable k && !o.is (k - 1) "." && !o.is (k - 1) "=" &&
        (o.is (k + 1) "," || o.is (k + 1) "\x7d" || o.is (k + 1) "]" || o.is (k + 1) "=") then do
      return [← identifier o k]
    else some [])
    (indices (opener + 1) (← partner o opener).val)

/-- The names that a variable declaration binds from index `k` on. -/
def variableNames (stop k : Nat) (expecting : Bool) : Option (List Identifier) :=
  if k < stop then
    if expecting && o.isBindable k then do
      let name ← identifier o k
      let rest ← variableNames stop (k + 1) false
      return name :: rest
    else if expecting && (o.is k "\x7b" || o.is k "[") then
      match afterGroup o k with
      | none => none
      | some ⟨next, _⟩ => do
        let names ← patternNames o k
        let rest ← variableNames stop next false
        return names ++ rest
    else if o.opens k then
      match afterGroup o k with
      | none => none
      | some ⟨next, _⟩ => variableNames stop next expecting
    else variableNames stop (k + 1) (expecting || o.is k ",")
  else some []
termination_by stop - k
decreasing_by all_goals omega

/-- The name at an index, if one may stand there. -/
def nameAt (j : Nat) : Option (List Identifier) :=
  if o.isBindable j then do return [← identifier o j] else some []

/-- The function whose declaration begins at `i`. -/
def functionDeclaration (i : Nat) : Option Declaration := do
  let j := (if o.is i "async" then i + 1 else i) + 1
  let j := if o.is j "*" then j + 1 else j
  let declared ← nameAt o j
  let j := j + declared.length
  let stop ← functionEnd o j
  return ⟨.function, declared, ← references o declared j stop, stop⟩

/-- The class whose declaration begins at `i`. -/
def classDeclaration (i : Nat) : Option Declaration := do
  let j := (if o.is i "abstract" then i + 1 else i) + 1
  let declared ← nameAt o j
  let j := j + declared.length
  let stop ← classEnd o j
  return ⟨.classDef, declared, ← references o declared j stop, stop⟩

/-- The variables whose declaration begins at `i`. -/
def variableDeclaration (i : Nat) : Option Declaration := do
  let stop ← statementEndFrom o i i
  let declared ← variableNames o stop (i + 1) true
  return ⟨.variable, declared, ← references o declared (i + 1) stop, stop⟩

/-- The word `async` at an index belongs to a function. -/
def beginsAsync (i : Nat) : Option Bool :=
  if o.is i "async" && o.is (i + 1) "function" then do
    let t ← token o (i + 1)
    return !t.onNewLine
  else some false

/-- The declaration that begins at an index, if one does. -/
def declaration (i : Nat) : Option (Option Declaration) := do
  let async ← beginsAsync o i
  if o.is i "function" || async then return some (← functionDeclaration o i)
  else if o.is i "class" || (o.is i "abstract" && o.is (i + 1) "class") then
    return some (← classDeclaration o i)
  else if o.is i "var" || (o.is i "const" && !o.is (i + 1) "enum") ||
      (o.is i "let" && (o.isBindable (i + 1) || o.is (i + 1) "\x7b" || o.is (i + 1) "[")) then
    return some (← variableDeclaration o i)
  else return none

/-! ### Imports and exports -/

/-- The index after the import attributes and the semicolon that may follow a module
name. -/
def moduleEnd (j : Nat) : Option Nat := do
  let j ←
    if (o.is j "with" || o.is j "assert") && o.is (j + 1) "\x7b" then do
      let t ← token o j
      if t.onNewLine then pure j else pure (← afterGroup o (j + 1)).val
    else pure j
  return if o.is j ";" then j + 1 else j

/-- The literal at an index, as a module name. -/
def moduleName (j : Nat) : Option Identifier := do
  let t ← token o j
  return ⟨t.value, t.span⟩

/-- The bindings of the entries of a specifier list from index `k` up to the closing brace,
and `some none` if the list is malformed. -/
def specifiers (bind : Specifier → Option Binding) (close k : Nat) :
    Option (Option (List Binding)) :=
  if k < close then
    if o.is k "," then specifiers bind close (k + 1)
    else
      let typeOnly := o.is k "type" && o.isSpelled (k + 1) && !o.is (k + 1) "as"
      let name := if typeOnly then k + 1 else k
      if !o.isSpelled name then some none
      else
        let isRenamed := o.is (name + 1) "as"
        if isRenamed && !o.isSpelled (name + 2) then some none
        else
          let next := if isRenamed then name + 3 else name + 1
          if next < close && !o.is next "," then some none
          else do
            let binding ← bind ⟨name, if isRenamed then some (name + 2) else none, typeOnly⟩
            let rest ← specifiers bind close next
            return rest.map (binding :: ·)
  else some (some [])
termination_by close - k
decreasing_by
  · omega
  · split <;> split <;> omega

/-- The list of specifiers that the brace at an index opens. -/
def specifierList (bind : Specifier → Option Binding) (brace : Nat) :
    Option (Option (List Binding)) := do
  specifiers o bind (← partner o brace).val (brace + 1)

/-- The default binding of an import, and where its other bindings begin. -/
def defaultClause (typeOnly : Bool) (j : Nat) : Option (Except Nat (List Binding × Nat)) :=
  if o.isBindable j then do
    let t ← token o j
    let binding : Binding := ⟨t.text, "default", t.span, typeOnly⟩
    return if o.is (j + 1) "," then .ok ([binding], j + 2)
      else if o.is (j + 1) "from" then .ok ([binding], j + 1)
      else .error (j + 1)
  else some (.ok ([], j))

/-- The binding that an entry of an import's specifier list creates. -/
def importedBinding (typeOnly : Bool) (s : Specifier) : Option Binding := do
  let inner ← token o (s.renamed.getD s.name)
  let outer ← token o s.name
  return ⟨inner.text, outer.spelling, inner.span, typeOnly || s.typeOnly⟩

/-- The namespace or the named bindings of an import, and where `from` is expected. -/
def namedClause (typeOnly : Bool) (j : Nat) : Option (Except Nat (List Binding × Nat)) :=
  if o.is j "*" then
    if o.is (j + 1) "as" && o.isBindable (j + 2) then do
      let t ← token o (j + 2)
      return .ok ([⟨t.text, "*", t.span, typeOnly⟩], j + 3)
    else some (.error j)
  else if o.is j "\x7b" then do
    match ← specifierList o (importedBinding o typeOnly) j with
    | none => return .error j
    | some bindings => return .ok (bindings, (← afterGroup o j).val)
  else some (.ok ([], j))

/-- The bindings of an import, and the index of `from`. -/
def importClause (typeOnly : Bool) (j : Nat) : Option (Except Nat (List Binding × Nat)) := do
  match ← defaultClause o typeOnly j with
  | .error j => return .error j
  | .ok (first, j) =>
    match ← namedClause o typeOnly j with
    | .error j => return .error j
    | .ok (others, j) =>
      return if o.is j "from" && o.isString (j + 1) then .ok (first ++ others, j) else .error j

/-- The import that begins at `i`, and the index after it. -/
def importing (i : Nat) : Option (Except Failure (Statement × Nat)) :=
  let typeOnly := o.importsTypes (i + 1)
  let j := if typeOnly then i + 2 else i + 1
  if o.isString j then do
    let stop ← moduleEnd o (j + 1)
    return .ok ({ kind := .importing, span := ← spanOf o i stop, source := ← moduleName o j,
                  typeOnly }, stop)
  else if o.isBindable j && o.is (j + 1) "=" then do
    let stop ← statementEndFrom o j j
    let declared := [← identifier o j]
    return .ok ({ kind := .variable, span := ← spanOf o i stop, typeOnly, declared,
                  references := ← references o declared (j + 1) stop }, stop)
  else do
    match ← importClause o typeOnly j with
    | .error j => return .error ⟨.malformedImport, ← spanOf o i (min (j + 1) o.size)⟩
    | .ok (bindings, j) =>
      let stop ← moduleEnd o (j + 2)
      return .ok ({ kind := .importing, span := ← spanOf o i stop,
                    source := ← moduleName o (j + 1), typeOnly, bindings }, stop)

/-- `export * from` and `export * as name from`, the star being at `j`. -/
def starExport (i : Nat) (typeOnly : Bool) (j : Nat) :
    Option (Except Failure (Statement × Nat)) := do
  let named := o.is (j + 1) "as" && o.isSpelled (j + 2)
  let t ← token o (if named then j + 2 else j)
  let binding : Binding := ⟨[], if named then t.spelling else "*", t.span, typeOnly⟩
  let j := if named then j + 3 else j + 1
  if o.is j "from" && o.isString (j + 1) then
    let stop ← moduleEnd o (j + 2)
    return .ok ({ kind := .exporting, span := ← spanOf o i stop,
                  source := ← moduleName o (j + 1), typeOnly, bindings := [binding] }, stop)
  else return .error ⟨.malformedExport, ← spanOf o i (min (j + 1) o.size)⟩

/-- The binding that an entry of an export's specifier list creates. -/
def exportedBinding (typeOnly : Bool) (s : Specifier) : Option Binding := do
  let outer ← token o (s.renamed.getD s.name)
  let inner ← token o s.name
  return ⟨inner.spelling, outer.spelling, outer.span, typeOnly || s.typeOnly⟩

/-- `export { … }`, the brace being at `brace`. -/
def listExport (i : Nat) (typeOnly : Bool) (brace : Nat) :
    Option (Except Failure (Statement × Nat)) := do
  match ← specifierList o (exportedBinding o typeOnly) brace with
  | none => return .error ⟨.malformedExport, ← spanOf o i (← afterGroup o brace).val⟩
  | some bindings =>
    let ⟨j, _⟩ ← afterGroup o brace
    if o.is j "from" && o.isString (j + 1) then
      let stop ← moduleEnd o (j + 2)
      return .ok ({ kind := .exporting, span := ← spanOf o i stop,
                    source := ← moduleName o (j + 1), typeOnly, bindings }, stop)
    else
      let stop := if o.is j ";" then j + 1 else j
      let references := bindings.filterMap fun b =>
        if b.inner ≠ [] ∧ b.inner ∉ Token.reserved then some ⟨b.inner, b.span⟩ else none
      return .ok ({ kind := .exporting, span := ← spanOf o i stop, typeOnly, bindings,
                    references }, stop)

/-- `export default`, the word `default` being at `j`. -/
def defaultExport (i j : Nat) : Option (Statement × Nat) := do
  let (declared, references, stop) ←
    match (← declaration o (j + 1)).filter fun d => d.kind != .variable with
    | some d => pure (d.declared, d.references, d.stop)
    | none => do
      let stop ← statementEndFrom o (j + 1) (j + 1)
      pure ([], ← references o [] (j + 1) stop, stop)
  let inner := (declared.head?.map Identifier.name).getD []
  let t ← token o j
  return ({ kind := .exporting, span := ← spanOf o i stop, isDefault := true,
            bindings := [⟨inner, "default", t.span, false⟩], declared, references }, stop)

/-- `export` before a declaration. -/
def declaredExport (i : Nat) (d : Declaration) : Option (Statement × Nat) := do
  return ({ kind := .exporting, span := ← spanOf o i d.stop,
            bindings := d.declared.map fun name => ⟨name.name, name.name, name.span, false⟩,
            declared := d.declared, references := d.references }, d.stop)

/-- `export` before anything else. -/
def typeExport (i j : Nat) : Option (Statement × Nat) := do
  let declared ←
    if (o.is j "interface" || o.is j "type" || o.is j "enum") && o.isBindable (j + 1) then do
      pure [← identifier o (j + 1)]
    else pure []
  let stop ← statementEndFrom o j j
  return ({ kind := .exporting, span := ← spanOf o i stop,
            bindings := declared.map fun name => ⟨name.name, name.name, name.span, true⟩,
            declared, references := ← references o declared j stop }, stop)

/-- The export that begins at `i`, and the index after it. -/
def exporting (i : Nat) : Option (Except Failure (Statement × Nat)) :=
  let typeOnly := o.is (i + 1) "type" && (o.is (i + 2) "\x7b" || o.is (i + 2) "*")
  let j := if typeOnly then i + 2 else i + 1
  if o.is j "*" then starExport o i typeOnly j
  else if o.is j "\x7b" then listExport o i typeOnly j
  else if o.is j "default" then (defaultExport o i j).map .ok
  else do
    match ← declaration o j with
    | some d => (declaredExport o i d).map .ok
    | none => (typeExport o i j).map .ok

/-! ### Statements -/

/-- A statement that links no modules, and the index after it. -/
def plain (i : Nat) : Option (Statement × Nat) := do
  match ← declaration o i with
  | some d =>
    return ({ kind := d.kind, span := ← spanOf o i d.stop, declared := d.declared,
              references := d.references }, d.stop)
  | none =>
    let stop ← statementEndFrom o i i
    return ({ kind := .expression, span := ← spanOf o i stop,
              references := ← references o [] i stop }, stop)

/-- The statement that begins at `i`, followed by the `debugger` statements inside it, and
the index after it. -/
def statement (i : Nat) : Option (Except Failure (List Statement × Nat)) :=
  if o.is i "import" && !o.is (i + 1) "(" && !o.is (i + 1) "." then do
    match ← importing o i with
    | .error failure => return .error failure
    | .ok (s, stop) => return .ok ([s], stop)
  else if o.is i "export" then do
    match ← exporting o i with
    | .error failure => return .error failure
    | .ok (s, stop) => return .ok (s :: (← debuggers o i stop), stop)
  else if o.is i "debugger" then do
    let stop ← statementEndFrom o i i
    return .ok ([{ kind := .debugger, span := ← spanOf o i stop }], stop)
  else do
    let (s, stop) ← plain o i
    return .ok (s :: (← debuggers o i stop), stop)

/-- The statements from index `i` on.  There is no result if a statement does not end behind
its beginning. -/
def bodyFrom (i : Nat) : Option (Except Failure (List Statement)) :=
  if i < o.size then
    if o.is i ";" then bodyFrom (i + 1)
    else
      match statement o i with
      | none => none
      | some (.error failure) => some (.error failure)
      | some (.ok (statements, stop)) =>
        if i < stop then do
          match ← bodyFrom stop with
          | .error failure => return .error failure
          | .ok rest => return .ok (statements ++ rest)
        else none
  else some (.ok [])
termination_by o.size - i

/-- All statements. -/
def body : Option (Except Failure (List Statement)) := bodyFrom o 0

end Guarded

end Outline

end ScriptLint
