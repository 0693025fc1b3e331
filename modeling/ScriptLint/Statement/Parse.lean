/-
Reading an outline as statements.

Each form of statement decides how far it reaches and which names it declares
and mentions.  Reading goes from statement to statement, and every statement
takes at least one token:

* **`Outline.declaration?`** — functions, classes and variables;
* **`Outline.importing`**, **`Outline.exporting`** — the statements that link
  modules; these can be malformed;
* **`Outline.statement`** — the statement at a token, with the `debugger`
  statements inside it;
* **`Script.parse`** — the statements of a text, or the first fault.
-/
import ScriptLint.Token.Scan
import ScriptLint.Statement.Mention

namespace ScriptLint

/-- A declaration: its kind, the names it declares and mentions, and the index
after it. -/
structure Declaration where
  kind : Statement.Kind
  declared : List Identifier
  references : List Identifier
  stop : Nat
  deriving Inhabited, Repr

/-- One entry of a specifier list, by the indices of its tokens. -/
structure Specifier where
  name : Nat
  renamed : Option Nat
  typeOnly : Bool
  deriving Inhabited, Repr

namespace Outline

variable (o : Outline)

/-- The end of a function: after its body, or after the semicolon of a
signature. -/
def functionEnd (k : Nat) : Nat :=
  if k < o.size then
    if o.is k "\x7b" then o.afterGroup k
    else if o.opens k then functionEnd (o.afterGroup k)
    else if o.is k ";" then k + 1
    else functionEnd (k + 1)
  else o.size
termination_by o.size - k
decreasing_by
  · have := o.lt_afterGroup k; omega
  · omega

/-- A brace that does not belong to a type in the heading of a class. -/
def opensClassBody (k : Nat) : Bool :=
  o.is k "\x7b" && !o.is (k - 1) "extends" && !o.is (k - 1) "implements" && !o.is (k - 1) ","

/-- The end of a class: after its body. -/
def classEnd (k : Nat) : Nat :=
  if k < o.size then
    if o.opensClassBody k then o.afterGroup k
    else if o.opens k then classEnd (o.afterGroup k)
    else classEnd (k + 1)
  else o.size
termination_by o.size - k
decreasing_by
  · have := o.lt_afterGroup k; omega
  · omega

/-- The names that a variable declaration binds from index `k` on.  A name or a
pattern is expected at its beginning and after each comma. -/
def variableNames (stop k : Nat) (expecting : Bool) : List Identifier :=
  if k < stop then
    if expecting && o.isBindable k then o.identifier k :: variableNames stop (k + 1) false
    else if expecting && (o.is k "\x7b" || o.is k "[") then
      o.patternNames k ++ variableNames stop (o.afterGroup k) false
    else if o.opens k then variableNames stop (o.afterGroup k) expecting
    else variableNames stop (k + 1) (expecting || o.is k ",")
  else []
termination_by stop - k
decreasing_by
  · omega
  · have := o.lt_afterGroup k; omega
  · have := o.lt_afterGroup k; omega
  · omega

/-- The name at an index, if one may stand there. -/
def nameAt (j : Nat) : List Identifier := if o.isBindable j then [o.identifier j] else []

/-- The function whose declaration begins at `i`. -/
def functionDeclaration (i : Nat) : Declaration :=
  let j := (if o.is i "async" then i + 1 else i) + 1
  let j := if o.is j "*" then j + 1 else j
  let declared := o.nameAt j
  let j := j + declared.length
  let stop := o.functionEnd j
  ⟨.function, declared, o.references declared j stop, stop⟩

/-- The class whose declaration begins at `i`. -/
def classDeclaration (i : Nat) : Declaration :=
  let j := (if o.is i "abstract" then i + 1 else i) + 1
  let declared := o.nameAt j
  let j := j + declared.length
  let stop := o.classEnd j
  ⟨.classDef, declared, o.references declared j stop, stop⟩

/-- The variables whose declaration begins at `i`. -/
def variableDeclaration (i : Nat) : Declaration :=
  let stop := o.statementEnd i
  let declared := o.variableNames stop (i + 1) true
  ⟨.variable, declared, o.references declared (i + 1) stop, stop⟩

/-- The declaration that begins at an index, if one does. -/
def declaration? (i : Nat) : Option Declaration :=
  if o.is i "function" ||
      (o.is i "async" && o.is (i + 1) "function" && !(o.token (i + 1)).onNewLine) then
    some (o.functionDeclaration i)
  else if o.is i "class" || (o.is i "abstract" && o.is (i + 1) "class") then
    some (o.classDeclaration i)
  else if o.is i "var" || (o.is i "const" && !o.is (i + 1) "enum") ||
      (o.is i "let" && (o.isBindable (i + 1) || o.is (i + 1) "\x7b" || o.is (i + 1) "[")) then
    some (o.variableDeclaration i)
  else none

/-- The index after the import attributes and the semicolon that may follow a
module name. -/
def moduleEnd (j : Nat) : Nat :=
  let j :=
    if (o.is j "with" || o.is j "assert") && o.is (j + 1) "\x7b" && !(o.token j).onNewLine then
      o.afterGroup (j + 1)
    else j
  if o.is j ";" then j + 1 else j

/-- The literal at an index, as a module name. -/
def moduleName (j : Nat) : Identifier := ⟨(o.token j).value, (o.token j).span⟩

/-- The tokens at an index name something, as a word or as a string. -/
def isSpelled (i : Nat) : Bool := o.isWord i || o.isString i

/-- The entries of a specifier list from index `k` up to the closing brace, and
nothing if the list is malformed. -/
def specifiers (close k : Nat) : Option (List Specifier) :=
  if k < close then
    if o.is k "," then specifiers close (k + 1)
    else
      let typeOnly := o.is k "type" && o.isSpelled (k + 1) && !o.is (k + 1) "as"
      let name := if typeOnly then k + 1 else k
      if !o.isSpelled name then none
      else
        let isRenamed := o.is (name + 1) "as"
        if isRenamed && !o.isSpelled (name + 2) then none
        else
          let next := if isRenamed then name + 3 else name + 1
          if next < close && !o.is next "," then none
          else do
            let rest ← specifiers close next
            return ⟨name, if isRenamed then some (name + 2) else none, typeOnly⟩ :: rest
  else some []
termination_by close - k
decreasing_by
  · omega
  · split <;> split <;> omega

/-- The list of specifiers that the brace at an index opens. -/
def specifierList (brace : Nat) : Option (List Specifier) :=
  o.specifiers (o.partnerOf brace) (brace + 1)

/-- The default binding of an import, and where its other bindings begin.  The
error is the index at which the clause is malformed. -/
def defaultClause (typeOnly : Bool) (j : Nat) : Except Nat (List Binding × Nat) :=
  if o.isBindable j then
    let binding : Binding := ⟨(o.token j).text, "default", (o.token j).span, typeOnly⟩
    if o.is (j + 1) "," then .ok ([binding], j + 2)
    else if o.is (j + 1) "from" then .ok ([binding], j + 1)
    else .error (j + 1)
  else .ok ([], j)

/-- The binding that an entry of an import's specifier list creates. -/
def importedBinding (typeOnly : Bool) (s : Specifier) : Binding :=
  let inner := o.token (s.renamed.getD s.name)
  ⟨inner.text, (o.token s.name).spelling, inner.span, typeOnly || s.typeOnly⟩

/-- The namespace or the named bindings of an import, and where `from` is
expected. -/
def namedClause (typeOnly : Bool) (j : Nat) : Except Nat (List Binding × Nat) :=
  if o.is j "*" then
    if o.is (j + 1) "as" && o.isBindable (j + 2) then
      .ok ([⟨(o.token (j + 2)).text, "*", (o.token (j + 2)).span, typeOnly⟩], j + 3)
    else .error j
  else if o.is j "\x7b" then
    match o.specifierList j with
    | none => .error j
    | some entries => .ok (entries.map (o.importedBinding typeOnly), o.afterGroup j)
  else .ok ([], j)

/-- The bindings of an import, and the index of `from`, which a literal must
follow. -/
def importClause (typeOnly : Bool) (j : Nat) : Except Nat (List Binding × Nat) := do
  let (first, j) ← o.defaultClause typeOnly j
  let (others, j) ← o.namedClause typeOnly j
  if o.is j "from" && o.isString (j + 1) then return (first ++ others, j)
  else throw j

/-- The word `type` at an index makes the whole import one of types. -/
def importsTypes (j : Nat) : Bool :=
  o.is j "type" &&
    ((o.isWord (j + 1) && !o.is (j + 1) "from") || o.is (j + 1) "\x7b" || o.is (j + 1) "*")

/-- The import that begins at `i`, and the index after it. -/
def importing (i : Nat) : Except Failure (Statement × Nat) :=
  let typeOnly := o.importsTypes (i + 1)
  let j := if typeOnly then i + 2 else i + 1
  if o.isString j then
    let stop := o.moduleEnd (j + 1)
    .ok ({ kind := .importing, span := o.spanOf i stop, source := some (o.moduleName j), typeOnly },
      stop)
  else if o.isBindable j && o.is (j + 1) "=" then
    let stop := o.statementEnd j
    let declared := [o.identifier j]
    .ok ({ kind := .variable, span := o.spanOf i stop, typeOnly, declared,
           references := o.references declared (j + 1) stop }, stop)
  else
    match o.importClause typeOnly j with
    | .error j => .error ⟨.malformedImport, o.spanOf i (min (j + 1) o.size)⟩
    | .ok (bindings, j) =>
      let stop := o.moduleEnd (j + 2)
      .ok ({ kind := .importing, span := o.spanOf i stop, source := some (o.moduleName (j + 1)),
             typeOnly, bindings }, stop)

/-- `export * from` and `export * as name from`, the star being at `j`. -/
def starExport (i : Nat) (typeOnly : Bool) (j : Nat) : Except Failure (Statement × Nat) :=
  let named := o.is (j + 1) "as" && o.isSpelled (j + 2)
  let binding : Binding :=
    if named then ⟨[], (o.token (j + 2)).spelling, (o.token (j + 2)).span, typeOnly⟩
    else ⟨[], "*", (o.token j).span, typeOnly⟩
  let j := if named then j + 3 else j + 1
  if o.is j "from" && o.isString (j + 1) then
    let stop := o.moduleEnd (j + 2)
    .ok ({ kind := .exporting, span := o.spanOf i stop, source := some (o.moduleName (j + 1)),
           typeOnly, bindings := [binding] }, stop)
  else .error ⟨.malformedExport, o.spanOf i (min (j + 1) o.size)⟩

/-- The binding that an entry of an export's specifier list creates. -/
def exportedBinding (typeOnly : Bool) (s : Specifier) : Binding :=
  let outer := o.token (s.renamed.getD s.name)
  ⟨(o.token s.name).spelling, outer.spelling, outer.span, typeOnly || s.typeOnly⟩

/-- `export { … }`, the brace being at `brace`.  Without another module's name,
the local names are mentions. -/
def listExport (i : Nat) (typeOnly : Bool) (brace : Nat) : Except Failure (Statement × Nat) :=
  match o.specifierList brace with
  | none => .error ⟨.malformedExport, o.spanOf i (o.afterGroup brace)⟩
  | some entries =>
    let bindings := entries.map (o.exportedBinding typeOnly)
    let j := o.afterGroup brace
    if o.is j "from" && o.isString (j + 1) then
      let stop := o.moduleEnd (j + 2)
      .ok ({ kind := .exporting, span := o.spanOf i stop, source := some (o.moduleName (j + 1)),
             typeOnly, bindings }, stop)
    else
      let stop := if o.is j ";" then j + 1 else j
      let references := bindings.filterMap fun b =>
        if b.inner ≠ [] ∧ b.inner ∉ Token.reserved then some ⟨b.inner, b.span⟩ else none
      .ok ({ kind := .exporting, span := o.spanOf i stop, typeOnly, bindings, references }, stop)

/-- `export default`, the word `default` being at `j`.  A function or class is
a declaration; anything else is an expression. -/
def defaultExport (i j : Nat) : Statement × Nat :=
  let declaration := (o.declaration? (j + 1)).filter fun d => d.kind != .variable
  let (declared, references, stop) := match declaration with
    | some d => (d.declared, d.references, d.stop)
    | none =>
      let stop := o.statementEnd (j + 1)
      ([], o.references [] (j + 1) stop, stop)
  let inner := (declared.head?.map Identifier.name).getD []
  ({ kind := .exporting, span := o.spanOf i stop, isDefault := true,
     bindings := [⟨inner, "default", (o.token j).span, false⟩], declared, references }, stop)

/-- `export` before a declaration. -/
def declaredExport (i : Nat) (d : Declaration) : Statement × Nat :=
  ({ kind := .exporting, span := o.spanOf i d.stop,
     bindings := d.declared.map fun name => ⟨name.name, name.name, name.span, false⟩,
     declared := d.declared, references := d.references }, d.stop)

/-- `export` before anything else: the declarations that only types have. -/
def typeExport (i j : Nat) : Statement × Nat :=
  let declared :=
    if (o.is j "interface" || o.is j "type" || o.is j "enum") && o.isBindable (j + 1) then
      [o.identifier (j + 1)]
    else []
  let stop := o.statementEnd j
  ({ kind := .exporting, span := o.spanOf i stop,
     bindings := declared.map fun name => ⟨name.name, name.name, name.span, true⟩,
     declared, references := o.references declared j stop }, stop)

/-- The export that begins at `i`, and the index after it. -/
def exporting (i : Nat) : Except Failure (Statement × Nat) :=
  let typeOnly := o.is (i + 1) "type" && (o.is (i + 2) "\x7b" || o.is (i + 2) "*")
  let j := if typeOnly then i + 2 else i + 1
  if o.is j "*" then o.starExport i typeOnly j
  else if o.is j "\x7b" then o.listExport i typeOnly j
  else if o.is j "default" then .ok (o.defaultExport i j)
  else match o.declaration? j with
    | some d => .ok (o.declaredExport i d)
    | none => .ok (o.typeExport i j)

/-- A statement that links no modules, and the index after it. -/
def plain (i : Nat) : Statement × Nat :=
  match o.declaration? i with
  | some d =>
    ({ kind := d.kind, span := o.spanOf i d.stop, declared := d.declared,
       references := d.references }, d.stop)
  | none =>
    let stop := o.statementEnd i
    ({ kind := .expression, span := o.spanOf i stop, references := o.references [] i stop }, stop)

/-- The statement that begins at `i`, followed by the `debugger` statements
inside it, and the index after it. -/
def statement (i : Nat) : Except Failure (List Statement × Nat) :=
  if o.is i "import" && !o.is (i + 1) "(" && !o.is (i + 1) "." then do
    let (s, stop) ← o.importing i
    return ([s], stop)
  else if o.is i "export" then do
    let (s, stop) ← o.exporting i
    return (s :: o.debuggers i stop, stop)
  else if o.is i "debugger" then
    let stop := o.statementEnd i
    .ok ([{ kind := .debugger, span := o.spanOf i stop }], stop)
  else
    let (s, stop) := o.plain i
    .ok (s :: o.debuggers i stop, stop)

/-- The statements from index `i` on.  A semicolon between statements belongs
to none. -/
def bodyFrom (i : Nat) : Except Failure (List Statement) :=
  if i < o.size then
    if o.is i ";" then bodyFrom (i + 1)
    else do
      let (statements, stop) ← o.statement i
      let rest ← bodyFrom (max stop (i + 1))
      return statements ++ rest
  else .ok []
termination_by o.size - i

/-- All statements. -/
def body : Except Failure (List Statement) := o.bodyFrom 0

end Outline

/-- The statements of a text, or the first fault in it. -/
def Script.parse (dialect : Dialect) (text : Bytes) : Except Failure Script := do
  let tokens ← Token.scan dialect.elements text
  let outline ← Outline.ofTokens tokens
  let body ← outline.body
  return ⟨text, dialect, body⟩

end ScriptLint
