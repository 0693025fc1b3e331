/-
Modules and the imports between them.

A node stands for a module.  It keeps the interfaces of the module's segments,
each with the interfaces that its requests lead to, the edges to the modules
that its requests resolve to, and the requests that do not resolve.  Several
edges between the same two modules count once:

* **`ModuleGraph.addEdge`** — an edge, with both of its ends;
* **`ModuleGraph.link`** — lets each request of a module see the interface of
  its target's last segment;
* **`ModuleGraph.releaseEdges`** — takes back the edges that leave a module;
* **`ModuleGraph.findPath`** — a shortest way between two modules, found
  breadth first with successors in path order.
-/
import ScriptLint.Error
import ScriptLint.Interface
import ScriptLint.Table

namespace ScriptLint

/-- An interface, and by specifier the interfaces that its requests lead to. -/
structure Record where
  interface : Interface
  loaded : Table Interface := []
  deriving DecidableEq, Inhabited, Repr

/-- A request of a module that resolves to another one. -/
structure Edge where
  specifier : Bytes
  target : Path
  deriving DecidableEq, Inhabited, Repr

/-- A module of the graph. -/
structure Node where
  path : Path
  records : List Record := []
  edges : List Edge := []
  unresolved : List (Bytes × Error) := []
  failed : Bool := false
  entry : Bool := false
  edgesReleased : Bool := false
  successors : Path.Set := ∅
  predecessors : Path.Set := ∅
  deriving Inhabited

/-- The interface that importers of the module see: that of its last segment. -/
def Node.target? (n : Node) : Option Interface := n.records.getLast?.map Record.interface

/-- Nodes by path, the paths that were handed out for loading, and the number
of distinct edges. -/
structure ModuleGraph where
  nodes : Std.TreeMap Path.Key Node := ∅
  dispatched : Std.TreeSet Path.Key := ∅
  edgeCount : Nat := 0
  deriving Inhabited

namespace ModuleGraph

/-- No modules. -/
def empty : ModuleGraph := {}

variable (g : ModuleGraph)

/-! ### Queries -/

/-- The node of a path. -/
def find? (p : Path) : Option Node := g.nodes[p.key]?

/-- The graph has a node for the path. -/
def hasModule (p : Path) : Bool := g.nodes.contains p.key

/-- The path was handed out for loading. -/
def isDispatched (p : Path) : Bool := g.dispatched.contains p.key

/-- The modules that a module has edges to, in path order. -/
def successors (p : Path) : List Path :=
  match g.find? p with
  | none => []
  | some n => Path.Set.paths n.successors

/-- The modules that have edges to a module, in path order. -/
def predecessors (p : Path) : List Path :=
  match g.find? p with
  | none => []
  | some n => Path.Set.paths n.predecessors

/-- There is an edge from one module to another. -/
def hasEdge (a b : Path) : Bool := (g.find? a).any fun n => n.successors.contains b.key

/-- All modules in path order. -/
def modules : List Path := g.nodes.values.map Node.path

/-- The number of modules. -/
def size : Nat := g.nodes.size

/-! ### Changes -/

/-- Hands a path out for loading. -/
def dispatch (p : Path) : ModuleGraph := { g with dispatched := g.dispatched.insert p.key }

/-- Changes the node of a path, a new one if there is none. -/
def update (p : Path) (f : Node → Node) : ModuleGraph :=
  { g with nodes := g.nodes.insert p.key (f ((g.find? p).getD { path := p })) }

/-- The graph with a node for the path. -/
def addModule (p : Path) : ModuleGraph := g.update p id

/-- Adds the interface of a segment. -/
def addRecord (p : Path) (i : Interface) : ModuleGraph :=
  g.update p fun n => { n with records := n.records ++ [⟨i, []⟩] }

/-- Notes that a request does not resolve. -/
def addUnresolved (p : Path) (specifier : Bytes) (e : Error) : ModuleGraph :=
  g.update p fun n => { n with unresolved := n.unresolved ++ [(specifier, e)] }

/-- Notes that the module, or a part of it, could not be read. -/
def markFailed (p : Path) : ModuleGraph := g.update p fun n => { n with failed := true }

/-- Notes that the module was asked for by the caller. -/
def markEntry (p : Path) : ModuleGraph := g.update p fun n => { n with entry := true }

/-- Adds an edge for a request, with nodes for both of its ends. -/
def addEdge (a : Path) (specifier : Bytes) (b : Path) : ModuleGraph :=
  let known := g.hasEdge a b
  let g := (g.addModule b).update a fun n =>
    { n with edges := n.edges ++ [⟨specifier, b⟩], successors := Path.Set.add b n.successors }
  if known then g
  else
    { g.update b fun n => { n with predecessors := Path.Set.add a n.predecessors } with
      edgeCount := g.edgeCount + 1 }

/-- The module that a specifier leads to: the target of the first edge for it. -/
def targetOf (n : Node) (specifier : Bytes) : Option Node :=
  (n.edges.filter fun e => e.specifier = specifier).findSome? fun e => g.find? e.target

/-- A record whose requests see their targets, as far as these have a segment. -/
def linkRecord (n : Node) (r : Record) : Record :=
  { r with
    loaded := r.interface.requests.foldl (fun loaded request =>
      match (g.targetOf n request.specifier).bind Node.target? with
      | none => loaded
      | some i => loaded.insert request.specifier i) r.loaded }

/-- Lets the requests of a module see their targets. -/
def link (p : Path) : ModuleGraph :=
  match g.find? p with
  | none => g
  | some n => g.update p fun _ => { n with records := n.records.map (g.linkRecord n) }

/-- Takes back one edge at its target. -/
def dropPredecessor (a b : Path) : ModuleGraph :=
  { g.update b fun n => { n with predecessors := n.predecessors.erase a.key } with
    edgeCount := g.edgeCount - 1 }

/-- Takes back the edges that leave a module. -/
def releaseEdges (p : Path) : ModuleGraph :=
  match g.find? p with
  | none => g
  | some n =>
    ((Path.Set.paths n.successors).foldl (fun g b => g.dropPredecessor p b) g).update p fun n =>
      { n with successors := ∅, edges := [], edgesReleased := true }

/-! ### Paths -/

/-- Breadth-first search.  The queue holds paths from the start, each with its
last module first; `seen` holds the modules that were queued.  Every step takes
a path from the queue, and every module is queued once, so the number of
modules bounds the steps. -/
def search (goal : Path.Key) : Nat → Std.TreeSet Path.Key → List (List Path) → Option (List Path)
  | 0, _, _ => none
  | _, _, [] => none
  | fuel + 1, seen, way :: queue =>
    match way with
    | [] => search goal fuel seen queue
    | here :: before =>
      if here.key = goal then some (here :: before)
      else
        let fresh := (g.successors here).filter fun p => !seen.contains p.key
        let seen := fresh.foldl (fun seen p => seen.insert p.key) seen
        search goal fuel seen (queue ++ fresh.map fun p => p :: here :: before)

/-- A shortest path from one module to another, both ends included. -/
def findPath (a b : Path) : Option (List Path) :=
  if g.hasModule a && g.hasModule b then
    (g.search b.key (g.size + 1) {a.key} [[a]]).map fun way => (b :: way.tail).reverse
  else none

/-! ### Counts -/

/-- The number of modules with a property. -/
def countNodes (property : Node → Bool) : Nat := g.nodes.values.countP property

/-- The number of requests that do not resolve. -/
def unresolvedCount : Nat := (g.nodes.values.flatMap Node.unresolved).length

end ModuleGraph

end ScriptLint
