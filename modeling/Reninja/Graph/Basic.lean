import Mathlib.Algebra.Group.Int.Defs
import Mathlib.Algebra.GroupWithZero.Nat
import Mathlib.Data.List.Perm.Basic
import Reninja.Library.Program

/-!
# The build graph and the state of a build

Nodes, edges and pools as in `internal/graph`, together with everything a build changes: the
plan, the two logs and the disk. The source works on pointers; here a node is named by its
path (`State.paths` has one node for each path, created on first use) and an edge by its
position in `State.edges`.
-/

namespace Reninja

abbrev GoString := List UInt8

instance lawfulBEqGoString : LawfulBEq GoString := inferInstance

instance : Coe String GoString := ⟨fun s => s.toByteArray.toList⟩

abbrev Path := GoString
abbrev EdgeId := Nat
abbrev PoolId := Nat
abbrev ScopeId := Nat
abbrev TimeStamp := Int

/-! ### Nodes, edges and pools -/

inductive ExistenceStatus where
  | unknown | missing | present
  deriving DecidableEq, Repr

inductive VisitMark where
  | none | inStack | done
  deriving DecidableEq, Repr

/-- A file of the graph. A node that nothing has touched yet is what `NewNode` makes. -/
structure Node where
  mtime : TimeStamp := -1
  existence : ExistenceStatus := .unknown
  dirty : Bool := false
  dyndepPending : Bool := false
  generatedByDepLoader : Bool := true
  inEdge : Option EdgeId := .none
  outEdges : List EdgeId := []
  deriving DecidableEq, Repr

def Node.exists (n : Node) : Bool := n.existence = .present

def Node.statusKnown (n : Node) : Bool := n.existence ≠ .unknown

/-- The bindings that the scan and the builder read. -/
inductive Key where
  | command | depfile | deps | generator | restat | rspfile | rspfileContent
  deriving DecidableEq, Repr

/-- A job slot: negative when invalid, 256 for the implicit slot, else a byte of the pipe. -/
abbrev Slot := Int

def Slot.valid (s : Slot) : Bool := 0 ≤ s

/-- A build statement. `rule` holds the bindings of its rule, expanded for this edge; `scope`
is the scope of the edge and `parents` the scopes around it, innermost first. -/
structure Edge where
  phony : Bool := false
  rule : Key → Option GoString := fun _ => .none
  scope : ScopeId := 0
  parents : List ScopeId := []
  pool : PoolId := 0
  explicitInputs : List Path := []
  implicitInputs : List Path := []
  orderOnlyInputs : List Path := []
  outputs : List Path := []
  validations : List Path := []
  dyndep : Option Path := .none
  mark : VisitMark := .none
  criticalPathWeight : Int := -1
  outputsReady : Bool := false
  depsLoaded : Bool := false
  depsMissing : Bool := false
  commandStartTime : TimeStamp := 0
  jobSlot : Slot := 0
  implicitOuts : Nat := 0

def Edge.inputs (e : Edge) : List Path :=
  e.explicitInputs ++ e.implicitInputs ++ e.orderOnlyInputs

def Edge.nonOrderOnlyInputs (e : Edge) : List Path :=
  e.explicitInputs ++ e.implicitInputs

/-- `CriticalPathWeight()`: an edge whose weight was never computed counts as zero. -/
def Edge.weight (e : Edge) : Int :=
  if e.criticalPathWeight = -1 then 0 else e.criticalPathWeight

/-- A pool; depth zero means no limit. -/
structure Pool where
  name : GoString := []
  depth : Nat := 0
  currentUse : Int := 0
  delayed : List EdgeId := []

def Pool.shouldDelayEdge (p : Pool) : Bool := p.depth ≠ 0

inductive DiskEntry where
  | file (mtime : TimeStamp) (content : GoString) (executable : Bool)
  | statError (msg : GoString)
  deriving DecidableEq, Repr

/-- The disk: what is at each path, and the time that the next write will carry. `noDirs`
holds the paths whose parent directories cannot be made. -/
structure Disk where
  entries : Path → Option DiskEntry := fun _ => .none
  clock : TimeStamp := 1
  noDirs : Path → Option GoString := fun _ => .none

structure LogEntry where
  mtime : TimeStamp
  commandHash : Nat
  deriving DecidableEq, Repr

structure Deps where
  mtime : TimeStamp
  nodes : List Path
  deriving DecidableEq, Repr

/-- The deps log: the paths that have an id, in the order of their ids, and the records. -/
structure DepsLog where
  ids : List Path := []
  deps : Path → Option Deps := fun _ => .none

/-! ### The plan -/

inductive Want where
  | nothing | toStart | toFinish
  deriving DecidableEq, Repr

inductive EdgeResult where
  | failed | succeeded
  deriving DecidableEq, Repr

/-- What a dyndep file says of one edge. -/
structure Dyndeps where
  restat : Bool := false
  implicitInputs : List Path := []
  implicitOutputs : List Path := []
  deriving DecidableEq, Repr

abbrev DyndepFile := List (EdgeId × Dyndeps)

/-- The parts of the state that scheduling decisions depend on. -/
structure Snapshot where
  nodes : Path → Node
  edges : EdgeId → Edge
  pools : PoolId → Pool
  want : EdgeId → Option Want
  ready : List EdgeId

/-- What happened so far, as far as the properties of whole runs speak of it; `before` is the
state at that moment. The trace is written and never read by the program. -/
inductive Event where
  | wanted (e : EdgeId)
  | unwanted (e : EdgeId) (before : Snapshot)
  | found (e : EdgeId)
  | finished (e : EdgeId) (r : EdgeResult)
  | acquired (s : Slot)
  | released (s : Slot)
  | scheduled (e : EdgeId)
  | delayed (e : EdgeId)
  | scanned (e : EdgeId) (before : Snapshot)
  | linked (e : EdgeId) (before : Snapshot)
  | produced (n : Path) (before : Snapshot)
  | dyndepUpdate (node : Path) (ddf : DyndepFile) (before : Snapshot)
  | dyndepWalk (node : Path) (roots : DyndepFile) (before : Snapshot)
  | scanLoadedDyndep (node : Path)
  | refreshAddedTarget (node : Path) (before : Snapshot)
  | reaped (e : EdgeId) (success : Bool)
  | noProgress (exitCode : Int)

/-- A jobserver client: the slots it is going to hand out, and how many it has handed out. -/
structure Jobserver where
  offers : Nat → Slot
  taken : Nat := 0

/-- Everything a build reads and changes. -/
structure World where
  nodes : Path → Node := fun _ => {}
  edges : EdgeId → Edge := fun _ => {}
  edgeCount : Nat := 0
  scopes : ScopeId → Key → Option GoString := fun _ _ => .none
  pools : PoolId → Pool := fun _ => {}
  disk : Disk := {}
  buildLog : Option (Path → Option LogEntry) := .none
  depsLog : Option DepsLog := .none
  want : EdgeId → Option Want := fun _ => .none
  ready : List EdgeId := []
  targets : List Path := []
  commandEdges : Int := 0
  wantedEdges : Int := 0
  jobserver : Option Jobserver := .none
  ranges : Nat := 0
  trace : List Event := []

/-- How a call can end other than by returning: a Go error, a panic, `util.Fatal`, or the
model's recursion bound. -/
inductive Failure where
  | error (msg : GoString)
  | panic (msg : GoString)
  | fatal (msg : GoString)
  | outOfFuel
  deriving DecidableEq, Repr

abbrev M := EStateM Failure World

/-- An order for every range over a map: `visit k n` is the order in which the `k`-th range,
over a map of `n` keys, meets them. -/
structure MapOrder where
  visit : Nat → Nat → List Nat
  perm : ∀ k n, (visit k n).Perm (List.range n)

def MapOrder.inOrder : MapOrder := ⟨fun _ n => List.range n, fun _ _ => List.Perm.refl _⟩

def MapOrder.arrange {α : Type} (o : MapOrder) (k : Nat) (l : List α) : List α :=
  (o.visit k l.length).filterMap (l[·]?)

lemma filterMap_getElem?_range {α : Type} (l : List α) :
    (List.range l.length).filterMap (l[·]?) = l := by
  induction l with
  | nil => rfl
  | cons a l ih =>
    rw [List.length_cons, List.range_succ_eq_map, List.filterMap_cons, List.filterMap_map]
    simpa [Function.comp_def] using ih

lemma MapOrder.arrange_perm {α : Type} (o : MapOrder) (k : Nat) (l : List α) :
    (o.arrange k l).Perm l := by
  have h := (o.perm k l.length).filterMap (l[·]?)
  rwa [filterMap_getElem?_range] at h

/-- The parts of the program and its surroundings that no call changes: the order of map
ranges, the hash of commands, the two parsers and the options. -/
structure Env where
  order : MapOrder := .inOrder
  hashCommand : GoString → Nat := fun _ => 0
  canonicalizePath : GoString → Path := id
  parseDepfile : GoString → Except GoString (List GoString × List GoString) := fun _ => .ok ([], [])
  parseDyndep : GoString → Except GoString (List (GoString × Dyndeps)) := fun _ => .ok []
  dryRun : Bool := false
  keepDepfile : Bool := false
  keepRsp : Bool := false
  failuresAllowed : Nat := 1
  lockFilePath : Path := ".ninja_lock"

def rangeOver {α : Type} (env : Env) (l : List α) : M (List α) := do
  let w ← get
  modify fun w => { w with ranges := w.ranges + 1 }
  pure (env.order.arrange w.ranges l)

/-! ### Access -/

namespace World

variable (w : World)

def setNode (n : Path) (f : Node → Node) : World :=
  { w with nodes := Function.update w.nodes n (f (w.nodes n)) }

def setEdge (e : EdgeId) (f : Edge → Edge) : World :=
  { w with edges := Function.update w.edges e (f (w.edges e)) }

def setPool (p : PoolId) (f : Pool → Pool) : World :=
  { w with pools := Function.update w.pools p (f (w.pools p)) }

def setWant (e : EdgeId) (v : Option Want) : World :=
  { w with want := Function.update w.want e v }

def log (ev : Event) : World := { w with trace := w.trace ++ [ev] }

def snapshot : Snapshot :=
  { nodes := w.nodes, edges := w.edges, pools := w.pools, want := w.want, ready := w.ready }

def producer (n : Path) : Option EdgeId := (w.nodes n).inEdge

def wantKeys : List EdgeId := (List.range w.edgeCount).filter fun e => (w.want e).isSome

def allInputsReady (e : EdgeId) : Bool :=
  (w.edges e).inputs.all fun i =>
    match w.producer i with
    | none => true
    | some f => (w.edges f).outputsReady

def getBinding (e : EdgeId) (k : Key) : GoString :=
  match w.scopes (w.edges e).scope k with
  | some v => v
  | none =>
    match (w.edges e).rule k with
    | some v => v
    | none => ((w.edges e).parents.findSome? fun s => w.scopes s k).getD []

def getBindingBool (e : EdgeId) (k : Key) : Bool :=
  let value := w.getBinding e k
  value ≠ [] && value ≠ "0" && value.map toLower ≠ "false"
where
  /-- `strings.ToLower` on the bytes that `"false"` is made of. -/
  toLower (c : UInt8) : UInt8 := if 65 ≤ c && c ≤ 90 then c + 32 else c

/-- `EvaluateCommand`: the command, with the content of the response file when asked for. -/
def evaluateCommand (e : EdgeId) (inclRspFile : Bool) : GoString :=
  let command := w.getBinding e .command
  let content := w.getBinding e .rspfileContent
  if inclRspFile && content ≠ [] then command ++ ";rspfile=" ++ content else command

end World

end Reninja
