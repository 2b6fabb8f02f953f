import Reninja.Graph.Basic

/-!
# The dependency scan

`DependencyScan` with the two loaders it uses: the implicit dependencies of an edge (from the
deps log or from a depfile) and dyndep files. The recursion of the scan carries a bound `fuel`;
running out of it is an outcome of its own, different from every outcome of the source.
-/

namespace Reninja

open Program

/-! ### The disk -/

namespace Disk

variable (d : Disk)

/-- `Stat`: zero for a file that does not exist. -/
def stat (p : Path) : Except GoString TimeStamp :=
  match d.entries p with
  | none => .ok 0
  | some (.file m _ _) => .ok m
  | some (.statError e) => .error e

def readFile (p : Path) : Except GoString (Option GoString) :=
  match d.entries p with
  | none => .ok none
  | some (.file _ c _) => .ok (some c)
  | some (.statError e) => .error e

def removeFile (p : Path) : Disk :=
  match d.entries p with
  | some (.file _ _ _) => { d with entries := Function.update d.entries p none }
  | _ => d

def removeCode (p : Path) : Int :=
  match d.entries p with
  | none => 1
  | some (.file _ _ _) => 0
  | some (.statError _) => -1

def put (p : Path) (content : GoString) (executable : Bool) : Disk :=
  { d with entries := Function.update d.entries p (some (.file d.clock content executable)) }

/-- `WriteFile`: a file that exists keeps its mode. -/
def writeFile (p : Path) (content : GoString) : Except GoString Disk :=
  match d.noDirs p, d.entries p with
  | some e, _ => .error e
  | none, some (.statError e) => .error e
  | none, some (.file _ _ x) => .ok (d.put p content x)
  | none, none => .ok (d.put p content false)

end Disk

def getNode (n : Path) : M Node := do return (← get).nodes n

def getEdge (e : EdgeId) : M Edge := do return (← get).edges e

def updNode (n : Path) (f : Node → Node) : M Unit := modify fun w => w.setNode n f

def updEdge (e : EdgeId) (f : Edge → Edge) : M Unit := modify fun w => w.setEdge e f

def record (ev : Event) : M Unit := modify fun w => w.log ev

/-- Record an event with the state it happens in. -/
def note (ev : Snapshot → Event) : M Unit := modify fun w => w.log (ev w.snapshot)

section Access

variable {w w' : World} {u : Unit}

@[simp] lemma getNode_ok {n : Path} {m : Node} :
    getNode n w = .ok m w' ↔ w.nodes n = m ∧ w = w' := by
  rw [getNode, get_bind_ok, pure_ok]

lemma getNode_bind_ok {α : Type} {n : Path} {f : Node → M α} {a : α} :
    (getNode n >>= f) w = .ok a w' ↔ f (w.nodes n) w = .ok a w' := .rfl

@[simp] lemma getEdge_ok {e : EdgeId} {x : Edge} :
    getEdge e w = .ok x w' ↔ w.edges e = x ∧ w = w' := by
  rw [getEdge, get_bind_ok, pure_ok]

lemma getEdge_bind_ok {α : Type} {e : EdgeId} {f : Edge → M α} {a : α} :
    (getEdge e >>= f) w = .ok a w' ↔ f (w.edges e) w = .ok a w' := .rfl

@[simp] lemma updNode_ok {n : Path} {f : Node → Node} :
    updNode n f w = .ok u w' ↔ w.setNode n f = w' := modify_ok

@[simp] lemma updEdge_ok {e : EdgeId} {f : Edge → Edge} :
    updEdge e f w = .ok u w' ↔ w.setEdge e f = w' := modify_ok

@[simp] lemma record_ok {ev : Event} : record ev w = .ok u w' ↔ w.log ev = w' := modify_ok

@[simp] lemma note_ok {ev : Snapshot → Event} :
    note ev w = .ok u w' ↔ w.log (ev w.snapshot) = w' := modify_ok

lemma getEdge_apply (e : EdgeId) (w : World) : getEdge e w = .ok (w.edges e) w := rfl

lemma updNode_apply (n : Path) (f : Node → Node) (w : World) :
    updNode n f w = .ok () (w.setNode n f) := rfl

lemma updEdge_apply (e : EdgeId) (f : Edge → Edge) (w : World) :
    updEdge e f w = .ok () (w.setEdge e f) := rfl

lemma note_apply (ev : Snapshot → Event) (w : World) :
    note ev w = .ok () (w.log (ev w.snapshot)) := rfl

end Access

section Update

variable {w : World} {e f : EdgeId} {n m : Path}

@[simp] lemma World.setEdge_edges_self (g : Edge → Edge) :
    (w.setEdge e g).edges e = g (w.edges e) := by
  simp [World.setEdge]

lemma World.setEdge_edges_ne (g : Edge → Edge) (h : f ≠ e) :
    (w.setEdge e g).edges f = w.edges f := by
  simp [World.setEdge, h]

@[simp] lemma World.setEdge_nodes (g : Edge → Edge) : (w.setEdge e g).nodes = w.nodes := rfl

@[simp] lemma World.setEdge_producer (g : Edge → Edge) :
    (w.setEdge e g).producer n = w.producer n := rfl

@[simp] lemma World.setNode_nodes_self (g : Node → Node) :
    (w.setNode n g).nodes n = g (w.nodes n) := by
  simp [World.setNode]

lemma World.setNode_nodes_ne (g : Node → Node) (h : m ≠ n) :
    (w.setNode n g).nodes m = w.nodes m := by
  simp [World.setNode, h]

/-- What holds of every edge that is not changed and of the one that is. -/
lemma World.setEdge_forall {P : Edge → Edge → Prop} {g : Edge → Edge} (hrefl : ∀ x, P x x)
    (h : P (w.edges e) (g (w.edges e))) (f : EdgeId) : P (w.edges f) ((w.setEdge e g).edges f) := by
  by_cases hf : f = e
  · subst hf
    rwa [World.setEdge_edges_self]
  · rw [World.setEdge_edges_ne _ hf]
    exact hrefl _

lemma World.setNode_forall {P : Path → Node → Node → Prop} {g : Node → Node}
    (hrefl : ∀ m x, P m x x) (h : P n (w.nodes n) (g (w.nodes n))) (m : Path) :
    P m (w.nodes m) ((w.setNode n g).nodes m) := by
  by_cases hm : m = n
  · subst hm
    rwa [World.setNode_nodes_self]
  · rw [World.setNode_nodes_ne _ hm]
    exact hrefl m _

@[simp] lemma World.setNode_edges (g : Node → Node) : (w.setNode n g).edges = w.edges := rfl

@[simp] lemma World.log_edges (ev : Event) : (w.log ev).edges = w.edges := rfl

@[simp] lemma World.log_nodes (ev : Event) : (w.log ev).nodes = w.nodes := rfl

@[simp] lemma World.log_producer (ev : Event) : (w.log ev).producer n = w.producer n := rfl

end Update

/-- A call into the disk interface whose error is returned. -/
def orError {α : Type} : Except GoString α → M α
  | .ok a => pure a
  | .error e => throw (.error e)

@[simp] lemma orError_ok {α : Type} {r : Except GoString α} {a : α} {w w' : World} :
    orError r w = .ok a w' ↔ r = .ok a ∧ w = w' := by
  cases r with
  | ok b => simp [orError]
  | error err => simp [orError]

def statIfNecessary (n : Path) : M Unit := do
  if (← getNode n).statusKnown then
    pure ()
  else
    let mtime ← orError ((← get).disk.stat n)
    updNode n fun m => { m with
      mtime := mtime, existence := if mtime = 0 then .missing else .present }

def addImplicitInputs (e : EdgeId) (nodes : List Path) : M Unit := do
  note (.linked e)
  forEach nodes fun n => updNode n fun m => { m with outEdges := m.outEdges ++ [e] }
  updEdge e fun d => { d with implicitInputs := d.implicitInputs ++ nodes }

def firstOutput (e : EdgeId) : M Path := do
  match (← getEdge e).outputs with
  | []     => throw (.panic "index out of range [0] with length 0")
  | o :: _ => pure o

def loadDepFile (env : Env) (e : EdgeId) (path : Path) : M Bool := do
  let content ← orError ((← get).disk.readFile path)
  let out ← firstOutput e
  match content.getD [] with
  | [] => pure false
  | c :: cs =>
    match env.parseDepfile (c :: cs) with
    | .error err => throw (.error (path ++ ": " ++ err))
    | .ok ([], _) => throw (.panic "index out of range [0] with length 0")
    | .ok (primaryOut :: outs, ins) =>
      if out ≠ env.canonicalizePath primaryOut then
        pure false
      else
        -- the loop over the edge's outputs ends after the first one
        match (primaryOut :: outs).find? (· ≠ out) with
        | some o => throw (.error (path ++ ": depfile mentions '" ++ o ++
            "' as an output, but no such output was declared"))
        | none =>
          addImplicitInputs e (ins.map env.canonicalizePath)
          pure true

def loadDepsFromLog (e : EdgeId) : M Bool := do
  let out ← firstOutput e
  let w ← get
  match w.depsLog.bind fun log => log.deps out with
  | none => pure false
  | some deps =>
    if (w.nodes out).mtime > deps.mtime then
      pure false
    else
      addImplicitInputs e deps.nodes
      pure true

def loadDeps (env : Env) (e : EdgeId) : M Bool := do
  let w ← get
  if w.getBinding e .deps ≠ [] then
    loadDepsFromLog e
  else if w.getBinding e .depfile ≠ [] then
    loadDepFile env e (w.getBinding e .depfile)
  else
    pure true

def resolveDyndeps (w : World) : List (GoString × Dyndeps) → DyndepFile → Except GoString DyndepFile
  | [], ddf => .ok ddf
  | (out, d) :: rest, ddf =>
    match w.producer out with
    | none   => .error ("no build statement exists for '" ++ out ++ "'")
    | some e =>
      if ddf.any fun p => p.1 = e then
        .error ("multiple statements for '" ++ out ++ "'")
      else
        resolveDyndeps w rest (ddf ++ [(e, d)])

def loadDyndepFile (env : Env) (node : Path) : M DyndepFile := do
  let w ← get
  match w.disk.readFile node with
  | .error err    => throw (.error ("loading '" ++ node ++ "': " ++ err))
  | .ok none      => throw (.error ("loading '" ++ node ++
      "': file does not exist"))
  | .ok (some c) =>
    let stmts ← orError (env.parseDyndep c)
    orError (resolveDyndeps w stmts [])

def connectOutput (e : EdgeId) (o : Path) : M Unit := do
  if ((← getNode o).inEdge).isSome then
    throw (.error ("multiple rules generate " ++ o))
  else
    note (.produced o)
    updNode o fun m => { m with inEdge := some e }

def setRestat (e : EdgeId) (restat : Bool) : M Unit :=
  modify fun w =>
    if restat then
      { w with
        scopes := Function.update w.scopes (w.edges e).scope
          (Function.update (w.scopes (w.edges e).scope) .restat (some "1")) }
    else
      w

def updateDyndepEdge (e : EdgeId) (d : Dyndeps) : M Unit := do
  setRestat e d.restat
  updEdge e fun x => { x with
    outputs := x.outputs ++ d.implicitOutputs,
    implicitOuts := x.implicitOuts + d.implicitOutputs.length }
  forEach d.implicitOutputs (connectOutput e)
  note (.linked e)
  updEdge e fun x => { x with implicitInputs := x.implicitInputs ++ d.implicitInputs }
  forEach d.implicitInputs fun n => updNode n fun m => { m with outEdges := m.outEdges ++ [e] }

def updateIfNamed (node : Path) (ddf : DyndepFile) (e : EdgeId) : M Unit := do
  let x ← getEdge e
  if x.dyndep = some node then
    match ddf.find? fun p => p.1 = e with
    | none   => throw (.error ("'" ++ x.outputs.headD [] ++
        "' not mentioned in its dyndep file '" ++ node ++ "'"))
    | some p => updateDyndepEdge e p.2

def loadDyndeps (env : Env) (node : Path) : M DyndepFile := do
  updNode node fun m => { m with dyndepPending := false }
  let ddf ← loadDyndepFile env node
  note (.dyndepUpdate node ddf)
  let outEdges := (← getNode node).outEdges
  forEach outEdges (updateIfNamed node ddf)
  -- reject statements for edges that do not name this file
  let w ← get
  match ddf.find? fun p => ¬ (p.1 ∈ outEdges ∧ (w.edges p.1).dyndep = some node) with
  | some p => throw (.error ("dyndep file '" ++ node ++
      "' mentions output '" ++ (w.edges p.1).outputs.headD [] ++
      "' whose build statement does not have a dyndep binding for the file"))
  | none => pure ddf

section Rules

variable {R : World → World → Prop} [Std.Refl R] {e : EdgeId} {w : World}

lemma orError_moves {α : Type} (r : Except GoString α) : Moves R w (orError r) := by
  cases r with
  | ok a => exact .pure a
  | error err => exact .throw _

lemma getNode_moves (n : Path) : Moves R w (getNode n) := Moves.get_bind (Moves.pure _)

lemma getEdge_moves (e : EdgeId) : Moves R w (getEdge e) := Moves.get_bind (Moves.pure _)

variable [IsTrans World R]

lemma firstOutput_moves : Moves R w (firstOutput e) := by
  refine .bind (getEdge_moves e) fun x t _ => ?_
  cases x.outputs with
  | nil => exact .throw _
  | cons o os => exact .pure o

lemma loadDeps_moves (env : Env) (h : ∀ nodes t, Moves R t (addImplicitInputs e nodes)) :
    Moves R w (loadDeps env e) := by
  refine .get_bind (.ite (fun _ => ?_) fun _ => .ite (fun _ => ?_) fun _ =>
    Moves.pure _)
  · refine .bind firstOutput_moves fun out t _ => .get_bind ?_
    cases t.depsLog.bind fun log => log.deps out with
    | none => exact .pure _
    | some deps =>
      exact .ite (fun _ => .pure _) fun _ =>
        Moves.bind (h _ _) fun _ _ _ => .pure _
  · refine .get_bind (.bind (orError_moves _) fun content t _ =>
      Moves.bind firstOutput_moves fun out t' _ => ?_)
    cases content.getD [] with
    | nil => exact .pure _
    | cons c cs =>
      simp only
      split
      · exact .throw _
      · exact .throw _
      · refine .ite (fun _ => .pure _) fun _ => ?_
        split
        · exact .throw _
        · exact .bind (h _ _) fun _ _ _ => .pure _

lemma loadDyndepFile_moves (env : Env) (node : Path) : Moves R w (loadDyndepFile env node) := by
  refine .get_bind ?_
  split
  · exact .throw _
  · exact .throw _
  · exact .bind (orError_moves _) fun _ _ _ => orError_moves _

lemma updateIfNamed_moves (node : Path) (ddf : DyndepFile)
    (h : ∀ p ∈ ddf, p.1 = e → (w.edges e).dyndep = some node → Moves R w (updateDyndepEdge e p.2)) :
    Moves R w (updateIfNamed node ddf e) := by
  refine .bind (getEdge_moves e) fun x t hx => .ite (fun hd => ?_) fun _ => .pure _
  obtain ⟨rfl, rfl⟩ := getEdge_ok.mp hx
  cases hf : ddf.find? fun p => p.1 = e with
  | none => exact .throw _
  | some p =>
    have hp : p.1 = e := by simpa using List.find?_some hf
    exact h p (List.mem_of_find?_eq_some hf) hp hd

end Rules

def olderThan (w : World) (newest : Option Path) (t : TimeStamp) : Bool :=
  match newest with
  | some i => t < (w.nodes i).mtime
  | none => false

def outputDirty (env : Env) (w : World) (e : EdgeId) (newest : Option Path) (command : GoString)
    (output : Path) : Bool :=
  let edge := w.edges e
  let out := w.nodes output
  if edge.phony then
    edge.inputs = [] && edge.validations = [] && !out.exists
  else if ¬ out.exists then
    true
  else
    let entry := w.buildLog.bind fun log => log output
    let usedRestat := w.getBinding e .restat ≠ [] ∧ entry.isSome
    if ¬ usedRestat ∧ olderThan w newest out.mtime then
      true
    else
      match w.buildLog with
      | none => false
      | some _ =>
        let generator := w.getBindingBool e .generator
        match entry with
        | some entry =>
          if ¬ generator ∧ env.hashCommand command ≠ entry.commandHash then true
          else olderThan w newest entry.mtime
        | none => !generator

/-- `RecomputeOutputDirty`. The output of a phony edge that is not dirty gets the time of the
newest input, if there is no file. -/
def recomputeOutputDirty (env : Env) (e : EdgeId) (newest : Option Path) (command : GoString)
    (output : Path) : M Bool := do
  let w ← get
  let dirty := outputDirty env w e newest command output
  match newest with
  | some i =>
    if (w.edges e).phony ∧ ¬ dirty ∧ ¬ (w.nodes output).exists then
      updNode output fun m => { m with mtime := (w.nodes i).mtime }
  | none => pure ()
  pure dirty

def recomputeOutputsDirty (env : Env) (e : EdgeId) (newest : Option Path) : M Bool := do
  let w ← get
  anyDirty (w.evaluateCommand e true) (w.edges e).outputs
where
  anyDirty (command : GoString) : List Path → M Bool
    | [] => pure false
    | o :: os => do
      if ← recomputeOutputDirty env e newest command o then pure true else anyDirty command os

/-! ### The walk -/

/-- `VerifyDAG`: an error when the edge of `node` is already on the stack. The chain that is
printed ends with `stack[start]`, read after the stack was cut at `start`. -/
def verifyDAG (node : Path) (e : EdgeId) (stack : List Path) : M Unit := do
  let w ← get
  if (w.edges e).mark ≠ .inStack then
    pure ()
  else
    let start := stack.findIdx fun n => w.producer n = some e
    let start := if start = stack.length then 0 else start
    match stack.drop start with
    | []        => throw (.panic "did not find edge in stack")
    | _ :: tail =>
      let cycle := node :: tail
      match cycle[start]? with
      | none      => throw (.panic "index out of range")
      | some last =>
        let arrow : GoString := " -> "
        let chain := (cycle.map fun n => n ++ arrow).flatten ++ last
        let hint : GoString :=
          if start + 1 = cycle.length ∧ (w.edges e).phony then " [-w phonycycle=err]" else []
        throw (.error ("dependency cycle: " ++ chain ++ hint))

/-- The local variables of a visit to an edge. -/
structure Visit where
  dirty : Bool
  newest : Option Path
  validations : List Path

/-- The newer of two inputs; the first one wins a tie. -/
def newerInput (w : World) (newest : Option Path) (i : Path) : Option Path :=
  match newest with
  | none => some i
  | some j => if (w.nodes i).mtime > (w.nodes j).mtime then some i else some j

/-- The newest of some inputs, the first one among equals. -/
def mostRecent (w : World) (inputs : List Path) : Option Path :=
  inputs.foldl (newerInput w) none

def visitInput (visit : Path → List Path → M (List Path)) (e : EdgeId) (v : Visit) (i : Path) :
    M Visit := do
  let validations ← visit i v.validations
  let w ← get
  match w.producer i with
  | some f => if ¬ (w.edges f).outputsReady then updEdge e fun x => { x with outputsReady := false }
  | none => pure ()
  pure { v with validations := validations }

/-- A non-order-only input makes the edge dirty, or may be its newest input. -/
def checkDirty (v : Visit) (i : Path) : M Visit := do
  let w ← get
  if (w.nodes i).dirty then
    pure { v with dirty := true }
  else
    pure { v with newest := newerInput w v.newest i }

/-- The loop over the inputs; those that are not order-only are checked. -/
def visitInputs (visit : Path → List Path → M (List Path)) (e : EdgeId) (check : Bool) :
    Visit → List Path → M Visit
  | v, [] => pure v
  | v, i :: is => do
    let v ← visitInput visit e v i
    if check then
      visitInputs visit e check (← checkDirty v i) is
    else
      visitInputs visit e check v is

def recomputeLeafDirty (node : Path) : M Unit := do
  if (← getNode node).statusKnown then
    pure ()
  else
    statIfNecessary node
    updNode node fun m => { m with dirty := !m.exists }

/-- The dyndep file of an edge that is met for the first time: visit it, and load it if it is
ready. -/
def visitDyndep (env : Env) (visit : Path → List Path → M (List Path)) (e : EdgeId)
    (validations : List Path) : M (List Path) := do
  let w ← get
  match (w.edges e).dyndep with
  | none => pure validations
  | some d =>
    if (w.nodes d).dyndepPending then
      let validations ← visit d validations
      let w ← get
      let ready := match w.producer d with
        | none => true
        | some f => (w.edges f).outputsReady
      if ready then
        record (.scanLoadedDyndep d)
        let _ ← loadDyndeps env d
      pure validations
    else
      pure validations

def visitDyndepOnce (env : Env) (visit : Path → List Path → M (List Path)) (e : EdgeId)
    (validations : List Path) : M (List Path) := do
  if (← getEdge e).depsLoaded then pure validations else visitDyndep env visit e validations

/-- Note that the dependencies of an edge could not be loaded. -/
def setDepsMissing (e : EdgeId) (loaded : Bool) : M Bool := do
  if loaded then
    pure false
  else
    updEdge e fun x => { x with depsMissing := true }
    pure true

/-- Load the dependencies of an edge that was not visited before; returns whether the edge is
dirty for want of them. -/
def loadDepsOnce (env : Env) (e : EdgeId) : M Bool := do
  if (← getEdge e).depsLoaded then
    pure false
  else
    updEdge e fun x => { x with depsLoaded := true }
    setDepsMissing e (← loadDeps env e)

/-- The part of a visit to an edge that comes before its inputs. -/
def openEdge (env : Env) (visit : Path → List Path → M (List Path)) (e : EdgeId)
    (validations : List Path) : M Visit := do
  note (.scanned e)
  updEdge e fun x => { x with mark := .inStack, outputsReady := true, depsMissing := false }
  let validations ← visitDyndepOnce env visit e validations
  forEach (← getEdge e).outputs statIfNecessary
  let dirty ← loadDepsOnce env e
  let edge ← getEdge e
  pure { dirty := dirty, newest := none, validations := validations ++ edge.validations }

def checkOutputs (env : Env) (e : EdgeId) (v : Visit) : M Bool :=
  if v.dirty then pure true else recomputeOutputsDirty env e v.newest

def markOutputsDirty (e : EdgeId) (dirty : Bool) : M Unit := do
  let edge ← getEdge e
  if dirty then forEach edge.outputs fun o => updNode o fun m => { m with dirty := true }
  else pure ()

/-- The part of a visit to an edge that comes after its inputs. The outputs of a dirty edge are
not ready, except those of a phony edge without inputs. -/
def closeEdge (env : Env) (e : EdgeId) (v : Visit) : M (List Path) := do
  let dirty ← checkOutputs env e v
  markOutputsDirty e dirty
  updEdge e fun x => { x with
    outputsReady := x.outputsReady && !(dirty && !(x.phony && decide (x.inputs = []))),
    mark := .done }
  pure v.validations

def recomputeEdgeDirty (env : Env) (visit : Path → List Path → M (List Path)) (e : EdgeId)
    (validations : List Path) : M (List Path) := do
  let v ← openEdge env visit e validations
  let v ← visitInputs visit e true v (← getEdge e).explicitInputs
  let v ← visitInputs visit e true v (← getEdge e).implicitInputs
  let v ← visitInputs visit e false v (← getEdge e).orderOnlyInputs
  closeEdge env e v

/-- `RecomputeNodeDirty`: visit a node and everything it depends on; returns the validation
nodes met on the way, after those passed in. -/
def recomputeNodeDirty (env : Env) : Nat → Path → List Path → List Path → M (List Path)
  | 0, _, _, _ => throw .outOfFuel
  | fuel + 1, node, stack, validations => do
    match (← getNode node).inEdge with
    | none =>
      recomputeLeafDirty node
      pure validations
    | some e =>
      if (← getEdge e).mark = .done then
        pure validations
      else
        verifyDAG node e stack
        recomputeEdgeDirty env
          (fun n vs => recomputeNodeDirty env fuel n (stack ++ [node]) vs) e validations

/-- The queue of `RecomputeDirty`: visit a node, then the validation nodes it brought. -/
def recomputeQueue (env : Env) : Nat → List Path → List Path → M (List Path)
  | _, [], validations => pure validations
  | 0, _ :: _, _ => throw .outOfFuel
  | fuel + 1, node :: nodes, validations => do
    let new ← recomputeNodeDirty env (fuel + 1) node [] []
    recomputeQueue env fuel (nodes ++ new) (validations ++ new)

def recomputeDirty (env : Env) (fuel : Nat) (initialNode : Path) : M (List Path) :=
  recomputeQueue env fuel [initialNode] []

end Reninja
