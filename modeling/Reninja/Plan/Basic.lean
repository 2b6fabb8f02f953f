import Reninja.Library.Search
import Reninja.Scan.Basic

/-!
# The plan

`Plan` and the pool operations it uses: what is wanted, what is ready, and how the end of one
edge makes others ready. The functions that call each other through `EdgeFinished` take the
recursive call as an argument and are tied together in `edgeFinished`.
-/

namespace Reninja

open Program

namespace World

variable (w : World)

/-- `EdgePriorityLess`: by critical path weight, then by larger id. -/
def edgePriorityLess (a b : EdgeId) : Bool :=
  let ca := (w.edges a).weight
  let cb := (w.edges b).weight
  if ca ≠ cb then ca < cb else b < a

/-- The head of the ready queue: the edge of highest priority. -/
def peek : Option EdgeId :=
  match w.ready with
  | [] => none
  | e :: es => some (es.foldl (fun a b => if w.edgePriorityLess a b then b else a) e)

/-- `Pool.DelayEdge`: binary insertion that leaves an edge out that is already there. -/
def delayEdge (e : EdgeId) : World :=
  let p := (w.edges e).pool
  let delayed := (w.pools p).delayed
  let i := Search.search delayed.length fun k => w.edgePriorityLess (delayed.getD k 0) e
  if i ≠ 0 ∧ delayed[i - 1]? = some e then
    w
  else
    w.setPool p fun q => { q with delayed := delayed.insertIdx i e }

def edgeScheduled (e : EdgeId) : World :=
  w.setPool (w.edges e).pool fun q =>
    { q with currentUse := if q.depth ≠ 0 then q.currentUse + 1 else q.currentUse }

def poolEdgeFinished (e : EdgeId) : World :=
  w.setPool (w.edges e).pool fun q =>
    { q with currentUse := if q.depth ≠ 0 then q.currentUse - 1 else q.currentUse }

/-- The delayed edges that fit into the pool, those that do not, and the use that results. -/
def retrieveLoop (depth : Nat) : Int → List EdgeId → List EdgeId × List EdgeId × Int
  | use, [] => ([], [], use)
  | use, e :: es =>
    if use + 1 > depth then
      ([], e :: es, use)
    else
      let r := retrieveLoop depth (if depth ≠ 0 then use + 1 else use) es
      (e :: r.1, r.2.1, r.2.2)

def retrieveReadyEdges (p : PoolId) : World :=
  let q := w.pools p
  let r := retrieveLoop q.depth q.currentUse q.delayed
  { w.setPool p fun q => { q with delayed := r.2.1, currentUse := r.2.2 } with
    ready := w.ready ++ r.1 }

end World

/-! ### Wanting and scheduling -/

def edgeWanted (e : EdgeId) : M Unit := do
  modify fun w => { w with wantedEdges := w.wantedEdges + 1 }
  modify fun w => if (w.edges e).phony then w else { w with commandEdges := w.commandEdges + 1 }
  record (.wanted e)

def wantEdge (e : EdgeId) : M Unit := do
  modify fun w => w.setWant e (some .toStart)
  edgeWanted e

def enterPlan (e : EdgeId) : M Unit :=
  modify fun w => if w.want e = none then w.setWant e (some .nothing) else w

def wantIfDirty (node : Path) (e : EdgeId) : M Unit := do
  let w ← get
  if (w.nodes node).dirty ∧ w.want e = some .nothing then wantEdge e else pure ()

def scheduleWork (e : EdgeId) (want : Want) : M Unit := do
  match want with
  | .toFinish => pure ()
  | .nothing  => throw (.panic "cannot schedule work; not in state Want-to-start")
  | .toStart =>
    record (.scheduled e)
    modify fun w => w.setWant e (some .toFinish)
    modify fun w =>
      let p := (w.edges e).pool
      if (w.pools p).shouldDelayEdge then
        (w.delayEdge e).retrieveReadyEdges p
      else
        { w.edgeScheduled e with ready := w.ready ++ [e] }

/-- The keys of the map of edges met on a dyndep walk, when there is one. -/
abbrev Walk := Option (List EdgeId)

def Walk.insert (e : EdgeId) : Walk → Walk
  | none => none
  | some l => if e ∈ l then some l else some (l ++ [e])

def missingError (node : Path) (dependent : Option Path) : GoString :=
  let referenced : GoString := match dependent with
    | none => []
    | some d => ", needed by '" ++ d ++ "',"
  "'" ++ node ++ "'" ++ referenced ++
    " missing and no known rule to make it"

/-- Add the inputs of an edge in turn; the walk they extend is passed along. -/
def addInputs (add : Path → Walk → M (Bool × Walk)) : Walk → List Path → M Walk
  | walk, [] => pure walk
  | walk, i :: is => do
    let r ← add i walk
    addInputs add r.2 is

def addSubTarget : Nat → Path → Option Path → Walk → M (Bool × Walk)
  | 0, _, _, _ => throw .outOfFuel
  | fuel + 1, node, dependent, walk => do
    let w ← get
    match w.producer node with
    | none =>
      if (w.nodes node).dirty ∧ ¬ (w.nodes node).generatedByDepLoader then
        throw (.error (missingError node dependent))
      else
        pure (false, walk)
    | some e =>
      if (w.edges e).outputsReady then
        pure (false, walk)
      else
        enterPlan e
        if walk.isSome ∧ w.want e = some .toFinish then
          pure (false, walk)
        else
          wantIfDirty node e
          if (w.want e).isSome then
            pure (true, walk.insert e)
          else
            let walk ← addInputs (fun i walk => addSubTarget fuel i (some node) walk)
              (walk.insert e) (w.edges e).inputs
            pure (true, walk)

def addTarget (fuel : Nat) (target : Path) : M Bool := do
  modify fun w => { w with targets := w.targets ++ [target] }
  let r ← addSubTarget fuel target none none
  pure r.1

def cleanEdge (env : Env) (clean : Path → M Unit) (e : EdgeId) : M Unit := do
  let w ← get
  match w.want e with
  | none | some .nothing => pure ()
  | some _ =>
    let inputs := (w.edges e).nonOrderOnlyInputs
    let dirtyFunc (i : Nat) : Bool := (w.nodes (inputs.getD i [])).dirty
    if (w.edges e).depsMissing then
      pure ()
    else if Search.search inputs.length dirtyFunc = inputs.length then
      if ← recomputeOutputsDirty env e (mostRecent w inputs) then
        pure ()
      else
        forEach (w.edges e).outputs clean
        note (.unwanted e)
        modify fun w => { w.setWant e (some .nothing) with wantedEdges := w.wantedEdges - 1 }
        modify fun w =>
          if (w.edges e).phony then w else { w with commandEdges := w.commandEdges - 1 }
    else
      pure ()

/-- `CleanNode`. It returns false only if `RecomputeOutputsDirty` does, which returns true. -/
def cleanNode (env : Env) : Nat → Path → M Unit
  | 0, _ => throw .outOfFuel
  | fuel + 1, node => do
    updNode node fun m => { m with dirty := false }
    forEach (← getNode node).outEdges (cleanEdge env (cleanNode env fuel))

/-! ### Dyndep information that arrives during the build -/

def unmarkEdge (unmark : Path → List Path → M (List Path)) (e : EdgeId) (dependents : List Path) :
    M (List Path) := do
  let w ← get
  if (w.want e).isSome ∧ (w.edges e).mark ≠ .none then
    updEdge e fun x => { x with mark := .none }
    visitOutputs dependents (w.edges e).outputs
  else
    pure dependents
where
  visitOutputs : List Path → List Path → M (List Path)
    | dependents, [] => pure dependents
    | dependents, o :: os => do
      if o ∈ dependents then
        visitOutputs dependents os
      else
        visitOutputs (← unmark o (dependents ++ [o])) os

def unmarkEdges (unmark : Path → List Path → M (List Path)) :
    List Path → List EdgeId → M (List Path)
  | dependents, [] => pure dependents
  | dependents, e :: es => do
    unmarkEdges unmark (← unmarkEdge unmark e dependents) es

/-- `UnmarkDependents`: the dependents met so far are passed along. -/
def unmarkDependents : Nat → Path → List Path → M (List Path)
  | 0, _, _ => throw .outOfFuel
  | fuel + 1, node, dependents => do
    unmarkEdges (unmarkDependents fuel) dependents (← getNode node).outEdges

/-- A validation node that a new scan has met becomes a target if it is not ready. -/
def addValidation (fuel : Nat) (v : Path) : M Bool := do
  let w ← get
  match w.producer v with
  | none => pure true
  | some e =>
    if (w.edges e).outputsReady then
      pure true
    else
      note (.refreshAddedTarget v)
      addTarget fuel v

def wantRefreshed (n : Path) : M Unit := do
  let w ← get
  if (w.nodes n).dirty then
    match w.producer n with
    | none   => throw (.panic "already encountered edge not in expected state")
    | some e =>
      if (w.edges e).outputsReady then
        throw (.panic "already encountered edge not in expected state")
      else
        match w.want e with
        | none          => throw (.panic "edge should be wanted")
        | some .nothing => wantEdge e
        | some _ => pure ()
  else
    pure ()

/-- Scan a dependent again and want its edge if it is now dirty. -/
def refreshDependent (env : Env) (fuel : Nat) (n : Path) : M Bool := do
  let validations ← recomputeDirty env fuel n
  if ← forAll validations (addValidation fuel) then
    wantRefreshed n
    pure true
  else
    pure false

def refreshDyndepDependents (env : Env) (fuel : Nat) (node : Path) : M Bool := do
  let dependents ← unmarkDependents fuel node []
  forAll (← rangeOver env dependents) (refreshDependent env fuel)

/-- Walk the discovered inputs of the roots. The walk is given up at the first input for which
`AddSubTarget` has nothing to do. -/
def walkDiscovered (fuel : Nat) : List EdgeId → List (EdgeId × Path) → M (Option (List EdgeId))
  | walk, [] => pure (some walk)
  | walk, (e, i) :: rest => do
    let dependent ← firstOutput e
    let (added, walk') ← addSubTarget fuel i (some dependent) (some walk)
    if added then walkDiscovered fuel (walk'.getD walk) rest else pure none

def edgeMaybeReady (finish : EdgeId → EdgeResult → M Bool) (e : EdgeId) (want : Want) :
    M Bool := do
  if (← get).allInputsReady e then
    if want ≠ .nothing then
      scheduleWork e want
      pure true
    else
      finish e .succeeded
  else
    pure true

def maybeReady (finish : EdgeId → EdgeResult → M Bool) (e : EdgeId) : M Bool := do
  match (← get).want e with
  | none => pure true
  | some want => edgeMaybeReady finish e want

/-- The edges of a dyndep file that a walk starts from: in the plan, and not ready. -/
def dyndepRoots (w : World) (ddf : DyndepFile) : DyndepFile :=
  ddf.filter fun p => !(w.edges p.1).outputsReady && (w.want p.1).isSome

/-- The edges that a walk has met, with the out edges of the dyndep file that are in the
plan. -/
def walkAndOutEdges (w : World) (node : Path) (walk : List EdgeId) : List EdgeId :=
  ((w.nodes node).outEdges.filter fun e => (w.want e).isSome).foldl
    (fun l e => if e ∈ l then l else l ++ [e]) walk

def dyndepsLoaded (env : Env) (fuel : Nat) (finish : EdgeId → EdgeResult → M Bool) (node : Path)
    (ddf : DyndepFile) : M Bool := do
  if ← refreshDyndepDependents env fuel node then
    let roots := dyndepRoots (← get) (← rangeOver env ddf)
    note (.dyndepWalk node roots)
    let discovered := roots.flatMap fun p => p.2.implicitInputs.map fun i => (p.1, i)
    match ← walkDiscovered fuel [] discovered with
    | none => pure false
    | some walk =>
      let walk := walkAndOutEdges (← get) node walk
      forAll (← rangeOver env walk) (maybeReady finish)
  else
    pure false

/-- `Builder.LoadDyndeps`: what `DyndepsLoaded` returns is dropped. -/
def builderLoadDyndeps (env : Env) (fuel : Nat) (finish : EdgeId → EdgeResult → M Bool)
    (node : Path) : M Unit := do
  let ddf ← loadDyndeps env node
  let _ ← dyndepsLoaded env fuel finish node ddf

def nodeFinished (env : Env) (fuel : Nat) (finish : EdgeId → EdgeResult → M Bool) (node : Path) :
    M Bool := do
  if (← getNode node).dyndepPending then
    builderLoadDyndeps env fuel finish node
    pure true
  else
    forAll (← getNode node).outEdges (maybeReady finish)

def release (e : EdgeId) : M Unit :=
  modify fun w => if w.jobserver.isSome then w.log (.released (w.edges e).jobSlot) else w

def giveBack (e : EdgeId) (directlyWanted : Bool) (result : EdgeResult) : M Unit := do
  modify fun w => if directlyWanted then w.poolEdgeFinished e else w
  modify fun w => w.retrieveReadyEdges (w.edges e).pool
  release e
  record (.finished e result)

def leavePlan (e : EdgeId) (directlyWanted : Bool) : M Unit := do
  modify fun w => if directlyWanted then { w with wantedEdges := w.wantedEdges - 1 } else w
  modify fun w => w.setWant e none
  updEdge e fun x => { x with outputsReady := true }

def edgeFinishedBody (env : Env) (fuel : Nat) (finish : EdgeId → EdgeResult → M Bool)
    (e : EdgeId) (result : EdgeResult) : M Bool := do
  match (← get).want e with
  | none      => throw (.panic "edge not found")
  | some want =>
    let directlyWanted := want ≠ .nothing
    giveBack e directlyWanted result
    match result with
    | .failed => pure true
    | .succeeded =>
      leavePlan e directlyWanted
      forAll (← getEdge e).outputs (nodeFinished env fuel finish)

def edgeFinished (env : Env) : Nat → EdgeId → EdgeResult → M Bool
  | 0, _, _ => throw .outOfFuel
  | fuel + 1, e, result => edgeFinishedBody env fuel (edgeFinished env fuel) e result

/-- `TryAcquire`: the client decides what it hands out. -/
def tryAcquire (js : Jobserver) : M Slot := do
  let slot := js.offers js.taken
  modify fun w => { w with jobserver := some { js with taken := js.taken + 1 } }
  record (.acquired slot)
  pure slot

def findWork : M (Option EdgeId) := do
  let w ← get
  match w.peek with
  | none => pure none
  | some e =>
    let granted ← match w.jobserver with
      | none => pure true
      | some js =>
        let slot ← tryAcquire js
        updEdge e fun x => { x with jobSlot := slot }
        pure slot.valid
    if granted then
      modify fun w => { w with ready := w.ready.erase e }
      record (.found e)
      pure (some e)
    else
      pure none

/-- `MoreToDo`. -/
def World.moreToDo (w : World) : Bool := 0 < w.wantedEdges && 0 < w.commandEdges

/-! ### Preparing the queue -/

def Edge.weightHeuristic (x : Edge) : Int := if x.phony then 0 else 1

abbrev TopoSort := List EdgeId × List EdgeId

def topoVisit (w : World) : Nat → EdgeId → TopoSort → M TopoSort
  | 0, _, _ => throw .outOfFuel
  | fuel + 1, e, s =>
    if e ∈ s.1 then
      pure s
    else do
      let producers := (w.edges e).inputs.filterMap w.producer
      let s ← visitAll (topoVisit w fuel) (s.1 ++ [e], s.2) producers
      pure (s.1, s.2 ++ [e])
where
  visitAll (visit : EdgeId → TopoSort → M TopoSort) : TopoSort → List EdgeId → M TopoSort
    | s, [] => pure s
    | s, e :: es => do visitAll visit (← visit e s) es

def raiseProducer (edgeWeight : Int) (input : Path) : M Unit := do
  let w ← get
  match w.producer input with
  | none => pure ()
  | some f =>
    let candidate := edgeWeight + (w.edges f).weightHeuristic
    if candidate > (w.edges f).weight then
      updEdge f fun x => { x with criticalPathWeight := candidate }

def computeCriticalPath (fuel : Nat) : M Unit := do
  let w ← get
  let sorted ← topoVisit.visitAll (topoVisit w fuel) ([], []) (w.targets.filterMap w.producer)
  forEach sorted.2 fun e => updEdge e fun x => { x with criticalPathWeight := x.weightHeuristic }
  forEach sorted.2.reverse fun e => do
    let x ← getEdge e
    forEach x.inputs (raiseProducer x.weight)

/-- One edge of the first loop of `ScheduleInitialEdges`; returns the pools that have got
delayed edges. Such an edge stays in `WantToStart`. -/
def scheduleInitialEdge (e : EdgeId) (pools : List PoolId) : M (List PoolId) := do
  let w ← get
  match w.want e with
  | some .toStart =>
    let p := (w.edges e).pool
    if w.allInputsReady e then
      if (w.pools p).shouldDelayEdge then
        record (.delayed e)
        modify fun w => w.delayEdge e
        pure (if p ∈ pools then pools else pools ++ [p])
      else
        scheduleWork e .toStart
        pure pools
    else
      pure pools
  | _ => pure pools

def scheduleInitialEdges (env : Env) : M Unit := do
  let w ← get
  if w.ready ≠ [] then
    throw (.panic "priority queue should begin empty")
  let pools ← scheduleAll [] (← rangeOver env w.wantKeys)
  forEach (← rangeOver env pools) fun p => modify fun w => w.retrieveReadyEdges p
where
  scheduleAll : List PoolId → List EdgeId → M (List PoolId)
    | pools, [] => pure pools
    | pools, e :: es => do scheduleAll (← scheduleInitialEdge e pools) es

def prepareQueue (env : Env) (fuel : Nat) : M Unit := do
  computeCriticalPath fuel
  scheduleInitialEdges env

def addUnlessReady (fuel : Nat) (target : Path) : M Bool := do
  let w ← get
  match w.producer target with
  | none => addTarget fuel target
  | some e => if (w.edges e).outputsReady then pure true else addTarget fuel target

def addUnreadyValidation (fuel : Nat) (v : Path) : M Bool := do
  let w ← get
  match w.producer v with
  | none => pure true
  | some e => if (w.edges e).outputsReady then pure true else addTarget fuel v

def builderAddTarget (env : Env) (fuel : Nat) (target : Path) : M Bool := do
  let validations ← recomputeDirty env fuel target
  if ← addUnlessReady fuel target then
    forAll validations (addUnreadyValidation fuel)
  else
    pure false

end Reninja
