import Reninja.Scan.Basic
import Reninja.Library.Visits

/-!
# The cleaner

`Cleaner` removes what a build made: all of it, what some targets need, what some rules made, or
what the build log has and the graph does not. Every call clears the sets of the one before and
loads the dyndep files that are there; an error in one of them is ignored, and what it changed
before the error stays.
-/

namespace Reninja

open Program

/-- What the cleaner looks up in the state: the names of the rules of edges, the paths that have a
node once the dyndep files are loaded, and the rules of the outermost scope. -/
structure CleanConfig where
  env : Env := {}
  ruleName : EdgeId → GoString := fun _ => []
  isNode : Path → Bool := fun _ => true
  hasRule : GoString → Bool := fun _ => true

/-- The fields of a `Cleaner`, the files `RemoveFile` was called for, and those that were
counted. -/
structure Cleaner where
  world : World
  removed : List Path := []
  cleaned : List Path := []
  removals : List Path := []
  reports : List Path := []
  status : Int := 0

namespace Cleaner

variable (cfg : CleanConfig) (s : Cleaner)

/-- `FileExists`: a file that cannot be looked at counts as one that is not there. -/
def fileExists (path : Path) : Bool :=
  match s.world.disk.stat path with
  | .ok mtime => 0 < mtime
  | .error _ => false

def report (path : Path) : Cleaner := { s with reports := s.reports ++ [path] }

def removeFile (path : Path) : Cleaner :=
  if cfg.env.dryRun then
    if s.fileExists path then s.report path else s
  else
    let code := s.world.disk.removeCode path
    let s := { s with world := { s.world with disk := s.world.disk.removeFile path }
                      removals := s.removals ++ [path] }
    if code = 0 then s.report path else if code = -1 then { s with status := 1 } else s

def remove (path : Path) : Cleaner :=
  if path ∈ s.removed then s
  else removeFile cfg { s with removed := s.removed ++ [path] } path

def removeBinding (e : EdgeId) (k : Key) : Cleaner :=
  if s.world.getBinding e k ≠ [] then s.remove cfg (s.world.getBinding e k) else s

def removeEdgeFiles (e : EdgeId) : Cleaner :=
  (s.removeBinding cfg e .depfile).removeBinding cfg e .rspfile

def removeAll (paths : List Path) : Cleaner := paths.foldl (remove cfg) s

end Cleaner

def loadPending (env : Env) (w : World) (e : EdgeId) : World :=
  match (w.edges e).dyndep with
  | none => w
  | some n => if (w.nodes n).dyndepPending then finalState (loadDyndeps env n w) else w

/-- The graph once `LoadDyndeps` is done. -/
def World.withDyndeps (env : Env) (w : World) : World :=
  (List.range w.edgeCount).foldl (loadPending env) w

namespace Cleaner

variable (cfg : CleanConfig) (s : Cleaner)

/-- How every call begins: `Reset` and `LoadDyndeps`. -/
def start : Cleaner := { world := s.world.withDyndeps cfg.env }

/-! ### The calls -/

def edgeIds : List EdgeId := List.range s.world.edgeCount

def cleanEdge (generator : Bool) (s : Cleaner) (e : EdgeId) : Cleaner :=
  if (s.world.edges e).phony then s
  else if !generator && s.world.getBindingBool e .generator then s
  else (s.removeAll cfg (s.world.edges e).outputs).removeEdgeFiles cfg e

def cleanAll (generator : Bool) : Cleaner :=
  (s.start cfg).edgeIds.foldl (cleanEdge cfg generator) (s.start cfg)

/-- A path of the build log is stale if no edge makes it or has it as an input. -/
def cleanEntry (s : Cleaner) (path : Path) : Cleaner :=
  if (s.world.nodes path).inEdge = none ∧ (s.world.nodes path).outEdges = [] then
    s.remove cfg path
  else
    s

/-- `CleanDead` on the keys of the build log, in the order in which it comes to them. -/
def cleanDead (entries : List Path) : Cleaner := entries.foldl (cleanEntry cfg) (s.start cfg)

def cleanOutput (target : Path) (e : EdgeId) : Cleaner :=
  if (s.world.edges e).phony then s else (s.remove cfg target).removeEdgeFiles cfg e

/-- `DoCleanTarget`: the target counts as visited when its inputs are done. -/
def doCleanTarget : Nat → Path → EStateM Failure Cleaner Unit
  | 0, _ => throw .outOfFuel
  | fuel + 1, target => do
    match (← get).world.producer target with
    | none => pure ()
    | some e =>
      modify fun s => s.cleanOutput cfg target e
      forEach ((← get).world.edges e).inputs fun n => do
        if n ∉ (← get).cleaned then doCleanTarget fuel n
    modify fun s => { s with cleaned := s.cleaned ++ [target] }

def cleanTarget (fuel : Nat) (target : Path) : EStateM Failure Cleaner Int := do
  modify (start cfg)
  doCleanTarget cfg fuel target
  pure (← get).status

def cleanNamedTarget (fuel : Nat) (name : GoString) : EStateM Failure Cleaner Unit := do
  if name = [] then
    modify fun s => { s with status := 1 }
  else if cfg.isNode (cfg.env.canonicalizePath name) then
    doCleanTarget cfg fuel (cfg.env.canonicalizePath name)
  else
    modify fun s => { s with status := 1 }

def cleanTargets (fuel : Nat) (names : List GoString) : EStateM Failure Cleaner Int := do
  modify (start cfg)
  forEach names (cleanNamedTarget cfg fuel)
  pure (← get).status

def cleanRuleEdge (rule : GoString) (s : Cleaner) (e : EdgeId) : Cleaner :=
  if cfg.ruleName e = rule then
    (s.world.edges e).outputs.foldl (fun s o => (s.remove cfg o).removeEdgeFiles cfg e) s
  else
    s

def doCleanRule (rule : GoString) : Cleaner := s.edgeIds.foldl (cleanRuleEdge cfg rule) s

def cleanRule (rule : GoString) : Cleaner := (s.start cfg).doCleanRule cfg rule

def cleanNamedRule (s : Cleaner) (name : GoString) : Cleaner :=
  if cfg.hasRule name then s.doCleanRule cfg name else { s with status := 1 }

def cleanRules (names : List GoString) : Cleaner := names.foldl (cleanNamedRule cfg) (s.start cfg)

end Cleaner

end Reninja
