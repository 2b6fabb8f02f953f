import Reninja.Plan.Basic
import Reninja.Remote.Messages

/-!
# The builder

`Builder`: finishing a command, with what it records in the logs. The command runner is an
interface, as in the source; between two calls it may change nothing but its own state and the
disk.
-/

namespace Reninja

open Program

/-! ### Results and runners -/

abbrev ExitStatus := Int

def ExitStatus.success : ExitStatus := 0
def ExitStatus.failure : ExitStatus := 1

/-- The runner that a result names. -/
inductive RunnerName where
  | unset | local | remoteCache | remote
  deriving DecidableEq, Repr

/-- `spawn.Result`. -/
structure Result where
  edge : EdgeId
  status : ExitStatus
  output : GoString := []
  runner : RunnerName := .local
  outputs : List OutputFile := []
  deriving DecidableEq, Repr

def Result.success (r : Result) : Bool := r.status = ExitStatus.success

/-- `CommandRunner`, with the optional interfaces for caching and for cancelling. `clearsTokens`
tells whether `Abort` gives the job slots of the active edges back. -/
structure CommandRunner (ρ : Type) where
  canRunMore : World → ρ → Int × ρ
  startCommand : EdgeId → World → ρ → Except GoString Unit × Disk × ρ
  waitForCommand : World → ρ → Option Result × Disk × ρ
  getActiveEdges : ρ → List EdgeId
  abort : ρ → ρ := id
  clearsTokens : Bool := true
  cacheResult : World → Result → List Path → ρ → ρ := fun _ _ _ => id
  waitForUploads : ρ → Except GoString Unit := fun _ => .ok ()
  cancel : ρ → ρ := id

/-- The builder: the world, the state of its runner and the exit code it remembers. -/
structure Builder (ρ : Type) where
  world : World
  runner : ρ
  exitCode : ExitStatus := ExitStatus.success

abbrev B (ρ : Type) := EStateM Failure (Builder ρ)

section Monad

variable {ρ α : Type}

def lift (m : M α) : B ρ α := fun b =>
  match m b.world with
  | .ok a w => .ok a { b with world := w }
  | .error f w => .error f { b with world := w }

/-- A call whose error is a value; panics and the like are not. -/
def attempt (m : B ρ α) : B ρ (Except GoString α) := fun b =>
  match m b with
  | .ok a b' => .ok (.ok a) b'
  | .error (.error e) b' => .ok (.error e) b'
  | .error f b' => .error f b'

def nilDereference : Failure :=
  .panic "runtime error: invalid memory address or nil pointer dereference"

end Monad

def recordCommand (env : Env) (e : EdgeId) (mtime : TimeStamp) : M Unit := do
  let commandHash := env.hashCommand ((← get).evaluateCommand e true)
  forEach ((← getEdge e).outputs) fun o => modify fun w => { w with
    buildLog := w.buildLog.map fun log => Function.update log o (some ⟨mtime, commandHash⟩) }

/-- The largest record of the deps log, in bytes. -/
def maxRecordSize : Nat := 2 ^ 19 - 1

def recordId (n : Path) : M Unit :=
  let padding := (4 - n.length % 4) % 4
  if n = [] then
    throw (.panic "Trying to record empty path Node!")
  else if n.length + padding + 4 > maxRecordSize then
    throw (.error "ERANGE")
  else
    modify fun w => { w with depsLog := w.depsLog.map fun l => { l with ids := l.ids ++ [n] } }

def recordIdIfMissing (n : Path) : M Unit := do
  match (← get).depsLog with
  | none => throw nilDereference
  | some l => if n ∈ l.ids then pure () else recordId n

def writeDeps (n : Path) (mtime : TimeStamp) (nodes : List Path) : M Unit :=
  if 4 * (1 + 2 + nodes.length) > maxRecordSize then
    throw (.error "ERANGE")
  else
    modify fun w => { w with depsLog := w.depsLog.map fun l =>
      { l with deps := Function.update l.deps n (some ⟨mtime, nodes⟩) } }

/-- `RecordDeps`: nothing is written when the record is already there. -/
def recordDeps (n : Path) (mtime : TimeStamp) (nodes : List Path) : M Unit := do
  let before := (← get).depsLog
  forEach (n :: nodes) recordIdIfMissing
  let known := (before.map DepsLog.ids).getD []
  if (∀ m ∈ n :: nodes, m ∈ known) ∧ (before.bind fun l => l.deps n) = some ⟨mtime, nodes⟩ then
    pure ()
  else
    writeDeps n mtime nodes

/-! ### Finishing a command -/

def removeDepfile (env : Env) (depfile : Path) : M Unit := do
  if env.keepDepfile then
    pure ()
  else if (← get).disk.removeCode depfile < 0 then
    throw (.error "deleting depfile: -1")
  else
    modify fun w => { w with disk := w.disk.removeFile depfile }

def extractDeps (env : Env) (e : EdgeId) (depsType : GoString) : M (List Path) := do
  let w ← get
  if depsType = "msvc" then
    throw (.error "windows support tbd")
  else if depsType = "gcc" then
    let depfile := w.getBinding e .depfile
    if depfile = [] then
      throw (.error "edge with deps=gcc but no depfile makes no sense")
    else
      let content ← orError (w.disk.readFile depfile)
      -- a missing depfile counts as an empty one
      match content.getD [] with
      | [] => pure []
      | c :: cs =>
        let parsed ← orError (env.parseDepfile (c :: cs))
        removeDepfile env depfile
        pure (parsed.2.map env.canonicalizePath)
  else
    throw (.fatal ("unknown deps type: '" ++ depsType ++ "'"))

/-- The newest time to record and whether an output was found unchanged. -/
abbrev Restat := TimeStamp × Bool

/-- Look at the outputs after the command; `none` when a file carries the time that means
unknown. -/
def restatOutputs (env : Env) (fuel : Nat) (restat : Bool) : Restat → List Path → M (Option Restat)
  | acc, [] => pure (some acc)
  | (recordMtime, nodeCleaned), o :: os => do
    let w ← get
    let newMtime ← orError (w.disk.stat o)
    if newMtime = -1 then
      pure none
    else
      let recordMtime := if newMtime > recordMtime then newMtime else recordMtime
      if (w.nodes o).mtime = newMtime ∧ restat then
        cleanNode env fuel o
        restatOutputs env fuel restat (recordMtime, true) os
      else
        restatOutputs env fuel restat (recordMtime, nodeCleaned) os

def computeRecordMtime (env : Env) (fuel : Nat) (e : EdgeId) : M (Option TimeStamp) := do
  let w ← get
  let start := (w.edges e).commandStartTime
  let restat := w.getBindingBool e .restat
  if env.dryRun then
    pure (some 0)
  else if start = 0 ∨ restat ∨ w.getBindingBool e .generator then
    match ← restatOutputs env fuel restat (start, false) (w.edges e).outputs with
    | none => pure none
    | some (recordMtime, cleaned) => pure (some (if cleaned then start else recordMtime))
  else
    pure (some start)

def recordOutputDeps (depsNodes : List Path) : List Path → M Bool
  | [] => pure true
  | o :: os => do
    let depsMtime ← orError ((← get).disk.stat o)
    if depsMtime = -1 then
      pure false
    else
      recordDeps o depsMtime depsNodes
      recordOutputDeps depsNodes os

def removeRspFile (env : Env) (e : EdgeId) : M Unit :=
  modify fun w => if w.getBinding e .rspfile ≠ [] ∧ ¬ env.keepRsp then
      { w with disk := w.disk.removeFile (w.getBinding e .rspfile) }
    else w

def recordInBuildLog (env : Env) (e : EdgeId) (mtime : TimeStamp) : M Unit := do
  if (← get).buildLog.isSome then recordCommand env e mtime else pure ()

def recordInDepsLog (env : Env) (e : EdgeId) (depsType : GoString) (depsNodes : List Path) :
    M Bool := do
  let outputs := (← getEdge e).outputs
  if depsType ≠ [] ∧ ¬ env.dryRun then
    if outputs = [] then throw (.panic "should have been rejected by parser")
    else recordOutputDeps depsNodes outputs
  else
    pure true

/-- The part of `FinishCommand` after a successful command and its `EdgeFinished`. -/
def recordFinished (env : Env) (e : EdgeId) (depsType : GoString) (depsNodes : List Path)
    (recordMtime : TimeStamp) : M Bool := do
  removeRspFile env e
  recordInBuildLog env e recordMtime
  recordInDepsLog env e depsType depsNodes

/-- The part of `FinishCommand` that applies to successful commands. -/
def finishSuccess (env : Env) (fuel : Nat) (e : EdgeId) (depsType : GoString)
    (depsNodes : List Path) : M Bool := do
  match ← computeRecordMtime env fuel e with
  | none => pure false
  | some recordMtime =>
    if ← edgeFinished env fuel e .succeeded then
      recordFinished env e depsType depsNodes recordMtime
    else
      pure false

section Finish

variable {ρ : Type} (env : Env) (r : CommandRunner ρ) (fuel : Nat)

/-- The dependencies of a result; a failure to extract them fails a successful command. -/
def extractFrom (result : Result) (depsType : GoString) : B ρ (Result × List Path) := do
  if depsType = [] then
    pure (result, [])
  else
    match ← attempt (lift (extractDeps env result.edge depsType)) with
    | .ok depsNodes => pure (result, depsNodes)
    | .error err =>
      if result.success then
        let output := if result.output = [] then [] else result.output ++ ("\n" : GoString)
        pure ({ result with output := output ++ err, status := ExitStatus.failure }, [])
      else
        pure (result, [])

/-- `FinishCommand`: the result as it leaves it, and what it returns. -/
def finishCommand (result : Result) : B ρ (Result × Except GoString Bool) := do
  let depsType := (← get).world.getBinding result.edge .deps
  let (result, depsNodes) ← extractFrom env result depsType
  modify fun b => { b with runner := r.cacheResult b.world result depsNodes b.runner }
  lift (record (.reaped result.edge result.success))
  let done ← attempt <| lift <|
    if result.success then
      finishSuccess env fuel result.edge depsType depsNodes
    else
      edgeFinished env fuel result.edge .failed
  pure (result, done)

end Finish

end Reninja
