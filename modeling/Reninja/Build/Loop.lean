import Reninja.Build.Basic

/-!
# The main loop

`Builder.Build` with what it does to start a command and to clean up. The source has a loop over
rounds and in it one over the commands that are started; here they are one loop, and its local
variables tell which of the two it is in.
-/

namespace Reninja

open Program

def ExitStatus.interrupted : ExitStatus := 130

/-! ### Starting an edge -/

def Disk.makeDirs (d : Disk) (p : Path) : Except GoString Unit :=
  match d.noDirs p with
  | some e => .error e
  | none => .ok ()

/-- The time that `Stat` returns, which is -1 beside an error. -/
def Disk.mtime (d : Disk) (p : Path) : TimeStamp :=
  match d.stat p with
  | .error _ => -1
  | .ok mtime => mtime

/-- Touch the lock file and read its time; zero when that fails. -/
def touchLockFile (env : Env) : M TimeStamp := do
  match (← get).disk.writeFile env.lockFilePath [] with
  | .error _ => pure ()
  | .ok disk => modify fun w => { w with disk := disk }
  let buildStart := (← get).disk.mtime env.lockFilePath
  pure (if buildStart = -1 then 0 else buildStart)

/-- The loop of `StartEdge` over the outputs; the lock file is touched until a time is known. -/
def makeOutputDirs (env : Env) : TimeStamp → List Path → M TimeStamp
  | buildStart, [] => pure buildStart
  | buildStart, o :: os => do
    orError ((← get).disk.makeDirs o)
    let buildStart ← if buildStart = -1 then touchLockFile env else pure buildStart
    makeOutputDirs env buildStart os

/-- What `StartEdge` does before it starts the command. -/
def prepareEdge (env : Env) (e : EdgeId) : M Unit := do
  let buildStart ← makeOutputDirs env (if env.dryRun then 0 else -1) (← getEdge e).outputs
  updEdge e fun x => { x with commandStartTime := buildStart }
  let w ← get
  if w.getBinding e .depfile ≠ [] then
    orError (w.disk.makeDirs (w.getBinding e .depfile))
  if w.getBinding e .rspfile ≠ [] then
    let disk ← orError (w.disk.writeFile (w.getBinding e .rspfile) (w.getBinding e .rspfileContent))
    modify fun w => { w with disk := disk }

variable {ρ : Type} (env : Env) (r : CommandRunner ρ)

/-- `StartCommand`, with the error as the builder wraps it. -/
def startCommand (e : EdgeId) : B ρ Unit := do
  let b ← get
  let (started, disk, runner) := r.startCommand e b.world b.runner
  set { b with world := { b.world with disk := disk }, runner := runner }
  match started with
  | .ok () => pure ()
  | .error err => throw (.error ("command '" ++ b.world.evaluateCommand e false ++
      "' failed: " ++ err))

/-- `StartEdge`; it never returns false without an error. -/
def startEdge (e : EdgeId) : B ρ Unit := do
  if ((← get).world.edges e).phony then
    pure ()
  else
    lift (prepareEdge env e)
    startCommand r e

/-! ### Cleaning up -/

/-- Remove an output that has changed; with a depfile, whether it has changed or not. -/
def World.removeOutput (w : World) (depfile : Path) (d : Disk) (o : Path) : Disk :=
  if depfile ≠ [] ∨ (w.nodes o).mtime ≠ d.mtime o then d.removeFile o else d

/-- What `Cleanup` does for an active edge. -/
def World.removeOutputs (w : World) (d : Disk) (e : EdgeId) : Disk :=
  let depfile := w.getBinding e .depfile
  let d := (w.edges e).outputs.foldl (w.removeOutput depfile) d
  if depfile ≠ [] then d.removeFile depfile else d

def Disk.removeLockFile (d : Disk) : Disk :=
  if 0 < d.mtime env.lockFilePath then d.removeFile env.lockFilePath else d

/-- `ClearJobTokens`, which `Abort` calls. -/
def clearJobTokens (active : List EdgeId) : M Unit := do
  if r.clearsTokens then forEach active release

def cleanup : B ρ Unit := do
  let active := r.getActiveEdges (← get).runner
  modify fun b => { b with runner := r.abort b.runner }
  lift (clearJobTokens r active)
  lift (modify fun w =>
    { w with disk := (active.foldl w.removeOutputs w.disk).removeLockFile env })

/-! ### The loop -/

/-- What `Build` returns. -/
structure Exit where
  status : ExitStatus
  err : Option GoString
  deriving DecidableEq, Repr

def stop (status : ExitStatus) (err : Option GoString) : B ρ Exit := do
  cleanup env r
  pure ⟨status, err⟩

/-- The local variables of `Build`. There is a capacity while commands are started. -/
structure Moment where
  pending : Nat := 0
  failuresAllowed : Nat
  capacity : Option Int := none
  deriving DecidableEq, Repr

def canRunMore : B ρ Int := do
  let b ← get
  let (capacity, runner) := r.canRunMore b.world b.runner
  set { b with runner := runner }
  pure capacity

/-- `BuildLog().Close()`, before a generator runs. -/
def closeBuildLog (e : EdgeId) : M Unit := do
  let w ← get
  if w.getBindingBool e .generator ∧ w.buildLog.isNone then throw nilDereference

/-- Start an edge that `FindWork` has returned. -/
def startFound (fuel : Nat) (m : Moment) (capacity : Int) (e : EdgeId) :
    B ρ (Except Exit Moment) := do
  lift (closeBuildLog e)
  match ← attempt (startEdge env r e) with
  | .error err => return .error (← stop env r ExitStatus.failure (some err))
  | .ok () =>
    if ((← get).world.edges e).phony then
      match ← attempt (lift (edgeFinished env fuel e .succeeded)) with
      | .error err => return .error (← stop env r ExitStatus.failure (some err))
      | .ok false => return .error (← stop env r ExitStatus.failure none)
      | .ok true => pure (.ok m)
    else
      let current ← canRunMore r
      pure (.ok { m with pending := m.pending + 1, capacity := some (min (capacity - 1) current) })

def setFailureCode (status : ExitStatus) : B ρ Unit :=
  modify fun b => if status ≠ ExitStatus.success then { b with exitCode := status } else b

/-- What follows `FinishCommand`. -/
def afterCommand (m : Moment) (result : Result) (finished : Except GoString Bool) :
    B ρ (Except Exit Moment) := do
  setFailureCode result.status
  match finished with
  | .ok true =>
    let left := if result.success then m.failuresAllowed else m.failuresAllowed - 1
    if result.success = false ∧ left = 0 then
      modify fun b => { b with runner := r.cancel b.runner }
    pure (.ok { pending := m.pending - 1, failuresAllowed := left })
  | finished =>
    cleanup env r
    let status := if result.success then ExitStatus.failure else result.status
    setFailureCode status
    pure (.error ⟨status, match finished with
      | .error err => some err
      | .ok _ => none⟩)

/-- Wait for a command and finish it. -/
def reap (fuel : Nat) (m : Moment) : B ρ (Except Exit Moment) := do
  let b ← get
  let (result, disk, runner) := r.waitForCommand b.world b.runner
  set { b with world := { b.world with disk := disk }, runner := runner }
  match result.filter fun result => result.status ≠ ExitStatus.interrupted with
  | none        => return .error (← stop env r ExitStatus.interrupted (some "interrupted by user"))
  | some result =>
    let (result, finished) ← finishCommand env r fuel result
    afterCommand env r m result finished

/-- The error when there is nothing to wait for and nothing to start. -/
def noProgressError (failuresAllowed : Nat) : GoString :=
  if failuresAllowed = 0 then
    if env.failuresAllowed > 1 then "subcommands failed" else "subcommand failed"
  else if failuresAllowed < env.failuresAllowed then
    "cannot make progress due to previous errors"
  else
    "stuck [this is a bug]"

/-- The second half of a round. -/
def waitOrStop (fuel : Nat) (m : Moment) : B ρ (Except Exit Moment) := do
  if 0 < m.pending then
    reap env r fuel m
  else
    pure (.error ⟨(← get).exitCode, some (noProgressError env m.failuresAllowed)⟩)

/-- The end of a build that has nothing more to do. -/
def finishBuild : B ρ (Except Exit Moment) := do
  match r.waitForUploads (← get).runner with
  | .error err => pure (.error ⟨ExitStatus.failure, some err⟩)
  | .ok () => pure (.error ⟨ExitStatus.success, none⟩)

/-- The next edge to start, while there is capacity. -/
def takeWork (capacity : Int) : B ρ (Option EdgeId) :=
  if 0 < capacity then lift findWork else pure none

/-- One step of the loop: `Build` returns, or goes on. -/
def loopStep (fuel : Nat) (m : Moment) : B ρ (Except Exit Moment) := do
  match m.capacity with
  | none =>
    if ¬ (← get).world.moreToDo then
      finishBuild r
    else if 0 < m.failuresAllowed then
      let capacity ← canRunMore r
      pure (.ok { m with capacity := some capacity })
    else
      waitOrStop env r fuel m
  | some capacity =>
    match ← takeWork capacity with
    | some e => startFound env r fuel m capacity e
    | none =>
      if m.pending = 0 ∧ ¬ (← get).world.moreToDo then finishBuild r
      else waitOrStop env r fuel m

def buildLoop : Nat → Moment → B ρ Exit
  | 0, _ => throw .outOfFuel
  | fuel + 1, m => do
    match ← loopStep env r fuel m with
    | .error exit => pure exit
    | .ok m => buildLoop fuel m

def build (fuel : Nat) : B ρ Exit := do
  if ¬ (← get).world.moreToDo then throw (.panic "already up to date!")
  lift (prepareQueue env fuel)
  buildLoop env r fuel { failuresAllowed := env.failuresAllowed }

/-- `DryCommandRunner`: every command that is started has succeeded. -/
def dryCommandRunner : CommandRunner (List EdgeId) where
  canRunMore := fun _ finished => (2 ^ 63 - 1, finished)
  startCommand := fun e w finished => (.ok (), w.disk, finished ++ [e])
  waitForCommand := fun w finished => match finished with
    | [] => (none, w.disk, [])
    | front :: finished => (some { edge := front, status := ExitStatus.success }, w.disk, finished)
  getActiveEdges := fun _ => []
  clearsTokens := false

end Reninja
