import Reninja.Build.Basic
import Reninja.Cache.Action

/-!
# The caching command runner

`RemoteCachingCommandRunner`: a result is looked up under the key of the edge, a result that a
local run produced is stored. An entry of the action cache is either a full result or a
reference: a list of input paths to compute the key of the full result with.
-/

namespace Reninja

/-- The cache service: action results and blobs by digest. It may refuse a request. `updates` holds
the keys of all requests to store an action result. -/
structure RemoteCache where
  actions : Digest → Option ActionResult := fun _ => none
  blobs : Digest → Option GoString := fun _ => none
  refuses : Nat → Option GoString := fun _ => none
  requests : Nat := 0
  updates : List Digest := []

/-- What a transfer works on: the service and the disk. -/
structure Session where
  cache : RemoteCache
  disk : Disk

abbrev Transfer := EStateM GoString Session

def modifyCache (f : RemoteCache → RemoteCache) : Transfer Unit :=
  modify fun s => { s with cache := f s.cache }

def request : Transfer Unit := do
  let cache := (← get).cache
  modifyCache fun c => { c with requests := c.requests + 1 }
  match cache.refuses cache.requests with
  | some err => throw err
  | none => pure ()

/-- Upload a blob; returns its digest. -/
def uploadBlob (h : Hashing) (content : GoString) : Transfer Digest := do
  request
  modifyCache fun c => { c with
    blobs := Function.update c.blobs (h.compute content) (some content) }
  pure (h.compute content)

def getBlob (d : Option Digest) : Transfer GoString := do
  request
  match d.bind (← get).cache.blobs with
  | some content => pure content
  | none         => throw ("NotFound" : GoString)

def downloadActionResult (key : Digest) : Transfer ActionResult := do
  request
  match (← get).cache.actions key with
  | some ar => pure ar
  | none    => throw ("NotFound" : GoString)

def storeActionResult (key : Digest) (ar : ActionResult) : Transfer Unit := do
  modifyCache fun c => { c with updates := c.updates ++ [key] }
  request
  modifyCache fun c => { c with actions := Function.update c.actions key (some ar) }

def nul : UInt8 := 0

def encodeDyndepPaths (nodes : List Path) : GoString := [nul].intercalate nodes

def decodeDyndepPaths (encoded : GoString) : List GoString :=
  if encoded = [] then [] else encoded.splitOn nul

section Runner

variable (c : CacheConfig) (fs : FileSystem)

/-- `isDepsFileResult`: no outputs, and a standard output that is not known to be empty. -/
def isDepsFileResult (ar : ActionResult) : Bool :=
  ar.outputFiles = [] && ar.stdoutDigest ≠ some (c.hash.compute [])

def extractDepPathsFromPointer (ar : ActionResult) : Transfer (List GoString) := do
  if ar.stdoutDigest = some (c.hash.compute []) then
    pure (decodeDyndepPaths [])
  else
    pure (decodeDyndepPaths (← getBlob ar.stdoutDigest))

def orThrow {α : Type} : Except GoString α → Transfer α
  | .ok a => pure a
  | .error err => throw err

/-- An action result for a key; a result of a failed command does not count. -/
def findActionResult (key : Digest) (notFound : GoString) : Transfer ActionResult := do
  let ar ← downloadActionResult key
  if ar.exitCode ≠ 0 then throw notFound else pure ar

/-- The part of `downloadCompletedEdge` that finds the entry, with the key it was found under:
a reference is followed once. -/
def findCompletedEdge (w : World) (e : EdgeId) (action : Action) :
    Transfer (Digest × ActionResult) := do
  let key := c.hash.action (some action)
  let ar ← findActionResult key "ActionResult not found"
  if isDepsFileResult c ar then
    let dynamicDepPaths ← extractDepPathsFromPointer c ar
    let allInputPaths := extractPaths (w.staticInputs e) ++ dynamicDepPaths
    let cmd ← orThrow (assembleCommand c w e)
    let fullAction ← orThrow (assembleAction c fs cmd allInputPaths)
    let fullKey := c.hash.action (some fullAction)
    let ar ← findActionResult fullKey "ActionResult not found (after following pointer)"
    pure (fullKey, ar)
  else
    pure (key, ar)

def fetchFile (f : OutputFile) : Transfer Unit := do
  let created ← orThrow ((← get).disk.writeFile f.path [])
  modify fun s => { s with disk := created }
  let content ← getBlob (some f.digest)
  let written ← orThrow ((← get).disk.writeFile f.path content)
  modify fun s =>
    { s with disk := if f.isExecutable then written.put f.path content true else written }

def fetchIfOutput (outputs : List Path) (f : OutputFile) : Transfer Unit :=
  if f.path ∈ outputs then fetchFile f else pure ()

def fetchOutputs (outputs : List Path) : List OutputFile → Transfer Unit
  | [] => pure ()
  | f :: fs => do
    fetchIfOutput outputs f
    fetchOutputs outputs fs

def fetchStdout (ar : ActionResult) : Transfer GoString :=
  match ar.stdoutDigest with
  | none => pure []
  | some d => if d = c.hash.compute [] then pure [] else getBlob (some d)

def fetchOutputsAndResult (w : World) (e : EdgeId) (ar : ActionResult) : Transfer Result := do
  fetchOutputs (w.edges e).outputs ar.outputFiles
  let output ← fetchStdout c ar
  pure { edge := e, status := ar.exitCode, output := output, runner := .remoteCache,
         outputs := ar.outputFiles }

def downloadCompletedEdge (w : World) (e : EdgeId) (action : Action) : Transfer Result := do
  let (_, ar) ← findCompletedEdge c fs w e action
  fetchOutputsAndResult c w e ar

/-- The loop of `uploadEdgeOutputs`; outputs that do not exist are skipped. -/
def uploadOutputs : List Path → Transfer (List OutputFile)
  | [] => pure []
  | o :: os => do
    match (← get).disk.entries o with
    | none => uploadOutputs os
    | some (.statError err) => throw err
    | some (.file _ content executable) =>
      let digest ← uploadBlob c.hash content
      let files ← uploadOutputs os
      pure (⟨o, digest, executable⟩ :: files)

def uploadEdgeOutputs (outputs : List Path) (stdout : GoString) : Transfer (List OutputFile) := do
  let files ← uploadOutputs c outputs
  let _ ← uploadBlob c.hash stdout
  pure files

/-- The key that a result is stored under. The error of `assembleAction` is dropped: the key is
then that of no action. -/
def storeKey (cmd : Command) (inputs : List Path) : Digest :=
  c.hash.action (assembleAction c fs cmd (extractPaths inputs)).toOption

def uploadActionResultReference (cmd : Command) (staticInputs dynamicInputs : List Path) :
    Transfer Unit := do
  let digest ← uploadBlob c.hash (encodeDyndepPaths dynamicInputs)
  storeActionResult (storeKey c fs cmd staticInputs) { exitCode := 0, stdoutDigest := some digest }

/-- The full result that is stored for a local run. -/
def fullActionResult (result : Result) : ActionResult :=
  { exitCode := result.status, outputFiles := result.outputs }

def uploadFullActionResult (cmd : Command) (result : Result) (inputs : List Path) :
    Transfer Unit :=
  storeActionResult (storeKey c fs cmd inputs) (fullActionResult result)

/-- `uploadActionResult`: what is stored depends on whether the edge had dynamic inputs before
the command ran and on whether the command reported some. By the time of a second result the files
may have changed to those of `later`. -/
def uploadActionResultAt (later : FileSystem) (w : World) (result : Result)
    (depsNodes : List Path) : Transfer Unit := do
  let e := result.edge
  let cmd ← orThrow (assembleCommand c w e)
  let staticInputs := w.staticInputs e
  let dynamicInputs := w.dynamicInputs e
  match dynamicInputs, depsNodes with
  | [], _ :: _ =>
    let allInputs := staticInputs ++ depsNodes
    uploadActionResultReference c fs cmd staticInputs allInputs
    uploadFullActionResult c later cmd result allInputs
  | [], [] => uploadFullActionResult c fs cmd result staticInputs
  | _ :: _, [] => uploadActionResultReference c fs cmd staticInputs dynamicInputs
  | _ :: _, _ :: _ =>
    let dynamicInputs := dynamicInputs ++ depsNodes
    let allInputs := staticInputs ++ dynamicInputs
    uploadActionResultReference c fs cmd staticInputs dynamicInputs
    uploadFullActionResult c later cmd result allInputs

def uploadActionResult : World → Result → List Path → Transfer Unit :=
  uploadActionResultAt c fs fs

end Runner

/-- The state of the runner. `started` holds the edges whose goroutine has not delivered its
result, with the action of each; `uploadError` is the first error of an upload. -/
structure CachingState where
  cache : RemoteCache
  activeEdges : List EdgeId := []
  started : List (EdgeId × Action) := []
  uploadError : Option GoString := none

/-- What the runner runs on: the machine's limits, its files, what a command does, and which
goroutine delivers next (none when the user interrupts). -/
structure Machine where
  parallelism : Int
  loadCapacity : CachingState → Option Int := fun _ => none
  resultsWaiting : CachingState → Bool := fun _ => false
  files : Disk → FileSystem
  execute : EdgeId → World → Except GoString (Disk × ExitStatus × GoString)
  next : CachingState → Option Nat := fun _ => some 0

variable (c : CacheConfig) (m : Machine)

/-- `CanRunMore`. -/
def cachingCapacity (w : World) (s : CachingState) : Int :=
  if m.resultsWaiting s then
    0
  else
    let capacity : Int :=
      if w.jobserver.isSome then 2 ^ 63 - 1 else m.parallelism - s.activeEdges.length
    let capacity := match m.loadCapacity s with
      | some load => min load capacity
      | none => capacity
    let capacity := max capacity 0
    if capacity = 0 ∧ s.activeEdges = [] then 1 else capacity

/-- The result of a goroutine that could not run the command or upload its outputs. -/
def makeFailureResult (e : EdgeId) (err : GoString) : Result :=
  { edge := e, status := ExitStatus.failure, output := err, runner := .unset }

def runLocally (w : World) (e : EdgeId) (s : Session) : Result × Session :=
  match m.execute e { w with disk := s.disk } with
  | .error err => (makeFailureResult e err, s)
  | .ok (disk, status, output) =>
    if status = ExitStatus.success then
      match uploadEdgeOutputs c (w.edges e).outputs output { s with disk := disk } with
      | .error err s' => (makeFailureResult e err, s')
      | .ok files s' =>
        ({ edge := e, status := status, output := output, outputs := files }, s')
    else
      ({ edge := e, status := status, output := output }, { s with disk := disk })

/-- The goroutine of `StartCommand`. -/
def runStarted (w : World) (e : EdgeId) (action : Action) (s : Session) : Result × Session :=
  match downloadCompletedEdge c (m.files s.disk) w e action s with
  | .ok result s' => (result, s')
  | .error _ s' => runLocally c m w e s'

def cachingRunner : CommandRunner CachingState where
  canRunMore w s := (cachingCapacity m w s, s)
  startCommand e w s :=
    -- the edge is active even if its action cannot be computed
    let s := { s with activeEdges := s.activeEdges ++ [e] }
    match assembleAndHashAction c (m.files w.disk) w e with
    | .error err => (.error err, w.disk, s)
    | .ok action => (.ok (), w.disk, { s with started := s.started ++ [(e, action)] })
  waitForCommand w s :=
    match (m.next s).bind fun i => s.started[i]? with
    | none => (none, w.disk, s)
    | some (e, action) =>
      let (result, session) := runStarted c m w e action ⟨s.cache, w.disk⟩
      (some result, session.disk, { s with
        cache := session.cache
        started := s.started.erase (e, action)
        activeEdges := s.activeEdges.filter (· ≠ e) })
  getActiveEdges s := s.activeEdges
  cacheResult w result depsNodes s :=
    if result.status ≠ ExitStatus.success ∨ result.runner = .remoteCache then
      s
    else
      match uploadActionResult c (m.files w.disk) w result depsNodes ⟨s.cache, w.disk⟩ with
      | .ok _ session => { s with cache := session.cache }
      | .error err session =>
        { s with cache := session.cache, uploadError := s.uploadError.or (some err) }
  waitForUploads s :=
    match s.uploadError with
    | some err => .error err
    | none => .ok ()

end Reninja
