import Reninja.Build.Basic

/-!
# The deps log file

`DepsLog` as it is kept in memory and in the file `.ninja_deps`: reading a file, recording, and
rewriting the file. A node is known by its path, and `ids` is the id field of all nodes of the
state. Integers in the file have four bytes, the lowest first; the host is little-endian too.
Failing reads and writes only make the source return their error, and are left out.
-/

namespace Reninja.DepsFile

open Program

/-- `Deps`: a node that is `none` is a nil pointer. -/
structure Record where
  mtime : TimeStamp
  nodes : List (Option Path)
  deriving DecidableEq, Repr

structure Log where
  nodes : List Path := []
  deps : List (Option Record) := []
  ids : Path → Int := fun _ => -1

def index {α : Type} (l : List α) (i : Nat) : Except Failure α :=
  match l[i]? with
  | some a => .ok a
  | none   => .error (.panic "runtime error: index out of range")

/-- The id and the place of a node that is new to the log. -/
def Log.addNode (log : Log) (n : Path) : Log :=
  { log with
    nodes := log.nodes ++ [n]
    ids := Function.update log.ids n log.nodes.length }

def Log.updateDeps (log : Log) (out : Nat) (r : Record) : Log :=
  { log with
    deps := (log.deps ++ List.replicate (out + 1 - log.deps.length) none).set out (some r) }

/-- The answer of `UpdateDeps`: whether there was a record before. -/
def Log.hasDeps (log : Log) (out : Nat) : Bool := (log.deps[out]?.getD none).isSome

def Log.getDeps (log : Log) (n : Path) : Except Failure (Option Record) :=
  let id := log.ids n
  if id < 0 ∨ log.deps.length ≤ id then .ok none else index log.deps id.toNat

/-- Whether a path is among the nodes of a record, met one after the other. -/
def hasNode (n : Path) : List (Option Path) → Except Failure Bool
  | [] => .ok false
  | none :: _ => .error nilDereference
  | some m :: ms => if m = n then .ok true else hasNode n ms

def Log.getFirstReverseDepsNode (log : Log) (n : Path) : Except Failure (Option Path) :=
  go 0 log.deps
where
  go : Nat → List (Option Record) → Except Failure (Option Path)
    | _, [] => .ok none
    | i, none :: ds => go (i + 1) ds
    | i, some r :: ds =>
      match hasNode n r.nodes with
      | .error f => .error f
      | .ok false => go (i + 1) ds
      | .ok true => (index log.nodes i).map some

/-- The signature `"# ninjadeps\n"`. -/
def fileSignature : List UInt8 := [35, 32, 110, 105, 110, 106, 97, 100, 101, 112, 115, 10]

def currentVersion : Nat := 4

def bytesToInt (b : List UInt8) : Nat := b.foldr (fun c n => c.toNat + 256 * n) 0

def intTo4Bytes (i : Int) : List UInt8 :=
  let n := (i % 2 ^ 32).toNat
  [n, n / 256, n / 256 ^ 2, n / 256 ^ 3].map UInt8.ofNat

/-- The time whose two halves are given: an `int64`. -/
def joinMtime (low high : Nat) : TimeStamp := Int.bmod (low + high * 2 ^ 32) (2 ^ 64)

/-! ### Reading -/

/-- The local variables of `Load`: the log, the buffer, what is left of the file, and the
counters. -/
structure Loader where
  file : List UInt8
  rest : List UInt8
  log : Log := {}
  buf : Nat → UInt8 := fun _ => 0
  offset : Nat := 0
  readFailed : Bool := false
  uniqueDepRecordCount : Nat := 0
  totalDepRecordCount : Nat := 0
  needsRecompaction : Bool := false

abbrev L := EStateM Failure Loader

def slice (buf : Nat → UInt8) (s e : Nat) : List UInt8 :=
  (List.range (e - s)).map fun k => buf (s + k)

/-- `io.ReadFull(f, buf[:n])`: whether all of it could be read. -/
def readFull (n : Nat) : L Bool := do
  let got := (← get).rest.take n
  modify fun s => { s with buf := fun i => got.getD i (s.buf i), rest := s.rest.drop n }
  pure (got.length = n)

/-- `readFailed = true; break`. -/
def stopReading : L Bool := do
  modify fun s => { s with readFailed := true }
  pure false

/-- The nodes with the given ids. From the first id that is unknown on they stay nil. -/
def nodesWithIds (nodes : List Path) : List Nat → List (Option Path) × Bool
  | [] => ([], true)
  | id :: ids =>
    match nodes[id]? with
    | none => (none :: ids.map fun _ => none, false)
    | some n => (some n :: (nodesWithIds nodes ids).1, (nodesWithIds nodes ids).2)

def recordIds (buf : Nat → UInt8) (size : Nat) : List Nat :=
  (List.range (size / 4 - 3)).map fun i => bytesToInt (slice buf (12 + 4 * i) (12 + 4 * i + 4))

/-- A record of dependencies. The `break` for an unknown id leaves the inner loop only. -/
def loadDeps (size : Nat) : L Bool := do
  if size % 4 ≠ 0 then
    stopReading
  else if size / 4 < 3 then
    throw (.panic "runtime error: makeslice: len out of range")
  else
    let s ← get
    let outID := bytesToInt (slice s.buf 0 4)
    let mtime := joinMtime (bytesToInt (slice s.buf 4 8)) (bytesToInt (slice s.buf 8 12))
    let (nodes, allKnown) := nodesWithIds s.log.nodes (recordIds s.buf size)
    set { s with
      log := s.log.updateDeps outID ⟨mtime, nodes⟩
      readFailed := s.readFailed || !allKnown
      totalDepRecordCount := s.totalDepRecordCount + 1
      uniqueDepRecordCount := s.uniqueDepRecordCount + if s.log.hasDeps outID then 0 else 1 }
    pure true

def dropNul (pathSize : Nat) : L Nat := do
  match pathSize with
  | 0     => throw (.panic "runtime error: index out of range [-1]")
  | k + 1 => pure (if (← get).buf k = 0 then k else k + 1)

def loadPath (size : Nat) : L Bool := do
  if size ≤ 4 then
    stopReading
  else
    let pathSize ← dropNul (size - 4)
    let pathSize ← dropNul pathSize
    let pathSize ← dropNul pathSize
    let s ← get
    let subPath := slice s.buf 0 pathSize
    let checksum := bytesToInt (slice s.buf (size - 4) size)
    if s.log.nodes.length % 2 ^ 32 ≠ 2 ^ 32 - 1 - checksum ∨ 0 ≤ s.log.ids subPath then
      stopReading
    else
      modify fun s => { s with log := s.log.addNode subPath }
      pure true

def loadSized (isDeps : Bool) (size : Nat) : L Bool := do
  if size > maxRecordSize then
    stopReading
  else if ← readFull size then
    modify fun s => { s with offset := s.offset + (size + 4) }
    if isDeps then loadDeps size else loadPath size
  else
    stopReading

/-- One round of the loop of `Load`; false when it is left. -/
def loadRecord : L Bool := do
  if ← readFull 4 then
    let size := bytesToInt (slice (← get).buf 0 4)
    loadSized (2 ^ 31 ≤ size) (size % 2 ^ 31)
  else
    stopReading

def loadLoop : Nat → L Unit
  | 0 => throw .outOfFuel
  | fuel + 1 => do if ← loadRecord then loadLoop fuel else pure ()

/-- What `Load` does after the loop: cut off what could not be read, or see whether the file
should be rewritten. -/
def finishLoad (s : Loader) : Loader :=
  if s.readFailed then
    { s with file := s.file.take s.offset }
  else
    { s with needsRecompaction :=
        1000 < s.totalDepRecordCount ∧ s.uniqueDepRecordCount * 3 < s.totalDepRecordCount }

/-- The signature and the version; with an error when one of them is not as expected. -/
def loadHeader : L (Option GoString) := do
  let read ← readFull fileSignature.length
  let validHeader := read && slice (← get).buf 0 fileSignature.length = fileSignature
  let read ← readFull 4
  let version := bytesToInt (slice (← get).buf 0 4)
  let validVersion := read && version = currentVersion
  if ¬ (validHeader ∧ validVersion) then
    pure (some (if version = 1 then "deps log version change; rebuilding"
      else "bad deps log signature or version; starting over"))
  else
    modify fun s => { s with offset := fileSignature.length + 4 }
    pure none

/-- `Load` of a file that exists: the error it returns, if there is one. -/
def load : L (Option GoString) := do
  match ← loadHeader with
  | some err => pure (some err)
  | none =>
    loadLoop ((← get).rest.length + 1)
    modify finishLoad
    pure none

/-- The start of `Load`, with an empty log and a state in which no node has an id. -/
def Loader.start (file : List UInt8) : Loader := { file := file, rest := file }

/-! ### Writing -/

/-- A log that is open for writing, and its file. -/
structure Writer where
  log : Log
  file : List UInt8 := []
  isOpen : Bool := false

abbrev W := EStateM Failure Writer

def openForWriteIfNeeded : W Unit :=
  modify fun s =>
    if s.isOpen then s
    else { s with
      isOpen := true
      file := if s.file = [] then fileSignature ++ intTo4Bytes currentVersion else s.file }

def write (b : List UInt8) : W Unit := modify fun s => { s with file := s.file ++ b }

/-- The bytes after a path that fill up the last four. -/
def pathPadding (n : Path) : Nat := (4 - n.length % 4) % 4

/-- There is no record for the path: it is empty, or too long. -/
def Refused (n : Path) : Prop := n = [] ∨ maxRecordSize < n.length + pathPadding n + 4

instance : DecidablePred Refused := fun _ => inferInstanceAs (Decidable (_ ∨ _))

def recordId (n : Path) : W Unit := do
  let size := n.length + pathPadding n + 4
  if n = [] then
    throw (.panic "Trying to record empty path Node!")
  else if size > maxRecordSize then
    throw (.error "ERANGE")
  else
    openForWriteIfNeeded
    let id : Int := (← get).log.nodes.length
    write (intTo4Bytes size ++ n ++ List.replicate (pathPadding n) 0 ++ intTo4Bytes (-id - 1))
    modify fun s => { s with log := s.log.addNode n }

/-- Give a node an id if it has none; returns whether it had none. -/
def recordIdIfMissing (n : Path) : W Bool := do
  if (← get).log.ids n < 0 then
    recordId n
    pure true
  else
    pure false

def recordMissingIds : List (Option Path) → W Bool
  | [] => pure false
  | none :: _ => throw nilDereference
  | some n :: ns => do
    let change ← recordIdIfMissing n
    let changes ← recordMissingIds ns
    pure (change || changes)

def orThrow {α : Type} : Except Failure α → W α
  | .ok a => pure a
  | .error f => throw f

def writeDeps (n : Path) (mtime : TimeStamp) (nodes : List (Option Path)) : W Unit := do
  let size := 4 * (1 + 2 + nodes.length)
  if size > maxRecordSize then
    throw (.error "ERANGE")
  else
    openForWriteIfNeeded
    let ids := (← get).log.ids
    write (intTo4Bytes (size + 2 ^ 31) ++ intTo4Bytes (ids n) ++ intTo4Bytes mtime ++
      intTo4Bytes (mtime / 2 ^ 32) ++ (nodes.filterMap id).flatMap fun m => intTo4Bytes (ids m))
    modify fun s => { s with log := s.log.updateDeps (s.log.ids n).toNat ⟨mtime, nodes⟩ }

def recordDeps (n : Path) (mtime : TimeStamp) (nodes : List (Option Path)) : W Unit := do
  let change ← recordIdIfMissing n
  let changes ← recordMissingIds nodes
  let before ← orThrow ((← get).log.getDeps n)
  if !(change || changes) && before = some ⟨mtime, nodes⟩ then
    pure ()
  else
    writeDeps n mtime nodes

end Reninja.DepsFile

namespace Reninja

def World.isDepsEntryLiveFor (w : World) (n : Path) : Bool :=
  match w.producer n with
  | none => false
  | some e => w.getBinding e .deps ≠ []

end Reninja

namespace Reninja.DepsFile

open Program

/-- Copy a record for a node that is still in use. -/
def copyIfLive (w : World) (n : Path) (r : Record) : W Unit :=
  if w.isDepsEntryLiveFor n then recordDeps n r.mtime r.nodes else pure ()

/-- The loop of `Recompact` over the records. -/
def copyRecords (w : World) (nodes : List Path) : Nat → List (Option Record) → W Unit
  | _, [] => pure ()
  | i, none :: ds => copyRecords w nodes (i + 1) ds
  | i, some r :: ds => do
    let n ← orThrow (index nodes i)
    copyIfLive w n r
    copyRecords w nodes (i + 1) ds

/-- The new log of `Recompact`: empty, with no node of the old one having an id. -/
def Log.renewed (log : Log) : Log :=
  { nodes := [], deps := [], ids := fun n => if n ∈ log.nodes then -1 else log.ids n }

/-- `Recompact`: the log and the file it leaves. -/
def recompact (w : World) (log : Log) : W Unit := do
  modify fun _ => { log := log.renewed }
  copyRecords w log.nodes 0 log.deps
  openForWriteIfNeeded

end Reninja.DepsFile
