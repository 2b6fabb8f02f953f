import Reninja.Graph.Basic
import Reninja.Library.LineReader
import Reninja.Library.Numerals

/-!
# The build log

`BuildLog` of `internal/build_log`: a text file with a line for every output of every command that
was recorded, of which the last line of an output counts. `Load` reads it through a buffered
reader, which hands a long line out in pieces.
-/

namespace Reninja.BuildLog

open LineReader

def tab : UInt8 := 9

structure LogEntry where
  output : Path
  startTime : Int64
  endTime : Int64
  mtime : Int64
  commandHash : UInt64
  deriving DecidableEq, Repr

/-- The map of the entries: one for each output. -/
structure Entries where
  list : List LogEntry := []
  nodup : (list.map (·.output)).Nodup := by exact List.nodup_nil

namespace Entries

def lookup (es : Entries) (p : Path) : Option LogEntry := es.list.find? (·.output = p)

def replaced (l : List LogEntry) (e : LogEntry) : List LogEntry :=
  if e.output ∈ l.map (·.output) then l.map fun f => if f.output = e.output then e else f
  else l ++ [e]

lemma replaced_nodup {l : List LogEntry} (h : (l.map (·.output)).Nodup) (e : LogEntry) :
    ((replaced l e).map (·.output)).Nodup := by
  unfold replaced
  split
  next =>
    rw [List.map_map]
    refine (List.map_congr_left fun f _ => ?_) ▸ h
    simp only [Function.comp_apply]
    split
    next heq => exact heq
    next => rfl
  next hnew =>
    rw [List.map_append, List.map_singleton, (List.perm_append_singleton _ _).nodup_iff,
      List.nodup_cons]
    exact ⟨hnew, h⟩

def put (es : Entries) (e : LogEntry) : Entries :=
  ⟨replaced es.list e, replaced_nodup es.nodup e⟩

end Entries

/-! ### Lines -/

/-- `%d` of a number. -/
def formatInt (x : Int64) : GoString :=
  if x.toInt < 0 then 45 :: Numerals.format 10 x.toInt.natAbs
  else Numerals.format 10 x.toInt.natAbs

def formatLine (e : LogEntry) : GoString :=
  [tab].intercalate [formatInt e.startTime, formatInt e.endTime, formatInt e.mtime, e.output,
    Numerals.format 16 e.commandHash.toNat]

def writeEntry (e : LogEntry) : GoString := formatLine e ++ [newline]

/-- `fileSignature` with `currentVersion`, without its newline. -/
def fileSignature : GoString := "# ninja log v7"

/-- Whether a numeral has a minus sign, and what follows its sign. -/
def takeSign : GoString → Bool × GoString
  | [] => (false, [])
  | c :: s => if c = 43 then (false, s) else if c = 45 then (true, s) else (false, c :: s)

/-- `strconv.ParseInt` in base ten with 64 bits. -/
def parseInt (s : GoString) : Option Int64 :=
  let digits := (takeSign s).2
  let n := Numerals.value 10 digits
  if digits = [] ∨ ¬ digits.all (Numerals.isDigit 10) then none
  else if (takeSign s).1 then
    if n ≤ 2 ^ 63 then some (Int64.ofInt (-n)) else none
  else
    if n < 2 ^ 63 then some (Int64.ofInt n) else none

/-- The encodings of the characters that the scanning functions take for spaces. -/
def spaces : List GoString :=
  [[9], [10], [11], [12], [13], [32], [194, 133], [194, 160], [225, 154, 128]] ++
    (List.range 11).map (fun i => [226, 128, 128 + UInt8.ofNat i]) ++
    [[226, 128, 168], [226, 128, 169], [226, 128, 175], [226, 129, 159], [227, 128, 128]]

def skipSpaces : Nat → GoString → GoString
  | 0, s => s
  | n + 1, s =>
    match spaces.find? (·.isPrefixOf s) with
    | none => s
    | some sp => skipSpaces n (s.drop sp.length)

def skipSpace (s : GoString) : GoString := skipSpaces s.length s

/-- `fmt.Sscanf` with `%x` and a number of 64 bits: what follows the digits is ignored. -/
def scanHex (s : GoString) : Option UInt64 :=
  let digits := (skipSpace s).takeWhile (Numerals.isDigit 16)
  if digits = [] then none
  else if Numerals.value 16 digits < 2 ^ 64 then some (UInt64.ofNat (Numerals.value 16 digits))
  else none

def scanLiteral (literal s : GoString) : Option GoString :=
  if literal.isPrefixOf s then some (s.drop literal.length) else none

def scanBlank (s : GoString) : Option GoString :=
  if (skipSpace s).length < s.length then some (skipSpace s) else none

/-- `%d` and the newline at the end of a format, which matches the end of the input. -/
def scanLastInt (s : GoString) : Option Int64 :=
  let (sign, t) := match skipSpace s with
    | [] => ([], [])
    | c :: t => if c = 43 ∨ c = 45 then ([c], t) else ([], c :: t)
  let digits := t.takeWhile (Numerals.isDigit 10)
  if skipSpace (t.drop digits.length) = [] then parseInt (sign ++ digits) else none

/-- `fmt.Sscanf` with the format of `fileSignature`. -/
def scanSignature (line : GoString) : Option Int64 := do
  let s ← scanBlank (← scanLiteral "#" line)
  let s ← scanBlank (← scanLiteral "ninja" s)
  let s ← scanBlank (← scanLiteral "log" s)
  scanLastInt (← scanLiteral "v" s)

inductive LoadError where
  | eof
  | signature
  | versionOld
  | startTime
  | endTime
  | mtime
  | commandHash
  | outOfFuel
  deriving DecidableEq, Repr

/-- The entry that a line stands for; a line that does not have five fields is passed over. -/
def parseEntry (line : GoString) : Except LoadError (Option LogEntry) :=
  match line.splitOn tab with
  | [startTimeStr, endTimeStr, mTimeStr, outPath, commandHashStr] =>
    match parseInt startTimeStr with
    | none => .error .startTime
    | some startTime =>
      match parseInt endTimeStr with
      | none => .error .endTime
      | some endTime =>
        match parseInt mTimeStr with
        | none => .error .mtime
        | some mtime =>
          match scanHex commandHashStr with
          | none => .error .commandHash
          | some commandHash => .ok (some ⟨outPath, startTime, endTime, mtime, commandHash⟩)
  | _ => .ok none

/-! ### Loading -/

def bufferSize : Nat := 4096

/-- What `Load` has read so far; the version is zero until the signature was read. -/
structure Loading where
  version : Int64 := 0
  uniqueEntryCount : Nat := 0
  totalEntryCount : Nat := 0
  entries : Entries := {}

def oldestSupportedVersion : Int64 := 7

def currentVersion : Int64 := 7

def maxLineLength : Nat := 256000

def Loading.put (st : Loading) (e : LogEntry) : Loading :=
  { st with
    uniqueEntryCount :=
      if (st.entries.lookup e.output).isSome then st.uniqueEntryCount else st.uniqueEntryCount + 1
    totalEntryCount := st.totalEntryCount + 1
    entries := st.entries.put e }

/-- The body of the loop of `Load` for a whole line. -/
def Loading.takeLine (st : Loading) (line : GoString) : Except LoadError Loading :=
  if maxLineLength < line.length then .ok st
  else if st.version = 0 then
    match scanSignature line with
    | none => .error .signature
    | some v =>
      if v < oldestSupportedVersion ∨ currentVersion < v then .error .versionOld
      else .ok { st with version := v }
  else
    match parseEntry line with
    | .error e => .error e
    | .ok none => .ok st
    | .ok (some e) => .ok (st.put e)

/-- The loop of `Load`: `buf` holds the pieces of a line that was not complete so far. An end of the
file after the first piece of two is returned as an error. -/
def loadLoop : Nat → GoString → GoString → Loading → Except LoadError Loading
  | 0, _, _, _ => .error .outOfFuel
  | fuel + 1, text, buf, st =>
    match readLine bufferSize text with
    | none => .ok st
    | some (data, false, text) =>
      match st.takeLine (buf ++ data) with
      | .error e => .error e
      | .ok st => loadLoop fuel text [] st
    | some (data, true, text) =>
      match readLine bufferSize text with
      | none => .error .eof
      | some (moreData, true, text) => loadLoop fuel text (buf ++ data ++ moreData) st
      | some (moreData, false, text) =>
        match st.takeLine (buf ++ data ++ moreData) with
        | .error e => .error e
        | .ok st => loadLoop fuel text [] st

structure Log where
  entries : Entries := {}
  needsRecompaction : Bool := false
  /-- What is at the path of the log. -/
  file : Option GoString := none
  isOpen : Bool := false

def load (file : Option GoString) : Except LoadError Log :=
  match file with
  | none => .ok {}
  | some text =>
    match loadLoop (text.length + 1) text [] {} with
    | .error e => .error e
    | .ok st =>
      let needsRecompaction := st.version ≠ 0 ∧ (st.version < currentVersion ∨
        100 < st.totalEntryCount ∧ st.uniqueEntryCount * 3 < st.totalEntryCount)
      .ok { entries := st.entries, needsRecompaction := needsRecompaction, file := file }

namespace Log

def openForWriteIfNeeded (log : Log) : Log :=
  if log.isOpen then log
  else
    let content := log.file.getD []
    { log with
      isOpen := true
      file := some (if content = [] then fileSignature ++ [newline] else content) }

def close (log : Log) : Log := { log.openForWriteIfNeeded with isOpen := false }

def recordEntry (log : Log) (e : LogEntry) : Log :=
  let log := { log with entries := log.entries.put e }.openForWriteIfNeeded
  { log with file := log.file.map (· ++ writeEntry e) }

end Log

/-- A call of `RecordCommand`. -/
structure Call where
  world : World
  edge : EdgeId
  startTime : Int64
  endTime : Int64
  mtime : Int64

def Call.entry (hashCommand : GoString → UInt64) (c : Call) (path : Path) : LogEntry where
  output := path
  startTime := c.startTime
  endTime := c.endTime
  mtime := c.mtime
  commandHash := hashCommand (c.world.evaluateCommand c.edge true)

def Call.outputs (c : Call) : List Path := (c.world.edges c.edge).outputs

def Call.entries (hashCommand : GoString → UInt64) (c : Call) : List LogEntry :=
  c.outputs.map (c.entry hashCommand)

namespace Log

def recordCommand (hashCommand : GoString → UInt64) (log : Log) (c : Call) : Log :=
  (c.entries hashCommand).foldl recordEntry log

def recorded (hashCommand : GoString → UInt64) (calls : List Call) : Log :=
  calls.foldl (recordCommand hashCommand) {}

def fileOf (es : List LogEntry) : GoString := fileSignature ++ [newline] ++ es.flatMap writeEntry

lemma arrange_nodup (order : MapOrder) (k : Nat) (es : Entries) :
    ((order.arrange k es.list).map (·.output)).Nodup :=
  (((order.arrange_perm k es.list).map _).nodup_iff).mpr es.nodup

def recompact (order : MapOrder) (k : Nat) (isPathDead : Path → Bool) (log : Log) : Log :=
  let live := (order.arrange k log.entries.list).filter fun e => !isPathDead e.output
  { log with
    entries := ⟨live, ((List.filter_sublist.map _).nodup (arrange_nodup order k log.entries))⟩
    file := some (fileOf live)
    isOpen := false }

/-- The entry as `Restat` writes it; with outputs given, other entries are left alone. -/
def restatEntry {ε : Type} (stat : Path → Except ε Int64) (outputs : List Path) (e : LogEntry) :
    Except ε LogEntry :=
  if outputs ≠ [] ∧ e.output ∉ outputs then .ok e
  else
    match stat e.output with
    | .error err => .error err
    | .ok mtime => .ok { e with mtime := mtime }

lemma restatEntry_output {ε : Type} {stat : Path → Except ε Int64} {outputs : List Path}
    {e e' : LogEntry} (h : restatEntry stat outputs e = .ok e') : e'.output = e.output := by
  unfold restatEntry at h
  split at h
  next =>
    cases h
    rfl
  next =>
    split at h
    next => cases h
    next =>
      cases h
      rfl

def restatEntries {ε : Type} (stat : Path → Except ε Int64) (outputs : List Path) :
    List LogEntry → Except ε (List LogEntry)
  | [] => .ok []
  | e :: es =>
    match restatEntry stat outputs e with
    | .error err => .error err
    | .ok e' =>
      match restatEntries stat outputs es with
      | .error err => .error err
      | .ok es' => .ok (e' :: es')

lemma restatEntries_outputs {ε : Type} {stat : Path → Except ε Int64} {outputs : List Path}
    {es es' : List LogEntry} (h : restatEntries stat outputs es = .ok es') :
    es'.map (·.output) = es.map (·.output) := by
  induction es generalizing es' with
  | nil =>
    cases h
    rfl
  | cons e es ih =>
    simp only [restatEntries] at h
    cases he : restatEntry stat outputs e with
    | error err => simp [he] at h
    | ok e' =>
      cases hes : restatEntries stat outputs es with
      | error err => simp [he, hes] at h
      | ok tail =>
        simp only [he, hes, Except.ok.injEq] at h
        subst h
        rw [List.map_cons, List.map_cons, ih hes, restatEntry_output he]

def restat {ε : Type} (order : MapOrder) (k : Nat) (stat : Path → Except ε Int64)
    (outputs : List Path) (log : Log) : Except ε Log :=
  match h : restatEntries stat outputs (order.arrange k log.entries.list) with
  | .error err => .error err
  | .ok es =>
    .ok { log with
      entries := ⟨es, restatEntries_outputs h ▸ arrange_nodup order k log.entries⟩
      file := some (fileOf es)
      isOpen := false }

end Log

end Reninja.BuildLog
