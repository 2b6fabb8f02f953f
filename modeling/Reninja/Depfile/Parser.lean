import Reninja.Graph.Basic

/-!
# The parser of depfiles

`DepfileParser.Parse` cuts a depfile into names. Escapes are undone in the buffer that is being
read: `outIdx`, where the next byte of a name is written, falls behind `cursor`, where the next
byte is read. One step of the model is one round of the inner loop, with the end of a name if
there is one; an access out of range is an outcome of its own.
-/

namespace Reninja.Depfile

/-! ### The scanner -/

/-- The rules of the scanner, in their order. -/
inductive Pattern where
  | oddSpace | evenSpace | hash | colonEnd | colon | dollar | text | nul | continuation | newline
  | other
  deriving DecidableEq, Repr

def peek (s : GoString) : UInt8 := s.headD 0

@[simp] lemma peek_nil : peek [] = 0 := rfl

@[simp] lemma peek_cons (c : UInt8) (s : GoString) : peek (c :: s) = c := rfl

def isPlain (c : UInt8) : Bool :=
  32 < c && c ≠ 35 && c ≠ 36 && c ≠ 42 && c ≠ 59 && c ≠ 60 && c ≠ 62 && c ≠ 92 && c ≠ 94 &&
    c ≠ 96 && c ≠ 124 && c ≠ 127

/-- A byte that makes the colon in front of it the end of a target. -/
def endsTarget (c : UInt8) : Bool := c = 0 || c = 9 || c = 10 || c = 13 || c = 32

def afterColon (k : Nat) (s : GoString) : Pattern × Nat :=
  if endsTarget (peek s) then (.colonEnd, k + 2) else (.colon, k + 1)

def afterBackslashes (k : Nat) : GoString → Pattern × Nat
  | [] => (.text, k)
  | c :: cs =>
    if c = 0 ∨ c = 10 ∨ c = 13 then (.text, k)
    else if c = 32 then (if k % 2 = 0 then .evenSpace else .oddSpace, k + 1)
    else if c = 35 then (.hash, k + 1)
    else if c = 58 then afterColon k cs
    else if c = 92 then afterBackslashes (k + 1) cs
    else (.text, k + 1)

def afterBackslash (s : GoString) : Pattern × Nat :=
  let c := peek s
  if c = 0 then (.other, 1)
  else if c = 10 then (.continuation, 2)
  else if c = 13 then if peek s.tail = 10 then (.continuation, 3) else (.other, 1)
  else if c = 32 then (.oddSpace, 2)
  else if c = 35 then (.hash, 2)
  else if c = 58 then afterColon 1 s.tail
  else if c = 92 then afterBackslashes 2 s.tail
  else (.text, 2)

/-- The rule that matches at the front of a text, and the length of the match. -/
def scan (s : GoString) : Pattern × Nat :=
  let c := peek s
  if c = 0 then (.nul, 1)
  else if c = 10 then (.newline, 1)
  else if c = 13 then if peek s.tail = 10 then (.newline, 2) else (.other, 1)
  else if c = 36 then if peek s.tail = 36 then (.dollar, 2) else (.other, 1)
  else if c = 92 then afterBackslash s.tail
  else if isPlain c then (.text, (s.takeWhile isPlain).length)
  else (.other, 1)

/-- Put bytes into a buffer, in the place of those that were there. -/
def overwrite (buf : GoString) (i : Nat) (bytes : GoString) : GoString :=
  buf.take i ++ bytes ++ buf.drop (i + bytes.length)

def memset (buf : GoString) (i n : Nat) (c : UInt8) : Option GoString :=
  if i + n ≤ buf.length then some (overwrite buf i (List.replicate n c)) else none

/-- The two slices may overlap: the bytes are read before any is written. -/
def memmov (buf : GoString) (dst src n : Nat) : Option GoString :=
  if dst ≤ buf.length ∧ src + n ≤ buf.length then
    some (overwrite buf dst (((buf.drop src).take n).take (buf.length - dst)))
  else
    none

def store (buf : GoString) (i : Nat) (c : UInt8) : Option GoString :=
  if i < buf.length then some (overwrite buf i [c]) else none

/-- `contentBytes[lo : lo + n]`. -/
def slice (buf : GoString) (lo n : Nat) : Option GoString :=
  if lo + n ≤ buf.length then some ((buf.drop lo).take n) else none

/-- What the parser has read so far. -/
structure Names where
  outs : List GoString := []
  ins : List GoString := []
  haveTarget : Bool := false
  parsingTargets : Bool := true
  poisonedInput : Bool := false
  isEmpty : Bool := true
  deriving DecidableEq, Repr

def Names.addPiece (names : Names) (isDependency : Bool) (piece : GoString) :
    Names × Option GoString :=
  if piece = [] then
    (names, none)
  else
    let names := { names with isEmpty := false }
    if piece ∈ names.ins then
      (if isDependency then names else { names with poisonedInput := true }, none)
    else if isDependency then
      if names.poisonedInput then (names, some "inputs may not also have inputs")
      else ({ names with ins := names.ins ++ [piece] }, none)
    else if piece ∈ names.outs then (names, none)
    else ({ names with outs := names.outs ++ [piece] }, none)

def Names.endLine (names : Names) (haveNewline : Bool) : Names :=
  if haveNewline then { names with parsingTargets := true, poisonedInput := false } else names

def Names.missingColon (names : Names) : Option GoString :=
  if !names.haveTarget && !names.isEmpty then some "expected ':' in depfile" else none

/-! ### The machine -/

/-- The variables of `Parse`. -/
structure Machine where
  contentBytes : GoString
  cursor : Nat := 0
  outIdx : Nat := 0
  filenameIdx : Nat := 0
  haveNewline : Bool := false
  names : Names := {}
  deriving DecidableEq, Repr

inductive Outcome where
  | next (m : Machine)
  | done (names : Names) (err : Option GoString)
  | panic
  deriving DecidableEq, Repr

namespace Machine

variable (m : Machine)

/-- Write the text of a match that is `n` bytes long into the name. A write that changes nothing
is left out in the source, which is why it is asked whether the name fell behind. -/
def writeText (n : Nat) : Option Machine := do
  let start := m.cursor
  let buf ← if m.outIdx < start then memmov m.contentBytes m.outIdx start n else some m.contentBytes
  pure { m with contentBytes := buf, outIdx := m.outIdx + n }

def writeBackslashes (n : Nat) : Option Machine := do
  let buf ← if m.outIdx < m.cursor then memset m.contentBytes m.outIdx n 92 else some m.contentBytes
  pure { m with contentBytes := buf, outIdx := m.outIdx + n }

def writeOtherBackslashes (n : Nat) : Option Machine :=
  if n > 2 then m.writeBackslashes (n - 2) else some { m with outIdx := m.outIdx + (n - 2) }

def writeByte (c : UInt8) : Option Machine := do
  let buf ← store m.contentBytes m.outIdx c
  pure { m with contentBytes := buf, outIdx := m.outIdx + 1 }

/-- What is done for a match of `n` bytes, and whether it ends the name. -/
def act (n : Nat) : Pattern → Option (Machine × Bool)
  | .oddSpace => do
    let m ← m.writeBackslashes (n / 2 - 1)
    let m ← m.writeByte 32
    pure (m, false)
  | .evenSpace => do
    let m ← m.writeBackslashes (n - 1)
    pure (m, true)
  | .hash => do
    let m ← m.writeOtherBackslashes n
    let m ← m.writeByte 35
    pure (m, false)
  | .colonEnd => do
    let m ← m.writeText (n - 1)
    let last := peek (m.contentBytes.drop (m.cursor + n - 1))
    pure ({ m with haveNewline := m.haveNewline || last = 10 }, true)
  | .colon => do
    let m ← m.writeOtherBackslashes n
    let m ← m.writeByte 58
    pure (m, false)
  | .dollar => do
    let m ← m.writeByte 36
    pure (m, false)
  | .text => do
    let m ← m.writeText n
    pure (m, false)
  | .nul => some (m, true)
  | .continuation => some (m, true)
  | .newline => some ({ m with haveNewline := true }, true)
  | .other => some (m, true)

/-- The end of a name: it is taken out of the buffer, and the next one begins. -/
def endName : Outcome :=
  let length := m.outIdx - m.filenameIdx
  let isDependency := !m.names.parsingTargets
  match if 0 < length then slice m.contentBytes (m.filenameIdx + length - 1) 1 else some [] with
  | none => .panic
  | some last =>
    let colon := last = [58]
    let length := if colon then length - 1 else length
    let names := if colon then { m.names with parsingTargets := false, haveTarget := true }
      else m.names
    match slice m.contentBytes m.filenameIdx length with
    | none => .panic
    | some piece =>
      match names.addPiece isDependency piece with
      | (names, some err) => .done names (some err)
      | (names, none) =>
        let names := names.endLine m.haveNewline
        if m.cursor < m.contentBytes.length then
          .next { m with outIdx := m.cursor, filenameIdx := m.cursor, haveNewline := false,
                         names := names }
        else
          .done names names.missingColon

def step : Outcome :=
  let (pattern, n) := scan (m.contentBytes.drop m.cursor)
  match m.act n pattern with
  | none => .panic
  | some (m', false) => .next { m' with cursor := m.cursor + n }
  | some (m', true) => endName { m' with cursor := m.cursor + n }

def run : Nat → Machine → Outcome
  | 0, m => .next m
  | fuel + 1, m =>
    match m.step with
    | .next m' => run fuel m'
    | outcome => outcome

def Steps (m m' : Machine) : Prop := m.step = .next m'

end Machine

/-- `Parse`: every round but the last reads a byte. -/
def parse (content : GoString) : Outcome :=
  if content = [] then .done {} none
  else Machine.run (content.length + 1) { contentBytes := content }

end Reninja.Depfile
