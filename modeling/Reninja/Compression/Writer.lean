import Reninja.Graph.Basic
import Reninja.Library.Readers

/-!
# The compressing writer

`ZstdCompressingWriter` of `internal/compression`: what is written to it is compressed a buffer at
a time, and the frames go to an underlying writer.
-/

namespace Reninja.Compression

open Readers List

variable {p : GoString}

/-- The zstd functions that are used: frames one after the other stand for what they were made of,
one after the other. -/
structure Zstd where
  encode : GoString → GoString
  decode : GoString → Option GoString
  decode_frames : ∀ ps : List GoString, decode (ps.flatMap encode) = some ps.flatten

/-- A writer: how many bytes it accepts at its `n`-th call, and its error. -/
abbrev Sink := Nat → GoString → Nat × Option GoString

/-- `ZstdCompressingWriter`, with the part of its buffer that is in use, and what the underlying
writer was given at its calls and has accepted. -/
structure CompressingWriter where
  compressedBytesWritten : Nat := 0
  buffered : GoString := []
  err : Option GoString := none
  closed : Bool := false
  writes : List GoString := []
  accepted : GoString := []

namespace CompressingWriter

variable (z : Zstd) (sink : Sink) (bufSize : Nat) (c : CompressingWriter)

def writeCompressed (p : GoString) : CompressingWriter × Option GoString :=
  let compressBuffer := z.encode p
  let (n, err) := sink c.writes.length compressBuffer
  let c := { c with
    writes := c.writes ++ [compressBuffer]
    accepted := c.accepted ++ compressBuffer.take n
    compressedBytesWritten := c.compressedBytesWritten + n }
  let c :=
    if err = none ∧ n < compressBuffer.length then { c with err := some "short write" } else c
  -- the error of a short write is overwritten here
  let c := { c with err := err }
  (c, c.err)

def flush : CompressingWriter × Option GoString :=
  if c.closed then
    (c, some "ZstdCompressingWriter.Flush used after Close")
  else if c.err ≠ none then
    (c, c.err)
  else if c.buffered = [] then
    (c, none)
  else
    let (c, err) := c.writeCompressed z sink c.buffered
    ({ c with buffered := [] }, err)

def flushFull : CompressingWriter × Option GoString :=
  if c.buffered.length = bufSize then c.flush z sink else (c, none)

/-- Put some bytes into the buffer, if there are any. -/
def buffer (data : GoString) : CompressingWriter × Option GoString :=
  if data = [] then (c, none)
  else { c with buffered := c.buffered ++ data }.flushFull z sink bufSize

/-- The loop of `Write`, which returns what is left as well; each round takes a byte at least. -/
def writeLoop : Nat → CompressingWriter → GoString → Nat →
    CompressingWriter × GoString × Nat × Option GoString
  | 0, c, p, total => (c, p, total, none)
  | fuel + 1, c, p, total =>
    if p = [] then
      (c, p, total, none)
    else if c.buffered = [] ∧ bufSize ≤ p.length then
      let (c, err) := c.writeCompressed z sink (p.take bufSize)
      if err ≠ none then (c, p, total, err)
      else writeLoop fuel c (p.drop bufSize) (total + bufSize)
    else
      let n := min (bufSize - c.buffered.length) p.length
      let (c, err) := c.buffer z sink bufSize (p.take n)
      if err ≠ none then (c, p.drop n, total, err)
      else writeLoop fuel c (p.drop n) (total + n)

def write (p : GoString) : CompressingWriter × GoString × Nat × Option GoString :=
  if c.closed then
    (c, p, 0, some "ZstdCompressingWriter.Write used after Close")
  else if c.err ≠ none then
    (c, p, 0, c.err)
  else
    writeLoop z sink bufSize p.length c p 0

variable {ρ : Type} (read : Read ρ GoString)

/-- The loop of `ReadFrom`, which returns what was read. A reader gives no more than it is asked
for. -/
def readLoop : Nat → CompressingWriter → ρ → GoString →
    Option (CompressingWriter × GoString × Option GoString)
  | 0, _, _, _ => none
  | fuel + 1, c, s, total =>
    let got := read s (bufSize - c.buffered.length)
    let data := got.data.take (bufSize - c.buffered.length)
    let total := total ++ data
    let (c, err) := c.buffer z sink bufSize data
    if err ≠ none then
      some (c, total, err)
    else
      match got.status with
      | .ok => readLoop fuel c got.rest total
      | .eof => some ((c.flush z sink).1, total, (c.flush z sink).2)
      | .unexpectedEOF =>
        some ({ c with err := some "unexpected EOF" }, total, some "unexpected EOF")
      | .error e => some ({ c with err := some e }, total, some e)

def readFrom (fuel : Nat) (s : ρ) : Option (CompressingWriter × GoString × Option GoString) :=
  if c.closed then
    some (c, [], some "ZstdCompressingWriter.ReadFrom used after Close")
  else if c.err ≠ none then
    some (c, [], c.err)
  else
    readLoop z sink bufSize read fuel c s []

def close : CompressingWriter × Option GoString :=
  if c.closed then (c, none) else ({ (c.flush z sink).1 with closed := true }, (c.flush z sink).2)

end CompressingWriter

/-- A call of a method. A reader is given by its state, and by a bound on the number of its calls
that are followed. -/
inductive Call (ρ : Type) where
  | write (p : GoString)
  | readFrom (s : ρ) (fuel : Nat)
  | flush

section

variable (z : Zstd) (sink : Sink) (bufSize : Nat) {ρ : Type} (read : Read ρ GoString)

/-- The calls return no error, and write and read some content. -/
inductive Runs : CompressingWriter → List (Call ρ) → GoString → CompressingWriter → Prop
  | nil (c : CompressingWriter) : Runs c [] [] c
  | write {c c' c'' : CompressingWriter} {p rest : GoString} {total : Nat} {calls : List (Call ρ)}
      {content : GoString} (h : c.write z sink bufSize p = (c', rest, total, none))
      (hrest : Runs c' calls content c'') : Runs c (.write p :: calls) (p ++ content) c''
  | readFrom {c c' c'' : CompressingWriter} {s : ρ} {fuel : Nat} {data : GoString}
      {calls : List (Call ρ)} {content : GoString}
      (h : c.readFrom z sink bufSize read fuel s = some (c', data, none))
      (hrest : Runs c' calls content c'') : Runs c (.readFrom s fuel :: calls) (data ++ content) c''
  | flush {c c' c'' : CompressingWriter} {calls : List (Call ρ)} {content : GoString}
      (h : c.flush z sink = (c', none)) (hrest : Runs c' calls content c'') :
      Runs c (.flush :: calls) content c''

/-- Of these writes, the writer reports every one that is not complete. -/
def Sink.Reports (writes : List GoString) : Prop :=
  ∀ i p, writes[i]? = some p → (sink i p).2 = none → p.length ≤ (sink i p).1

end

/-! ### What is kept -/

def Sent (z : Zstd) (accepted content : GoString) : Prop :=
  ∃ ps : List GoString, accepted = ps.flatMap z.encode ∧ ps.flatten = content

/-- Some content has been written: its frames have been accepted, but for what is in the buffer and
if no write was short unnoticed. -/
structure Good (z : Zstd) (sink : Sink) (bufSize : Nat) (content : GoString)
    (c : CompressingWriter) : Prop where
  sent : sink.Reports c.writes → ∃ done, Sent z c.accepted done ∧ done ++ c.buffered = content
  err : c.err = none
  closed : c.closed = false
  buffered : c.buffered.length < bufSize

section

variable {z : Zstd} {sink : Sink} {bufSize : Nat} {c c' : CompressingWriter} {content : GoString}
variable {fuel : Nat}
variable {p rest : GoString} {data : GoString}

lemma Sent.frame {accepted : GoString} (h : Sent z accepted content) (p : GoString) :
    Sent z (accepted ++ z.encode p) (content ++ p) := by
  obtain ⟨ps, rfl, rfl⟩ := h
  exact ⟨ps ++ [p], by simp, by simp⟩

lemma Sink.reports_concat {writes : List GoString} (h : sink.Reports (writes ++ [p])) :
    sink.Reports writes ∧
      ((sink writes.length p).2 = none → p.length ≤ (sink writes.length p).1) := by
  refine ⟨fun i q hq => h i q ?_, h writes.length p (by simp)⟩
  obtain ⟨hi, -⟩ := List.getElem?_eq_some_iff.mp hq
  rwa [getElem?_append_left hi]

lemma writeCompressed_spec (h : c.writeCompressed z sink p = (c', none)) :
    (sink.Reports c'.writes → sink.Reports c.writes ∧ c'.accepted = c.accepted ++ z.encode p) ∧
      c'.err = none ∧ c'.closed = c.closed ∧ c'.buffered = c.buffered := by
  obtain ⟨rfl, herr⟩ := Prod.mk.inj h
  refine ⟨?_, herr, ?_, ?_⟩ <;> dsimp only <;> split
  all_goals try rfl
  all_goals
    intro hsink
    obtain ⟨hbefore, hlast⟩ := Sink.reports_concat hsink
    exact ⟨hbefore, by rw [take_of_length_le (hlast herr)]⟩

lemma flush_spec (h : c.flush z sink = (c', none)) (hsent : sink.Reports c.writes →
      ∃ done, Sent z c.accepted done ∧ done ++ c.buffered = content) :
    (sink.Reports c'.writes → Sent z c'.accepted content) ∧ c'.buffered = [] ∧ c'.err = none ∧
      c'.closed = false := by
  unfold CompressingWriter.flush at h
  by_cases hclosed : c.closed = true
  · rw [if_pos hclosed] at h
    cases h
  by_cases herr : c.err ≠ none
  · rw [if_neg hclosed, if_pos herr] at h
    exact absurd (Prod.mk.inj h).2 herr
  rw [if_neg hclosed, if_neg herr] at h
  by_cases hnil : c.buffered = []
  · rw [if_pos hnil] at h
    obtain rfl := (Prod.mk.inj h).1
    refine ⟨fun hsink => ?_, hnil, not_not.mp herr, by simpa using hclosed⟩
    obtain ⟨done, hdone, rfl⟩ := hsent hsink
    rwa [hnil, append_nil]
  · rw [if_neg hnil] at h
    rcases hwrite : c.writeCompressed z sink c.buffered with ⟨w, err⟩
    rw [hwrite] at h
    obtain ⟨rfl, rfl⟩ := Prod.mk.inj h
    obtain ⟨hreports, herr, hclosed', -⟩ := writeCompressed_spec hwrite
    refine ⟨fun hsink => ?_, rfl, herr, by simpa [hclosed'] using hclosed⟩
    obtain ⟨hbefore, haccepted⟩ := hreports hsink
    obtain ⟨done, hdone, rfl⟩ := hsent hbefore
    exact haccepted ▸ hdone.frame c.buffered

lemma Good.buffer (hsize : 0 < bufSize) (hgood : Good z sink bufSize content c)
    (hle : c.buffered.length + data.length ≤ bufSize)
    (h : c.buffer z sink bufSize data = (c', none)) : Good z sink bufSize (content ++ data) c' := by
  unfold CompressingWriter.buffer CompressingWriter.flushFull at h
  by_cases hdata : data = []
  · rw [if_pos hdata] at h
    obtain rfl := (Prod.mk.inj h).1
    rwa [hdata, append_nil]
  rw [if_neg hdata] at h
  have hsent (hsink : sink.Reports c.writes) : ∃ done, Sent z c.accepted done ∧
      done ++ (c.buffered ++ data) = content ++ data := by
    obtain ⟨done, hdone, hcontent⟩ := hgood.sent hsink
    exact ⟨done, hdone, by rw [← append_assoc, hcontent]⟩
  by_cases hfull : (c.buffered ++ data).length = bufSize
  · rw [if_pos hfull] at h
    obtain ⟨hdone, hnil, herr, hclosed⟩ := flush_spec h hsent
    exact ⟨fun hsink => ⟨_, hdone hsink, by rw [hnil, append_nil]⟩, herr, hclosed,
      by rwa [hnil]⟩
  · rw [if_neg hfull] at h
    obtain rfl := (Prod.mk.inj h).1
    rw [length_append] at hfull
    refine ⟨hsent, hgood.err, hgood.closed, ?_⟩
    change (c.buffered ++ data).length < bufSize
    rw [length_append]
    omega

lemma Good.writeLoop (hsize : 0 < bufSize) {total total' : Nat} (hfuel : p.length ≤ fuel)
    (hgood : Good z sink bufSize content c)
    (h : CompressingWriter.writeLoop z sink bufSize fuel c p total = (c', rest, total', none)) :
    Good z sink bufSize (content ++ p) c' := by
  induction fuel generalizing c p total content with
  | zero =>
    obtain rfl := length_eq_zero_iff.mp (Nat.le_zero.mp hfuel)
    obtain ⟨rfl, -⟩ := Prod.mk.inj h
    simpa using hgood
  | succ fuel ih =>
    unfold CompressingWriter.writeLoop at h
    by_cases hnil : p = []
    · rw [if_pos hnil] at h
      obtain ⟨rfl, -⟩ := Prod.mk.inj h
      simpa [hnil] using hgood
    have hpos := length_pos_iff.mpr hnil
    rw [if_neg hnil] at h
    have hlt := hgood.buffered
    by_cases hdirect : c.buffered = [] ∧ bufSize ≤ p.length
    · -- a chunk goes past the buffer
      rw [if_pos hdirect] at h
      rcases hwrite : c.writeCompressed z sink (p.take bufSize) with ⟨w, err⟩
      simp only [hwrite] at h
      by_cases herr : err ≠ none
      · rw [if_pos herr] at h
        simp only [Prod.mk.injEq] at h
        exact absurd h.2.2.2 herr
      rw [if_neg herr] at h
      obtain rfl := not_not.mp herr
      obtain ⟨hreports, herr', hclosed', hbuffered⟩ := writeCompressed_spec hwrite
      have hnext : Good z sink bufSize (content ++ p.take bufSize) w := by
        refine ⟨fun hsink => ?_, herr', hclosed'.trans hgood.closed, hbuffered ▸ hlt⟩
        obtain ⟨hbefore, haccepted⟩ := hreports hsink
        obtain ⟨done, hdone, hcontent⟩ := hgood.sent hbefore
        refine ⟨done ++ p.take bufSize, haccepted ▸ hdone.frame _, ?_⟩
        rw [hbuffered, hdirect.1, append_nil, ← hcontent, hdirect.1, append_nil]
      have := ih (by rw [length_drop]; omega) hnext h
      rwa [append_assoc, take_append_drop] at this
    · rw [if_neg hdirect] at h
      generalize hn : min (bufSize - c.buffered.length) p.length = n at h
      rcases hwrite : c.buffer z sink bufSize (p.take n) with ⟨w, err⟩
      simp only [hwrite] at h
      by_cases herr : err ≠ none
      · rw [if_pos herr] at h
        simp only [Prod.mk.injEq] at h
        exact absurd h.2.2.2 herr
      rw [if_neg herr] at h
      obtain rfl := not_not.mp herr
      have hnext := hgood.buffer hsize (by rw [length_take]; omega) hwrite
      have := ih (by rw [length_drop]; omega) hnext h
      rwa [append_assoc, take_append_drop] at this

lemma Good.write (hsize : 0 < bufSize) {total : Nat} (hgood : Good z sink bufSize content c)
    (h : c.write z sink bufSize p = (c', rest, total, none)) :
    Good z sink bufSize (content ++ p) c' := by
  rw [CompressingWriter.write, if_neg (by simp [hgood.closed]), if_neg (by simp [hgood.err])] at h
  exact hgood.writeLoop hsize (Nat.le_refl _) h

lemma Good.flush (hsize : 0 < bufSize) (hgood : Good z sink bufSize content c)
    (h : c.flush z sink = (c', none)) : Good z sink bufSize content c' := by
  obtain ⟨hdone, hnil, herr, hclosed⟩ := flush_spec h hgood.sent
  exact ⟨fun hsink => ⟨content, hdone hsink, by rw [hnil, append_nil]⟩, herr, hclosed,
    by rwa [hnil]⟩

variable {ρ : Type} {read : Read ρ GoString}

lemma Good.readLoop (hsize : 0 < bufSize) {s : ρ} {total total' : GoString}
    (hgood : Good z sink bufSize (content ++ total) c)
    (h : CompressingWriter.readLoop z sink bufSize read fuel c s total = some (c', total', none)) :
    Good z sink bufSize (content ++ total') c' := by
  induction fuel generalizing c s total with
  | zero => cases h
  | succ fuel ih =>
    unfold CompressingWriter.readLoop at h
    generalize hgot : read s (bufSize - c.buffered.length) = got at h
    generalize hdata : got.data.take (bufSize - c.buffered.length) = data at h
    have hlt := hgood.buffered
    have hle : data.length ≤ bufSize - c.buffered.length := by
      rw [← hdata]
      exact length_take_le _ _
    rcases hbuffer : c.buffer z sink bufSize data with ⟨w, err⟩
    simp only [hdata, hbuffer] at h
    by_cases herr : err ≠ none
    · rw [if_pos herr] at h
      simp only [Option.some.injEq, Prod.mk.injEq] at h
      exact absurd h.2.2 herr
    rw [if_neg herr] at h
    obtain rfl := not_not.mp herr
    have hnext := hgood.buffer hsize (by omega) hbuffer
    rw [append_assoc] at hnext
    cases hstatus : got.status with
    | ok =>
      rw [hstatus] at h
      exact ih hnext h
    | eof =>
      simp only [hstatus, Option.some.injEq, Prod.mk.injEq] at h
      obtain ⟨rfl, rfl, herr⟩ := h
      exact hnext.flush hsize (Prod.ext rfl herr)
    | unexpectedEOF => simp [hstatus] at h
    | error e => simp [hstatus] at h

lemma Good.readFrom (hsize : 0 < bufSize) {s : ρ} (hgood : Good z sink bufSize content c)
    (h : c.readFrom z sink bufSize read fuel s = some (c', data, none)) :
    Good z sink bufSize (content ++ data) c' := by
  rw [CompressingWriter.readFrom, if_neg (by simp [hgood.closed]),
    if_neg (by simp [hgood.err])] at h
  exact Good.readLoop hsize (by rwa [append_nil]) h

lemma Good.runs (hsize : 0 < bufSize) {calls : List (Call ρ)}
    {more : GoString} (hgood : Good z sink bufSize content c)
    (h : Runs z sink bufSize read c calls more c') : Good z sink bufSize (content ++ more) c' := by
  induction h generalizing content with
  | nil => rwa [append_nil]
  | write hcall _ ih => exact append_assoc _ _ _ ▸ ih (hgood.write hsize hcall)
  | readFrom hcall _ ih => exact append_assoc _ _ _ ▸ ih (hgood.readFrom hsize hcall)
  | flush hcall _ ih => exact ih (hgood.flush hsize hcall)

end

/-- When no call and not the close return an error, the frames that were accepted stand for what
was written and read, if the underlying writer has reported every write that was not complete. -/
theorem close_sent {z : Zstd} {sink : Sink} {bufSize : Nat} (hsize : 0 < bufSize) {ρ : Type}
    {read : Read ρ GoString} {calls : List (Call ρ)} {content : GoString}
    {c c' : CompressingWriter} (h : Runs z sink bufSize read {} calls content c)
    (hclose : c.close z sink = (c', none)) (hsink : sink.Reports c'.writes) :
    z.decode c'.accepted = some content := by
  have hinit : Good z sink bufSize [] {} := ⟨fun _ => ⟨[], ⟨[], rfl, rfl⟩, rfl⟩, rfl, rfl, hsize⟩
  have hgood := hinit.runs hsize h
  rw [CompressingWriter.close, if_neg (by simp [hgood.closed])] at hclose
  obtain ⟨rfl, herr⟩ := Prod.mk.inj hclose
  obtain ⟨hsent, -⟩ := flush_spec (Prod.ext rfl herr) hgood.sent
  obtain ⟨ps, haccepted, hcontent⟩ := hsent hsink
  change z.decode (c.flush z sink).1.accepted = _
  rw [haccepted, z.decode_frames, hcontent, nil_append]

def stored : Zstd := ⟨id, some, fun ps => by simp [flatMap_id]⟩

/-- A writer that accepts everything, and one that accepts nothing and returns no error. -/
def fullSink : Sink := fun _ p => (p.length, none)

def emptySink : Sink := fun _ _ => (0, none)

def noBytes : Read Unit GoString := fun _ _ => ⟨[], .eof, ()⟩

theorem close_sent_fullSink : ∃ c c', Runs stored fullSink 2 noBytes {} [.write [1, 2, 3]]
      ([1, 2, 3] ++ []) c ∧ c.close stored fullSink = (c', none) ∧ c'.writes = [[1, 2], [3]] ∧
    stored.decode c'.accepted = some ([1, 2, 3] ++ []) :=
  have hruns := .write rfl (.nil _)
  ⟨_, _, hruns, rfl, rfl, close_sent (by decide) hruns rfl fun _ _ _ _ => Nat.le_refl _⟩

/-- A short write that the underlying writer does not report is not reported at all. -/
theorem short_write_lost :
    ∃ c c', Runs stored emptySink 1 noBytes {} [.write [1]] [1] c ∧
      c.close stored emptySink = (c', none) ∧ stored.decode c'.accepted ≠ some [1] :=
  ⟨_, _, .write rfl (.nil _), rfl, by decide⟩

end Reninja.Compression
