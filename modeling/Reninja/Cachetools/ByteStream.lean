import Reninja.Compression.Writer
import Reninja.Digest.ResourceName

/-!
# Byte-stream uploads

`uploadFromReader` of `internal/cachetools` sends a blob in requests of the size of a buffer. When
the blob is compressed, the buffer is filled from `compressingReader` of `internal/compression`.
-/

namespace Reninja.ByteStream

open Readers Compression Digests List

structure CompressingReader (ρ : Type) where
  inputReader : ρ
  leftover : GoString := []
  readErr : Status GoString := .ok

section

variable {ρ : Type} (z : Zstd) (read : Read ρ GoString) (readBuf : Nat)

/-- Read and compress a chunk when nothing is left of the last one. -/
def CompressingReader.refill (r : CompressingReader ρ) : CompressingReader ρ :=
  if r.leftover = [] ∧ r.readErr = .ok then
    let got := read r.inputReader readBuf
    { inputReader := got.rest
      leftover := if got.data ≠ [] then z.encode got.data else []
      readErr := got.status }
  else r

/-- Give what is left, and the status of the input behind it. -/
def CompressingReader.emit (r : CompressingReader ρ) (k : Nat) :
    Got (CompressingReader ρ) GoString :=
  { data := r.leftover.take k
    status := if r.leftover.drop k ≠ [] then .ok else r.readErr
    rest := { r with leftover := r.leftover.drop k } }

def compressingRead : Read (CompressingReader ρ) GoString :=
  fun r k => (r.refill z read readBuf).emit k

end

structure WriteRequest where
  data : GoString
  resourceName : GoString
  writeOffset : Nat
  finishWrite : Bool

inductive SendError where
  | eof
  | other (e : GoString)

section

variable {ρ : Type} (read : Read ρ GoString)

def readTryFillBuffer (fuel : Nat) (s : ρ) (bufSize : Nat) : Option (Got ρ GoString) :=
  (readFull read fuel s bufSize).map fun g =>
    if g.status = .unexpectedEOF then { g with status := .ok } else g

/-- The loop of `uploadFromReader`: the requests, the number of bytes and the error, if there is
one. `send` tells how the sends end. -/
def uploadLoop (send : Nat → Option SendError) (bufSize : Nat) :
    Nat → ρ → GoString → List WriteRequest → Nat →
      Option (List WriteRequest × Nat × Option GoString)
  | 0, _, _, _, _ => none
  | fuel + 1, s, resourceName, sent, bytesUploaded =>
    (readTryFillBuffer read fuel s bufSize).bind fun got =>
      match got.status with
      | .error e => some (sent, bytesUploaded, some e)
      | .unexpectedEOF => some (sent, bytesUploaded, some "unexpected EOF")
      | status =>
        let readDone : Bool := status = .eof
        let req := { data := got.data, resourceName, writeOffset := bytesUploaded,
                     finishWrite := readDone }
        match send sent.length with
        | some .eof => some (sent ++ [req], bytesUploaded, none)
        | some (.other e) => some (sent ++ [req], bytesUploaded, some e)
        | none =>
          if readDone then some (sent ++ [req], bytesUploaded + req.data.length, none)
          else uploadLoop send bufSize fuel got.rest [] (sent ++ [req])
            (bytesUploaded + req.data.length)

end

/-- The requests that were sent, and the number of bytes or the error that is returned. -/
structure Uploaded where
  requests : List WriteRequest
  result : Except GoString Nat

def uploadResult (r : ResourceName) (response : Except GoString Int64) (bytesUploaded : Nat) :
    Option GoString → Except GoString Nat
  | some e => .error e
  | none => do
    let remoteSize ← response
    let err : GoString := "Remote size (" ++ BuildLog.formatInt remoteSize ++
      ") != uploaded size: (" ++ BuildLog.formatInt r.getDigest.sizeBytes ++
      ")"
    if r.compressor = .identity then
      if remoteSize ≠ r.getDigest.sizeBytes then throw err
    else if remoteSize.toInt ≠ bytesUploaded ∧ remoteSize ≠ -1 then
      throw err
    return bytesUploaded

/-- `uploadFromReader`, for a client that is configured and opens a stream. -/
def uploadFromReader {ρ : Type} (z : Zstd) (send : Nat → Option SendError)
    (response : Except GoString Int64) (bufSize : Nat) (r : ResourceName) (u : UUID)
    (read : Read ρ GoString) (s : ρ) (fuel : Nat) : Option Uploaded :=
  if r.isEmpty then
    some ⟨[], .ok 0⟩
  else
    let sent :=
      if r.compressor = .zstd then
        uploadLoop (compressingRead z read bufSize) send bufSize fuel { inputReader := s }
          (r.newUploadString u) [] 0
      else
        uploadLoop read send bufSize fuel s (r.newUploadString u) [] 0
    sent.map fun (requests, bytesUploaded, err) =>
      ⟨requests, uploadResult r response bytesUploaded err⟩

section

variable {ρ : Type} {z : Zstd} {read : Read ρ GoString} {readBuf : Nat}
variable {content : GoString} {s : ρ}

/-- A reader that gives what is left of a chunk, and then goes on as it does without it. -/
lemma yields_of_emit {r : CompressingReader ρ} {s : ρ} {rest content : GoString}
    {status : Status GoString} (hstatus : status = .ok ∨ status = .eof ∧ content = [])
    (hread : ∀ k, compressingRead z read readBuf r k = CompressingReader.emit ⟨s, rest, status⟩ k)
    (hnext : ∀ k, 0 < k →
      Yields (compressingRead z read readBuf) ⟨s, rest.drop k, status⟩ (rest.drop k ++ content)) :
    Yields (compressingRead z read readBuf) r (rest ++ content) := by
  refine .more (fun k _ => ?_) fun k hk => ?_
  · rw [hread]
    refine ⟨length_take_le _ _, (List.take_prefix k rest).trans (prefix_append _ _), ?_⟩
    simp only [CompressingReader.emit]
    split
    · exact .inl rfl
    next hdrop =>
      refine hstatus.imp_right fun ⟨heof, hnil⟩ => ⟨heof, ?_⟩
      rw [hnil, append_nil, take_of_length_le (drop_eq_nil_iff.mp (not_not.mp hdrop))]
  · rw [hread]
    have hdrop : (rest ++ content).drop (rest.take k).length = rest.drop k ++ content := by
      rw [drop_append, length_take, Nat.sub_eq_zero_of_le (Nat.min_le_right _ _)]
      rcases Nat.le_total k rest.length with hle | hle
      · rw [Nat.min_eq_left hle, drop_zero]
      · rw [Nat.min_eq_right hle, drop_length, drop_eq_nil_of_le hle, drop_zero]
    exact hdrop ▸ hnext k hk

lemma yields_leftover {status : Status GoString}
    (hstatus : status = .ok ∨ status = .eof ∧ content = [])
    (h : Yields (compressingRead z read readBuf) ⟨s, [], status⟩ content) (rest : GoString) :
    Yields (compressingRead z read readBuf) ⟨s, rest, status⟩ (rest ++ content) := by
  induction hn : rest.length using Nat.strong_induction_on generalizing rest with
  | _ n ih =>
    by_cases hrest : rest = []
    · rwa [hrest]
    refine yields_of_emit (s := s) hstatus (fun k => ?_) fun k hk => ?_
    · rw [compressingRead, CompressingReader.refill, if_neg (by simp [hrest])]
    · have hpos := length_pos_iff.mpr hrest
      exact ih _ (by rw [length_drop]; omega) _ rfl

lemma yields_ended (s : ρ) :
    Yields (compressingRead z read readBuf) ⟨s, [], .eof⟩ [] :=
  .ended fun k _ => by simp [compressingRead, CompressingReader.refill, CompressingReader.emit]

lemma sent_chunk {frames content : GoString} (h : Sent z frames content) (data : GoString) :
    Sent z ((if data ≠ [] then z.encode data else []) ++ frames) (data ++ content) := by
  obtain ⟨ps, rfl, rfl⟩ := h
  by_cases hdata : data = []
  · exact ⟨ps, by simp [hdata], by simp [hdata]⟩
  · exact ⟨data :: ps, by simp [hdata], by simp⟩

lemma yields_chunk {s : ρ} {content : GoString}
    (hstatus : (read s readBuf).status = .ok ∨ (read s readBuf).status = .eof ∧ content = [])
    (h : Yields (compressingRead z read readBuf)
      ⟨(read s readBuf).rest, [], (read s readBuf).status⟩ content) :
    Yields (compressingRead z read readBuf) { inputReader := s }
      ((if (read s readBuf).data ≠ [] then z.encode (read s readBuf).data else []) ++ content) := by
  refine yields_of_emit hstatus (fun k => ?_) fun k _ => yields_leftover hstatus h _
  rw [compressingRead, CompressingReader.refill, if_pos ⟨rfl, rfl⟩]

lemma yields_frames (hsize : 0 < readBuf) (h : Yields read s content) :
    ∃ frames, Sent z frames content ∧
      Yields (compressingRead z read readBuf) { inputReader := s } frames := by
  induction h with
  | @ended s h =>
    have hchunk := @yields_chunk ρ z read readBuf s []
    rw [h readBuf hsize] at hchunk
    exact ⟨[], ⟨[], rfl, rfl⟩, hchunk (.inr ⟨rfl, rfl⟩) (yields_ended s)⟩
  | @more s content hread hnext ih =>
    obtain ⟨-, ⟨tail, htail⟩, hstatus⟩ := hread readBuf hsize
    rcases hstatus with hok | ⟨heof, hdata⟩
    · obtain ⟨frames, hsent, hyields⟩ := ih readBuf hsize
      rw [← htail, drop_left] at hsent
      exact ⟨_, htail ▸ sent_chunk hsent _, yields_chunk (.inl hok) (hok ▸ hyields)⟩
    · refine ⟨_, ?_, yields_chunk (.inr ⟨heof, rfl⟩) (heof ▸ yields_ended _)⟩
      have hsent := @sent_chunk z [] [] ⟨[], rfl, rfl⟩ (read s readBuf).data
      rw [append_nil (read s readBuf).data] at hsent
      rwa [← hdata]

end

/-! ### What is sent -/

/-- Requests from an offset on, for some content: the first has the name, each has its offset, and
the last one is empty and finishes the write. -/
inductive Requests : GoString → Nat → GoString → List WriteRequest → Prop
  | last (name : GoString) (offset : Nat) : Requests name offset [] [⟨[], name, offset, true⟩]
  | more {name data content : GoString} {offset : Nat} {requests : List WriteRequest}
      (h : Requests [] (offset + data.length) content requests) :
      Requests name offset (data ++ content) (⟨data, name, offset, false⟩ :: requests)

section

variable {ρ : Type} {read : Read ρ GoString} {bufSize : Nat}

lemma readTryFillBuffer_yields {s : ρ} {content : GoString} (h : Yields read s content)
    (hsize : 0 < bufSize) :
    ∃ g n, (∀ fuel, n ≤ fuel → readTryFillBuffer read fuel s bufSize = some g) ∧
      Yields read g.rest (content.drop bufSize) ∧ g.data = content.take bufSize ∧
      g.status = if content = [] then .eof else .ok := by
  obtain ⟨g, n, hg, hrest, hdata, hstatus⟩ := h.readFull bufSize
  refine ⟨_, n, fun fuel hfuel => by rw [readTryFillBuffer, hg fuel hfuel, Option.map_some], ?_⟩
  by_cases hnil : content = []
  · rw [if_neg (by simp [hnil]; omega), if_pos hnil] at hstatus
    rw [if_neg (by simp [hstatus]), if_pos hnil]
    exact ⟨hrest, hdata, hstatus⟩
  · rw [if_neg hnil] at hstatus
    rw [if_neg hnil]
    split
    · exact ⟨hrest, hdata, rfl⟩
    next hne =>
      refine ⟨hrest, hdata, ?_⟩
      split at hstatus
      · exact hstatus
      · exact absurd hstatus hne

lemma uploadLoop_requests {s : ρ} {content : GoString} (h : Yields read s content)
    (hsize : 0 < bufSize) (name : GoString) (sent : List WriteRequest) (offset : Nat) :
    ∃ n requests, Requests name offset content requests ∧ ∀ fuel, n ≤ fuel →
      uploadLoop read (fun _ => none) bufSize fuel s name sent offset =
        some (sent ++ requests, offset + content.length, none) := by
  induction hn : content.length using Nat.strong_induction_on
    generalizing s content name sent offset with
  | _ m ih =>
    obtain ⟨g, n, hg, hrest, hdata, hstatus⟩ := readTryFillBuffer_yields h hsize
    by_cases hnil : content = []
    · rw [if_pos hnil] at hstatus
      subst hnil
      refine ⟨n + 1, _, .last name offset, fun fuel hfuel => ?_⟩
      obtain ⟨fuel, rfl⟩ := Nat.exists_eq_add_of_le' (Nat.le_trans (Nat.le_add_left 1 n) hfuel)
      rw [uploadLoop, hg fuel (by omega), Option.bind_some]
      simp_all
    · rw [if_neg hnil] at hstatus
      have hpos := length_pos_iff.mpr hnil
      obtain ⟨n', requests, hrequests, hloop⟩ := ih (content.drop bufSize).length
        (by rw [length_drop]; omega) hrest [] (sent ++ [⟨g.data, name, offset, false⟩])
        (offset + g.data.length) rfl
      have hcontent : g.data ++ content.drop bufSize = content := by
        rw [hdata, take_append_drop]
      refine ⟨max n n' + 1, ⟨g.data, name, offset, false⟩ :: requests,
        hcontent ▸ .more hrequests, fun fuel hfuel => ?_⟩
      obtain ⟨fuel, rfl⟩ := Nat.exists_eq_add_of_le' (Nat.le_trans (Nat.le_add_left 1 _) hfuel)
      have hlength := congrArg length hcontent
      rw [length_append] at hlength
      rw [uploadLoop, hg fuel (by omega), Option.bind_some]
      simp only [hstatus, reduceCtorEq, decide_false, Bool.false_eq_true, if_false]
      rw [hloop fuel (by omega), append_assoc, singleton_append, Nat.add_assoc, hlength, hn]

end

/-- The requests of an upload: each starts where those before it end, the first one has the name
and the last one finishes the write. -/
structure WellFormed (name : GoString) (requests : List WriteRequest) : Prop where
  ne_nil : requests ≠ []
  each : ∀ before q after, requests = before ++ q :: after →
    q.writeOffset = (before.flatMap WriteRequest.data).length ∧
      q.resourceName = (if before = [] then name else []) ∧ (q.finishWrite = true ↔ after = [])

namespace Requests

variable {name content : GoString} {offset : Nat} {requests : List WriteRequest}

lemma ne_nil (h : Requests name offset content requests) : requests ≠ [] := by
  cases h <;> simp

lemma flatMap_data (h : Requests name offset content requests) :
    requests.flatMap WriteRequest.data = content := by
  induction h with
  | last => rfl
  | more _ ih => rw [flatMap_cons, ih]

lemma each (h : Requests name offset content requests) {before after : List WriteRequest}
    {q : WriteRequest} (heq : requests = before ++ q :: after) :
    q.writeOffset = offset + (before.flatMap WriteRequest.data).length ∧
      q.resourceName = (if before = [] then name else []) ∧
        (q.finishWrite = true ↔ after = []) := by
  induction h generalizing before with
  | last name offset =>
    cases before with
    | nil =>
      obtain ⟨rfl, rfl⟩ := cons.inj heq
      simp
    | cons => simp at heq
  | more hrest ih =>
    cases before with
    | nil =>
      obtain ⟨rfl, rfl⟩ := cons.inj heq
      simp [hrest.ne_nil]
    | cons p before =>
      obtain ⟨rfl, htail⟩ := cons.inj heq
      obtain ⟨hoffset, hname, hfinish⟩ := ih htail
      simp only [ite_self] at hname
      refine ⟨?_, by simpa using hname, hfinish⟩
      rw [hoffset, flatMap_cons, length_append, Nat.add_assoc]

end Requests

/-- An upload without a failed send ends, and sends well-formed requests with the content of the
blob, or with frames of it. -/
theorem uploadFromReader_sends {ρ : Type} {read : Read ρ GoString} {s : ρ} {content : GoString}
    (h : Yields read s content) {bufSize : Nat} (hsize : 0 < bufSize) {r : ResourceName}
    (hempty : r.isEmpty = false) (z : Zstd) (response : Except GoString Int64) (u : UUID) :
    ∃ n, ∀ fuel, n ≤ fuel → ∃ out,
      uploadFromReader z (fun _ => none) response bufSize r u read s fuel = some out ∧
        WellFormed (r.newUploadString u) out.requests ∧
        if r.compressor = .zstd then
          Sent z (out.requests.flatMap WriteRequest.data) content ∧
            z.decode (out.requests.flatMap WriteRequest.data) = some content
        else out.requests.flatMap WriteRequest.data = content := by
  have hwell : ∀ {data : GoString} {requests : List WriteRequest},
      Requests (r.newUploadString u) 0 data requests → WellFormed (r.newUploadString u) requests :=
    fun hrequests => ⟨hrequests.ne_nil, fun _ _ _ heq => by simpa using hrequests.each heq⟩
  by_cases hzstd : r.compressor = .zstd
  · obtain ⟨frames, ⟨ps, hps, hcontent⟩, hframes⟩ := yields_frames (z := z) hsize h
    obtain ⟨n, requests, hrequests, hloop⟩ :=
      uploadLoop_requests hframes hsize (r.newUploadString u) [] 0
    refine ⟨n, fun fuel hfuel => ⟨⟨requests, uploadResult r response (0 + frames.length) none⟩, ?_,
      hwell hrequests, ?_⟩⟩
    · simp only [uploadFromReader, hempty, Bool.false_eq_true, if_false, if_pos hzstd,
        hloop fuel hfuel, Option.map_some, nil_append]
    · rw [if_pos hzstd, hrequests.flatMap_data, hps, z.decode_frames, hcontent]
      exact ⟨⟨ps, rfl, hcontent⟩, rfl⟩
  · obtain ⟨n, requests, hrequests, hloop⟩ :=
      uploadLoop_requests h hsize (r.newUploadString u) [] 0
    refine ⟨n, fun fuel hfuel => ⟨⟨requests, uploadResult r response (0 + content.length) none⟩, ?_,
      hwell hrequests, ?_⟩⟩
    · simp only [uploadFromReader, hempty, Bool.false_eq_true, if_false, if_neg hzstd,
        hloop fuel hfuel, Option.map_some, nil_append]
    · rw [if_neg hzstd]
      exact hrequests.flatMap_data

/-- A reader of single bytes, which gives none every other time. -/
def byteReader : Read (GoString × Bool) GoString
  | ([], turn), _ => ⟨[], .eof, ([], turn)⟩
  | (c :: rest, false), _ => ⟨[], .ok, (c :: rest, true)⟩
  | (c :: rest, true), _ => ⟨[c], .ok, (rest, false)⟩

lemma byteReader_yields (content : GoString) (turn : Bool) :
    Yields byteReader (content, turn) content := by
  induction content generalizing turn with
  | nil => exact .ended fun _ _ => rfl
  | cons c rest ih =>
    have hgives : Yields byteReader (c :: rest, true) (c :: rest) :=
      .more (fun k hk => ⟨hk, by simp [byteReader], .inl rfl⟩) fun _ _ => ih false
    cases turn with
    | true => exact hgives
    | false =>
      refine .more (fun k _ => ⟨?_, ?_, .inl rfl⟩) fun _ _ => hgives
      · simp [byteReader]
      · simp [byteReader]

theorem uploadFromReader_sends_byteReader :
    Yields byteReader ([1, 2, 3], false) [1, 2, 3] ∧ sampleName.isEmpty = false ∧
      ∃ n, ∀ fuel, n ≤ fuel → ∃ out, uploadFromReader stored (fun _ => none) (.ok (-1)) 2 sampleName
        (fun _ => 0) byteReader ([1, 2, 3], false) fuel = some out ∧
          stored.decode (out.requests.flatMap WriteRequest.data) = some [1, 2, 3] := by
  have hempty : sampleName.isEmpty = false := by decide +kernel
  refine ⟨byteReader_yields _ _, hempty, ?_⟩
  obtain ⟨n, hn⟩ := uploadFromReader_sends (byteReader_yields [1, 2, 3] false)
    (show 0 < 2 by decide) hempty stored (.ok (-1)) fun _ => 0
  refine ⟨n, fun fuel hfuel => ?_⟩
  obtain ⟨out, hout, -, hdata⟩ := hn fuel hfuel
  rw [if_pos (show sampleName.compressor = .zstd from rfl)] at hdata
  exact ⟨out, hout, hdata.2⟩

end Reninja.ByteStream
