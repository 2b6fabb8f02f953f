import Reninja.Cachetools.Retry
import Reninja.Graph.Basic

/-!
# Downloads

`GetBlob` of `internal/cachetools`: a blob is read from a stream, checked against its digest and
written to the output, which is rewound for every attempt.
-/

namespace Reninja.Cachetools

inductive DigestFunction where
  | unknown | sha256 | sha1 | md5 | vso | sha384 | sha512 | murmur3 | sha256Tree | blake3
  deriving DecidableEq, Repr

inductive Compressor where
  | identity | zstd | deflate | brotli
  deriving DecidableEq, Repr

structure Digest where
  hash : GoString
  sizeBytes : Int
  deriving DecidableEq, Repr

/-- What `GetBlob` reads of a CAS resource name. -/
structure CASResourceName where
  digest : Digest
  digestFunction : DigestFunction
  compressor : Compressor := .identity
  deriving DecidableEq, Repr

def emptyHash : DigestFunction → Option GoString
  | .sha1   => some "da39a3ee5e6b4b0d3255bfef95601890afd80709"
  | .md5    => some "d41d8cd98f00b204e9800998ecf8427e"
  | .sha256 => some "e3b0c44298fc1c149afbf4c8996fb92427ae41e4649b934ca495991b7852b855"
  | .sha384 =>
    some "38b060a751ac96384cd9327eb1b1e36a21fdb71114be07434c0cc7bf63f6e1da274edebfe76f65fbd51ad2f14898b95b"
  | .sha512 =>
    some "cf83e1357eefb8bdf1542850d66d8007d620e4050b5715dc83f4a921d36ce9ce47d0d13c5d85f2b0ff8318d2877eec2f63b931bd47417a81a538327af927da3e"
  | .blake3 => some "af1349b9f5f9a1a6a0404dea36dcc9499bcb25c9adc112b7cc9a93cae41f3262"
  | _ => none

def isEmptyHash (d : Digest) (fn : DigestFunction) : Bool := emptyHash fn = some d.hash

def hashForDigestType : DigestFunction → Option DigestFunction
  | .sha1 => some .sha1
  | .sha256 => some .sha256
  | .sha384 => some .sha384
  | .sha512 => some .sha512
  | .blake3 => some .blake3
  | .unknown => some .sha256
  | _ => none

/-- The hash functions, which give a hash in hexadecimal digits: each is injective, and the
empty hashes are hashes of the empty blob. -/
structure Hashes where
  sum : DigestFunction → GoString → GoString
  sum_injective : ∀ fn, Function.Injective (sum fn)
  sum_nil : ∀ fn hash, emptyHash fn = some hash → sum fn [] = hash

/-- The hash of a blob under a digest function; SHA256 is the default. -/
def Hashes.of (hashes : Hashes) (fn : DigestFunction) (data : GoString) : GoString :=
  hashes.sum ((hashForDigestType fn).getD fn) data

/-- The status codes that are told apart. -/
inductive Code where
  | ok | invalidArgument | notFound | failedPrecondition | unimplemented | dataLoss | unknown
  | other
  deriving DecidableEq, Repr

inductive Error where
  | notConfigured
  | missingDigest (d : Digest)
  | unsupported (fn : DigestFunction)
  | mismatch (computed expected : GoString)
  | noSpace
  | contextDone
  | missingByteStreamClient
  | missingCASClient
  | concurrentMutation (original computed : Digest)
  | uploading (d : Digest) (code : Code)
  /-- An error of a stream, of the decoder or of a file. -/
  | status (code : Code)
  deriving DecidableEq, Repr

def Error.code : Error → Code
  | .notConfigured => .failedPrecondition
  | .missingDigest _ => .failedPrecondition
  | .unsupported _ => .unimplemented
  | .mismatch _ _ => .dataLoss
  | .noSpace => .unknown
  | .contextDone => .unknown
  | .missingByteStreamClient | .missingCASClient => .invalidArgument
  | .concurrentMutation _ _ => .dataLoss
  | .uploading _ code => code
  | .status code => code

/-- A file that is open for writing: the bytes before its offset and those after it. -/
structure Output where
  before : GoString := []
  after : GoString := []
  deriving DecidableEq, Repr

namespace Output

def content (o : Output) : GoString := o.before ++ o.after

def seekStart (o : Output) : Output := ⟨[], o.content⟩

def write (o : Output) (p : GoString) : Output := ⟨o.before ++ p, o.after.drop p.length⟩

end Output

/-- The `MultiWriter` of an attempt: the bytes hashed so far, the output, and how many bytes the
output still takes if it is going to fail. -/
structure Sink where
  checksum : GoString := []
  out : Output
  room : Option Nat
  deriving DecidableEq, Repr

def Sink.write (s : Sink) (p : GoString) : Option Error × Sink :=
  match s.room with
  | none => (none, { s with checksum := s.checksum ++ p, out := s.out.write p })
  | some n =>
    (if n < p.length then some .noSpace else none,
      { checksum := s.checksum ++ p, out := s.out.write (p.take n), room := some (n - p.length) })

/-! ### An attempt -/

/-- What the decoder goroutine does in an attempt: the bytes it writes until the end of its input
or its error, the first chunk that it does not take any more, and its error. -/
structure Decoder where
  output : GoString
  refuses : Option Nat := none
  err : Option Error := none
  deriving DecidableEq, Repr

/-- What a read stream gives: some chunks, and then `io.EOF` or an error. -/
structure Stream where
  chunks : List GoString
  err : Option Error := none
  deriving DecidableEq, Repr

/-- What one attempt meets. -/
structure Attempt where
  seek : Option Error := none
  read : Except Error Stream
  decoder : Except Error Decoder := .ok ⟨[], none, none⟩
  room : Option Nat := none

/-- The writer that chunks go to: the sink itself or a decompressor in front of it. -/
inductive Writer where
  | plain
  | zstd (decoder : Decoder)

namespace Writer

def write (k : Nat) (chunk : GoString) (s : Sink) : Writer → Option Error × Sink
  | .plain => s.write chunk
  | .zstd decoder => (if decoder.refuses = some k then some (.status .unknown) else none, s)

/-- Close the writer; the decoder has written all its output when `Close` returns. -/
def close (s : Sink) : Writer → Option Error × Sink
  | .plain => (none, s)
  | .zstd decoder =>
    match s.write decoder.output with
    | (some e, s') => (some e, s')
    | (none, s') => (decoder.err, s')

end Writer

def receiveLoop (w : Writer) (err : Option Error) : Nat → List GoString → Sink → Option Error × Sink
  | _, [], s =>
    match err with
    | none => w.close s
    | some e => (some e, (w.close s).2)
  | k, chunk :: chunks, s =>
    match w.write k chunk s with
    | (some e, s') => (some e, (w.close s').2)
    | (none, s') => receiveLoop w err (k + 1) chunks s'

structure Config where
  /-- The byte stream client is set. -/
  bsClient : Bool := true
  enableCompression : Bool := true
  remoteRetries : Int := 4
  minSizeBytesToCompress : Int := 100

def newWriter (r : CASResourceName) (a : Attempt) : Except Error Writer :=
  if r.compressor = .zstd then a.decoder.map .zstd else .ok .plain

def getBlob (hashes : Hashes) (cfg : Config) (r : CASResourceName) (a : Attempt) (out : Output) :
    Option Error × Output :=
  if !cfg.bsClient then (some .notConfigured, out)
  else if isEmptyHash r.digest r.digestFunction then (none, out)
  else
    match a.read with
    | .error e => (some (if e.code = .notFound then .missingDigest r.digest else e), out)
    | .ok stream =>
      match hashForDigestType r.digestFunction with
      | none => (some (.unsupported r.digestFunction), out)
      | some fn =>
        match newWriter r a with
        | .error e => (some e, out)
        | .ok w =>
          match receiveLoop w stream.err 0 stream.chunks { out, room := a.room } with
          | (some e, s) => (some e, s.out)
          | (none, s) =>
            let computed := hashes.sum fn s.checksum
            if computed ≠ r.digest.hash then (some (.mismatch computed r.digest.hash), s.out)
            else (none, s.out)

def maybeSetCompressor (cfg : Config) (r : CASResourceName) : CASResourceName :=
  if cfg.enableCompression ∧ cfg.minSizeBytesToCompress ≤ r.digest.sizeBytes then
    { r with compressor := .zstd }
  else r

def rewindAndGet (hashes : Hashes) (cfg : Config) (r : CASResourceName) (a : Attempt) :
    EStateM (AttemptError Error) Output Unit := fun out =>
  match a.seek with
  | some e => .error (.nonRetryable e) out
  | none =>
    match getBlob hashes cfg r a out.seekStart with
    | (none, out') => .ok () out'
    | (some e, out') => .error (if e.code = .notFound then .nonRetryable e else .retryable e) out'

def GetBlob (hashes : Hashes) (cfg : Config) (r : CASResourceName) (waits : List (Option Attempt))
    (out : Output) : Option (Except Error Unit × Output) :=
  retryDo ⟨cfg.remoteRetries, 100, 5000, 2⟩ .contextDone
    (rewindAndGet hashes cfg (maybeSetCompressor cfg r)) waits out

/-! ### What an attempt leaves in the output -/

/-- The bytes of `data` that an output takes. -/
def cut (room : Option Nat) (data : GoString) : GoString :=
  match room with
  | none => data
  | some n => data.take n

def Writer.data (chunks : List GoString) : Writer → GoString
  | .plain => chunks.flatten
  | .zstd decoder => decoder.output

/-- The bytes that an attempt writes to the output. -/
def Attempt.written (r : CASResourceName) (a : Attempt) : GoString :=
  match a.read, newWriter r a with
  | .ok stream, .ok w => cut a.room (w.data stream.chunks)
  | _, _ => []

namespace Output

@[simp] lemma write_nil (o : Output) : o.write [] = o := by simp [write]

lemma write_write (o : Output) (p q : GoString) : (o.write p).write q = o.write (p ++ q) := by
  simp [write]

lemma content_rewrite (o : Output) (p : GoString) :
    (o.seekStart.write p).content = p ++ o.content.drop p.length := by
  simp [write, seekStart, content]

end Output

/-- Between `s` and `s'` the `data` was written, as far as the output took it; without an error
it took all of it. -/
structure Wrote (s : Sink) (data : GoString) (err : Option Error) (s' : Sink) : Prop where
  out : s'.out = s.out.write (cut s.room data)
  checksum : err = none → s'.checksum = s.checksum ++ data
  fits : err = none → cut s.room data = data

lemma Sink.write_wrote (s : Sink) (p : GoString) :
    Wrote s p (s.write p).1 (s.write p).2 ∧
      ((s.write p).1 = none → ∀ q, cut s.room (p ++ q) = p ++ cut (s.write p).2.room q) ∧
      ((s.write p).1 ≠ none → ∀ q, cut s.room (p ++ q) = cut s.room p) := by
  obtain ⟨checksum, out, room⟩ := s
  cases room with
  | none => exact ⟨⟨rfl, fun _ => rfl, fun _ => rfl⟩, fun _ _ => rfl, fun h => absurd rfl h⟩
  | some n =>
    simp only [Sink.write, cut]
    by_cases hn : n < p.length
    · have hcut : ∀ q, (p ++ q).take n = p.take n :=
        fun q => List.take_append_of_le_length (Nat.le_of_lt hn)
      simp only [if_pos hn]
      exact ⟨⟨rfl, nofun, nofun⟩, nofun, fun _ => hcut⟩
    · have hcut : ∀ q, (p ++ q).take n = p ++ q.take (n - p.length) := by
        intro q
        rw [List.take_append, List.take_of_length_le (by omega)]
      simp only [if_neg hn]
      refine ⟨⟨rfl, fun _ => rfl, fun _ => ?_⟩, fun _ => hcut, fun h => absurd rfl h⟩
      exact List.take_of_length_le (by omega)

lemma receiveLoop_plain (err : Option Error) (chunks : List GoString) (k : Nat) (s : Sink) :
    Wrote s chunks.flatten (receiveLoop .plain err k chunks s).1
      (receiveLoop .plain err k chunks s).2 := by
  induction chunks generalizing k s with
  | nil =>
    have hcut : cut s.room [] = [] := by
      unfold cut
      split <;> simp
    cases err
    all_goals exact ⟨by simp [receiveLoop, Writer.close, hcut],
      by simp [receiveLoop, Writer.close], fun _ => hcut⟩
  | cons chunk chunks ih =>
    obtain ⟨hwrote, hnone, hsome⟩ := s.write_wrote chunk
    simp only [receiveLoop, Writer.write, List.flatten_cons]
    cases hw : s.write chunk with
    | mk e s' =>
      rw [hw] at hwrote hnone hsome
      cases e with
      | some e => exact ⟨by rw [hsome (by simp)]; exact hwrote.out, nofun, nofun⟩
      | none =>
        obtain ⟨hout, hchecksum, hfits⟩ := ih (k + 1) s'
        have hcut := hnone rfl chunks.flatten
        refine ⟨?_, ?_, ?_⟩
        · rw [hcut, hout, hwrote.out, hwrote.fits rfl, Output.write_write]
        · intro he
          rw [hchecksum he, hwrote.checksum rfl, List.append_assoc]
        · intro he
          rw [hcut, hfits he]

lemma close_zstd (decoder : Decoder) (s : Sink) :
    Wrote s decoder.output (Writer.close s (.zstd decoder)).1
      (Writer.close s (.zstd decoder)).2 := by
  have hwrote := (s.write_wrote decoder.output).1
  simp only [Writer.close]
  split
  next e s' hw =>
    rw [hw] at hwrote
    exact hwrote
  next s' hw =>
    rw [hw] at hwrote
    exact ⟨hwrote.out, fun _ => hwrote.checksum rfl, fun _ => hwrote.fits rfl⟩

/-- What the loop writes through the decompressor, whichever chunk ends it. -/
lemma receiveLoop_zstd (decoder : Decoder) (err : Option Error) (chunks : List GoString) (k : Nat)
    (s : Sink) :
    Wrote s decoder.output (receiveLoop (.zstd decoder) err k chunks s).1
      (receiveLoop (.zstd decoder) err k chunks s).2 := by
  have hclose := close_zstd decoder s
  induction chunks generalizing k with
  | nil =>
    cases err with
    | none => exact hclose
    | some e => exact ⟨hclose.out, nofun, nofun⟩
  | cons chunk chunks ih =>
    simp only [receiveLoop, Writer.write]
    split
    next e s' hw =>
      obtain ⟨-, rfl⟩ := Prod.mk.inj hw
      exact ⟨hclose.out, nofun, nofun⟩
    next s' hw =>
      obtain ⟨-, rfl⟩ := Prod.mk.inj hw
      exact ih (k + 1)

lemma receiveLoop_wrote (w : Writer) (stream : Stream) (s : Sink) :
    Wrote s (w.data stream.chunks) (receiveLoop w stream.err 0 stream.chunks s).1
      (receiveLoop w stream.err 0 stream.chunks s).2 := by
  cases w with
  | plain => exact receiveLoop_plain stream.err stream.chunks 0 s
  | zstd decoder => exact receiveLoop_zstd decoder stream.err stream.chunks 0 s

section

variable {hashes : Hashes} {cfg : Config} {r : CASResourceName} {a : Attempt} {out out' : Output}
variable {fn : DigestFunction}

/-- A download that can succeed: there is a client, and the content is to be hashed. -/
def Fetches (cfg : Config) (r : CASResourceName) (fn : DigestFunction) : Prop :=
  cfg.bsClient = true ∧ isEmptyHash r.digest r.digestFunction = false ∧
    hashForDigestType r.digestFunction = some fn

lemma getBlob_out (hr : Fetches cfg r fn) :
    (getBlob hashes cfg r a out).2 = out.write (a.written r) := by
  obtain ⟨hclient, hempty, hfn⟩ := hr
  simp only [getBlob, hclient, hempty, hfn, Attempt.written, Bool.not_true, Bool.false_eq_true,
    if_false]
  cases a.read with
  | error e => simp
  | ok stream =>
    cases newWriter r a with
    | error e => simp
    | ok w =>
      have hwrote := receiveLoop_wrote w stream { out, room := a.room }
      dsimp only
      split
      next e s hs =>
        rw [hs] at hwrote
        exact hwrote.out
      next s hs =>
        rw [hs] at hwrote
        split
        all_goals exact hwrote.out

/-- The bytes of an attempt that succeeds have the right hash. -/
lemma getBlob_hash (hr : Fetches cfg r fn) (h : (getBlob hashes cfg r a out).1 = none) :
    hashes.sum fn (a.written r) = r.digest.hash := by
  obtain ⟨hclient, hempty, hfn⟩ := hr
  simp only [getBlob, hclient, hempty, hfn, Bool.not_true, Bool.false_eq_true, if_false] at h
  simp only [Attempt.written]
  cases hread : a.read with
  | error e => simp [hread] at h
  | ok stream =>
    cases hw : newWriter r a with
    | error e => simp [hread, hw] at h
    | ok w =>
      have hwrote := receiveLoop_wrote w stream { out, room := a.room }
      simp only [hread, hw] at h
      split at h
      next => cases h
      next s hs =>
        rw [hs] at hwrote
        split at h
        next => cases h
        next hsum =>
          have hchecksum : s.checksum = w.data stream.chunks := hwrote.checksum rfl
          have hfits : cut a.room (w.data stream.chunks) = w.data stream.chunks := hwrote.fits rfl
          dsimp only
          rw [hfits, ← hchecksum]
          exact not_ne_iff.mp hsum

lemma getBlob_none (h : (getBlob hashes cfg r a out).1 = none) :
    isEmptyHash r.digest r.digestFunction = true ∨ ∃ fn, Fetches cfg r fn := by
  by_contra! hne
  obtain ⟨hempty, hfetches⟩ := hne
  have hempty := Bool.eq_false_iff.mpr hempty
  cases hclient : cfg.bsClient with
  | false => simp [getBlob, hclient] at h
  | true =>
    cases hfn : hashForDigestType r.digestFunction with
    | none =>
      simp only [getBlob, hclient, hempty, hfn, Bool.not_true, Bool.false_eq_true, if_false] at h
      split at h <;> cases h
    | some fn => exact hfetches fn ⟨hclient, hempty, hfn⟩

lemma getBlob_empty (hempty : isEmptyHash r.digest r.digestFunction = true)
    (h : (getBlob hashes cfg r a out).1 = none) (a' : Attempt) (out' : Output) :
    getBlob hashes cfg r a' out' = (none, out') := by
  cases hclient : cfg.bsClient with
  | false => simp [getBlob, hclient] at h
  | true => simp [getBlob, hclient, hempty]

lemma rewindAndGet_ok (h : rewindAndGet hashes cfg r a out = .ok () out') :
    getBlob hashes cfg r a out.seekStart = (none, out') := by
  unfold rewindAndGet at h
  split at h
  next => cases h
  next =>
    split at h
    next out'' hget =>
      cases h
      exact hget
    next => cases h

lemma rewindAndGet_error {e : AttemptError Error}
    (h : rewindAndGet hashes cfg r a out = .error e out') (he : ∀ e', e ≠ .nonRetryable e') :
    ∃ e', getBlob hashes cfg r a out.seekStart = (some e', out') := by
  unfold rewindAndGet at h
  split at h
  next e' _ =>
    cases h
    exact absurd rfl (he e')
  next =>
    split at h
    next => cases h
    next e' out'' hget =>
      cases h
      exact ⟨e', hget⟩

lemma Failing.content_length (hr : Fetches cfg r fn) {fs : List Attempt}
    (h : Failing (rewindAndGet hashes cfg r) fs out out') (n : Nat) : out'.content.length ≤ n ↔
      out.content.length ≤ n ∧ ∀ f ∈ fs, (f.written r).length ≤ n := by
  induction h with
  | nil => simp
  | @cons f fs out mid out' e hf hfs ih =>
    obtain ⟨e', hget⟩ := rewindAndGet_error hf nofun
    have hmid : (getBlob hashes cfg r f out.seekStart).2 = out.seekStart.write (f.written r) :=
      getBlob_out hr
    rw [hget] at hmid
    have hlen : mid.content.length = max out.content.length (f.written r).length := by
      rw [show mid = _ from hmid, Output.content_rewrite, List.length_append, List.length_drop]
      omega
    rw [ih, hlen, List.forall_mem_cons, Nat.max_le, and_assoc]

end

@[simp] lemma maybeSetCompressor_digest (cfg : Config) (r : CASResourceName) :
    (maybeSetCompressor cfg r).digest = r.digest := by
  unfold maybeSetCompressor
  split <;> rfl

@[simp] lemma maybeSetCompressor_digestFunction (cfg : Config) (r : CASResourceName) :
    (maybeSetCompressor cfg r).digestFunction = r.digestFunction := by
  unfold maybeSetCompressor
  split <;> rfl

lemma Hashes.of_nil (hashes : Hashes) {d : Digest} {fn : DigestFunction}
    (h : isEmptyHash d fn = true) : hashes.of fn [] = d.hash := by
  have hempty : emptyHash fn = some d.hash := of_decide_eq_true h
  have hfn : (hashForDigestType fn).getD fn = fn := by
    cases fn
    case unknown => cases hempty
    all_goals rfl
  rw [Hashes.of, hfn, hashes.sum_nil fn d.hash hempty]

/-- A download that succeeds has written the blob over what the earlier attempts wrote: the output
holds the blob exactly when none of them had written more bytes than the last attempt. -/
theorem GetBlob_content_iff (hashes : Hashes) (cfg : Config) (r : CASResourceName)
    (waits : List (Option Attempt)) (out : Output)
    (h : GetBlob hashes cfg r waits {} = some (.ok (), out)) :
    ∃ (fs : List Attempt) (a : Attempt), waits = fs.map some ++ [some a] ∧
      (hashes.of r.digestFunction out.content = r.digest.hash ↔
        ∀ f ∈ fs, (f.written (maybeSetCompressor cfg r)).length ≤
          (a.written (maybeSetCompressor cfg r)).length) := by
  obtain ⟨fs, a, t, rfl, hfs, ha⟩ := retryDo_ok h
  refine ⟨fs, a, rfl, ?_⟩
  have hget := rewindAndGet_ok ha
  have hnone := congrArg Prod.fst hget
  obtain hempty | ⟨fn, hr⟩ := getBlob_none hnone
  · -- the first attempt already returns, with nothing written
    have hall := getBlob_empty hempty hnone
    cases hfs with
    | nil =>
      rw [hall a] at hget
      cases hget
      rw [maybeSetCompressor_digest, maybeSetCompressor_digestFunction] at hempty
      refine iff_of_true (hashes.of_nil hempty) ?_
      intro f hf
      exact absurd hf List.not_mem_nil
    | cons hf =>
      obtain ⟨e, herror⟩ := rewindAndGet_error hf nofun
      rw [hall] at herror
      cases herror
  · have hout : (getBlob hashes cfg (maybeSetCompressor cfg r) a t.seekStart).2 =
        t.seekStart.write (a.written (maybeSetCompressor cfg r)) := getBlob_out hr
    rw [hget] at hout
    have hsum := getBlob_hash hr hnone
    have hfn : hashForDigestType r.digestFunction = some fn := by
      simpa using hr.2.2
    have hlen := Failing.content_length hr hfs (a.written (maybeSetCompressor cfg r)).length
    rw [maybeSetCompressor_digest] at hsum
    rw [show out = _ from hout, Output.content_rewrite, Hashes.of, hfn, Option.getD_some, ← hsum,
      (hashes.sum_injective fn).eq_iff, List.append_right_eq_self, List.drop_eq_nil_iff, hlen]
    exact and_iff_right (Nat.zero_le _)

def plainSum (fn : DigestFunction) (data : GoString) : GoString :=
  if data = [] then (emptyHash fn).getD [] else 0 :: data

lemma plainSum_injective (fn : DigestFunction) : Function.Injective (plainSum fn) := by
  have hne : ∀ data, (emptyHash fn).getD [] ≠ 0 :: data := by
    intro data heq
    have hhead : ((emptyHash fn).getD []).head? ≠ some 0 := by
      cases fn <;> decide +kernel
    rw [heq] at hhead
    exact hhead rfl
  intro a b hab
  unfold plainSum at hab
  split at hab
  next ha =>
    split at hab
    next hb => rw [ha, hb]
    next => exact absurd hab (hne b)
  next =>
    split at hab
    next => exact absurd hab.symm (hne a)
    next => exact (List.cons.inj hab).2

def plainHashes : Hashes where
  sum := plainSum
  sum_injective := plainSum_injective
  sum_nil fn hash h := by rw [plainSum, if_pos rfl, h, Option.getD_some]

def oneByte : CASResourceName := { digest := ⟨[0, 7], 1⟩, digestFunction := .sha256 }

def broken (data : List GoString) : Attempt := { read := .ok ⟨data, some (.status .other)⟩ }

def complete : Attempt := { read := .ok ⟨[[7]], none⟩ }

/-- The stream breaks before any data was read; the second attempt leaves the blob alone in the
output. -/
theorem GetBlob_content_iff_oneByte :
    GetBlob plainHashes {} oneByte [some (broken []), some complete] {} =
        some (.ok (), ⟨[7], []⟩) ∧
      plainHashes.of .sha256 [7] = oneByte.digest.hash := by
  have hrun : GetBlob plainHashes {} oneByte [some (broken []), some complete] {} =
      some (.ok (), ⟨[7], []⟩) := by decide +kernel
  obtain ⟨fs, a, hwaits, hiff⟩ := GetBlob_content_iff _ _ _ _ _ hrun
  obtain ⟨hfs, ha⟩ :=
    List.append_inj' (show [some (broken [])] ++ [some complete] = _ from hwaits) rfl
  obtain rfl : fs = [broken []] :=
    List.map_injective_iff.mpr (fun _ _ => Option.some.inj) hfs.symm
  refine ⟨hrun, hiff.mpr ?_⟩
  intro f hf
  obtain rfl := List.mem_singleton.mp hf
  exact Nat.zero_le _

/-- The first attempt has read three bytes when its stream breaks. The second reads the blob, and
its hash is right, but two of the three bytes stay behind it. -/
theorem GetBlob_leaves_garbage :
    GetBlob plainHashes {} oneByte [some (broken [[1, 2, 3]]), some complete] {} =
        some (.ok (), ⟨[7], [2, 3]⟩) ∧
      plainHashes.of .sha256 (⟨[7], [2, 3]⟩ : Output).content ≠ oneByte.digest.hash := by
  decide +kernel

end Reninja.Cachetools
