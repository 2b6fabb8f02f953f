import Reninja.Cachetools.Retry
import Reninja.Graph.Basic

/-!
# The stream of a remote execution

`RetryingStream.Recv` and `Wait`. A stream that breaks off is opened again, as often as the retry
object allows; when it allows no more, `Recv` returns the error of the context, which need not have
one.
-/

namespace Reninja.RemoteExec

open Cachetools (Options Retry)
open Relation

/-! ### Operations -/

/-- An error of a call; `unavailable` tells whether its code is `Unavailable`. -/
structure RpcError where
  unavailable : Bool := false
  message : GoString := []
  deriving DecidableEq, Repr

/-- An operation, with the encodings of its response and its metadata. -/
structure Operation where
  name : GoString := []
  done : Bool := false
  response : Option GoString := none
  metadata : Option GoString := none
  deriving DecidableEq, Repr

/-- An `ExecuteResponse`, with the error of its status. -/
structure ExecuteResponse where
  status : Option GoString := none
  result : GoString := []
  deriving DecidableEq, Repr

structure ExecuteOperationMetadata where
  stage : Nat := 0
  deriving DecidableEq, Repr

structure Response where
  operation : Operation
  executeOperationMetadata : Option ExecuteOperationMetadata
  executeResponse : Option ExecuteResponse
  err : Option GoString
  deriving DecidableEq, Repr

/-- How messages are decoded. -/
structure Codec where
  executeResponse : GoString → Except RpcError ExecuteResponse
  metadata : GoString → Except RpcError ExecuteOperationMetadata

/-- What a Go function returns: a pointer that may be nil, and an error that may be nil. -/
abbrev Reply := Option Response × Option RpcError

def Proper (reply : Reply) : Prop := reply.1.isSome = true ↔ reply.2 = none

instance (reply : Reply) : Decidable (Proper reply) := inferInstanceAs (Decidable (_ ↔ _))

/-- Decode a part of a message that may be missing. -/
def decode {α : Type} (f : GoString → Except RpcError α) :
    Option GoString → Except RpcError (Option α)
  | none => .ok none
  | some bytes => (f bytes).map some

def unpackOperation (codec : Codec) (op : Operation) : Reply :=
  match decode codec.executeResponse op.response with
  | .error err => (none, some err)
  | .ok response =>
    match decode codec.metadata op.metadata with
    | .error err => (none, some err)
    | .ok metadata =>
      (some { operation := op, executeOperationMetadata := metadata, executeResponse := response,
              err := response.bind ExecuteResponse.status }, none)

def defaultOptions : Options :=
  { maxRetries := 0, initialBackoff := 50, maxBackoff := 3000, multiplier := 2 }

/-- What one round of the loop of `Recv` meets: what the stream delivers, the error of the context
at the end of the wait, whether the timer wins against a context that is done, and the answer to
`WaitExecution`. -/
structure Round where
  recv : Except RpcError Operation
  ctxErr : Option RpcError := none
  timer : Bool := true
  reconnect : Except RpcError Unit := .ok ()

/-- A stream, with the name of its operation and the number of rounds that have passed. -/
structure RetryingStream where
  name : GoString := []
  position : Nat := 0
  deriving DecidableEq, Repr

namespace RetryingStream

variable (codec : Codec) (rounds : Nat → Round)

def advance (s : RetryingStream) : RetryingStream := { s with position := s.position + 1 }

def learn (s : RetryingStream) (op : Operation) : RetryingStream :=
  if op.name ≠ [] then { s with name := op.name } else s

def recvLoop : Nat → Retry → RetryingStream → Option (Reply × RetryingStream)
  | 0, _, _ => none
  | fuel + 1, r, s =>
    let round := rounds s.position
    match round.recv with
    | .ok op => some (unpackOperation codec op, s.advance.learn op)
    | .error err =>
      if err.unavailable = false ∨ s.name = [] then
        some ((none, some err), s.advance)
      else
        match r.next with
        | none => some ((none, round.ctxErr), s.advance)
        | some r =>
          if round.ctxErr.isSome ∧ round.timer = false then
            some ((none, round.ctxErr), s.advance)
          else
            match round.reconnect with
            | .error err => some ((none, some err), s.advance)
            | .ok _ => recvLoop fuel r s.advance

/-- `Recv`. The fuel is more than the retry object allows. -/
def recv (s : RetryingStream) : Option (Reply × RetryingStream) :=
  recvLoop codec rounds 10 (Retry.new defaultOptions) s

/-- How `Wait` ends. -/
inductive Outcome where
  | returns (reply : Reply)
  | nilDereference
  deriving DecidableEq

def wait : Nat → RetryingStream → Option Outcome
  | 0, _ => none
  | fuel + 1, s =>
    match recv codec rounds s with
    | none => none
    | some ((_, some err), _) => some (.returns (none, some err))
    | some ((none, none), _) => some .nilDereference
    | some ((some resp, none), s') =>
      if resp.operation.done then some (.returns (some resp, none)) else wait fuel s'

/-! ### What the rounds decide -/

def Reopens (round : Round) : Prop :=
  (∃ err, round.recv = .error err ∧ err.unavailable = true) ∧
    (round.ctxErr = none ∨ round.timer = true) ∧ round.reconnect = .ok ()

/-- With `k` more tries allowed, all of them are used up, and then the stream breaks off once more
while the context is not done. -/
def ExhaustsIn : Nat → RetryingStream → Prop
  | 0, s => s.name ≠ [] ∧ (rounds s.position).ctxErr = none ∧
      ∃ err, (rounds s.position).recv = .error err ∧ err.unavailable = true
  | k + 1, s => s.name ≠ [] ∧ Reopens (rounds s.position) ∧ ExhaustsIn k s.advance

/-- With `k` more tries allowed, the next operation comes, is not done and can be decoded; the
stream is then `s'`. -/
def DeliversIn : Nat → RetryingStream → RetryingStream → Prop
  | 0, s, s' => ∃ op resp, (rounds s.position).recv = .ok op ∧
      unpackOperation codec op = (some resp, none) ∧ op.done = false ∧ s' = s.advance.learn op
  | k + 1, s, s' => (∃ op resp, (rounds s.position).recv = .ok op ∧
      unpackOperation codec op = (some resp, none) ∧ op.done = false ∧ s' = s.advance.learn op) ∨
      s.name ≠ [] ∧ Reopens (rounds s.position) ∧ DeliversIn k s.advance s'

/-- How often `Recv` opens a stream again. -/
def tries : Nat := 8

/-- The name is known, and from here on the stream breaks off in nine rounds, the context not being
done after the last. -/
def Exhausts : RetryingStream → Prop := ExhaustsIn rounds tries

def Delivers : RetryingStream → RetryingStream → Prop := DeliversIn codec rounds tries

section Recv

variable {codec rounds} {s s' : RetryingStream} {r : Retry} {fuel k : Nat}
variable {err : RpcError}

def Allows : Nat → Retry → Prop
  | 0, r => r.next = none
  | k + 1, r => ∃ r', r.next = some r' ∧ Allows k r'

lemma allows_default : Allows tries (Retry.new defaultOptions) :=
  ⟨_, rfl, _, rfl, _, rfl, _, rfl, _, rfl, _, rfl, _, rfl, _, rfl, rfl⟩

lemma unpackOperation_proper (codec : Codec) (op : Operation) :
    Proper (unpackOperation codec op) := by
  unfold unpackOperation
  split
  · simp [Proper]
  · split <;> simp [Proper]

lemma unpackOperation_operation {op : Operation} {resp : Response}
    (h : unpackOperation codec op = (some resp, none)) : resp.operation = op := by
  unfold unpackOperation at h
  split at h
  · simp at h
  · split at h
    · simp at h
    · simp only [Prod.mk.injEq, Option.some.injEq, and_true] at h
      rw [← h]

/-- What the rounds say about a reply: it is proper unless they exhaust the tries, and it is a
response that is not done if they deliver one. -/
structure Fits (codec : Codec) (rounds : Nat → Round) (k : Nat) (s : RetryingStream) (reply : Reply)
    (s' : RetryingStream) : Prop where
  proper : Proper reply ↔ ¬ ExhaustsIn rounds k s
  empty : ¬ Proper reply → reply = (none, none)
  delivers : ∀ t, DeliversIn codec rounds k s t ↔
    (∃ resp, reply = (some resp, none) ∧ resp.operation.done = false) ∧ t = s'

lemma fits_operation {op : Operation} (h : (rounds s.position).recv = .ok op) :
    Fits codec rounds k s (unpackOperation codec op) (s.advance.learn op) := by
  have hopens : ¬ Reopens (rounds s.position) := by
    rintro ⟨⟨err, herr, -⟩, -⟩
    exact absurd (h.symm.trans herr) nofun
  have hfirst (t : RetryingStream) : (∃ op' resp, (rounds s.position).recv = .ok op' ∧
      unpackOperation codec op' = (some resp, none) ∧ op'.done = false ∧ t = s.advance.learn op') ↔
      (∃ resp, unpackOperation codec op = (some resp, none) ∧ resp.operation.done = false) ∧
        t = s.advance.learn op := by
    constructor
    · rintro ⟨op', resp, hop', hresp, hdone, rfl⟩
      obtain rfl : op = op' := Except.ok.inj (h.symm.trans hop')
      exact ⟨⟨resp, hresp, by rwa [unpackOperation_operation hresp]⟩, rfl⟩
    · rintro ⟨⟨resp, hresp, hdone⟩, rfl⟩
      exact ⟨op, resp, h, hresp, by rwa [unpackOperation_operation hresp] at hdone, rfl⟩
  have hproper := unpackOperation_proper codec op
  cases k with
  | zero =>
    refine ⟨iff_of_true hproper ?_, fun h => absurd hproper h, hfirst⟩
    rintro ⟨-, -, err, herr, -⟩
    exact absurd (h.symm.trans herr) nofun
  | succ k =>
    refine ⟨iff_of_true hproper fun hex => hopens hex.2.1, fun h => absurd hproper h, fun t => ?_⟩
    rw [← hfirst t]
    exact or_iff_left fun hlater => hopens hlater.2.1

/-- A round in which the stream breaks off and is not opened again. -/
lemma fits_error {e : Option RpcError} (h : (rounds s.position).recv = .error err)
    (hstop : k = 0 ∨ s.name = [] ∨ ¬ Reopens (rounds s.position))
    (hex : e ≠ none ↔ ¬ ExhaustsIn rounds k s) : Fits codec rounds k s (none, e) s.advance := by
  refine ⟨?_, ?_, fun t => ?_⟩
  · rw [← hex]
    simp [Proper]
  · cases e <;> simp [Proper]
  · refine iff_of_false ?_ (by simp)
    cases k with
    | zero =>
      rintro ⟨op, resp, hop, -⟩
      exact absurd (h.symm.trans hop) nofun
    | succ k =>
      rintro (⟨op, resp, hop, -⟩ | ⟨hname, hopens, -⟩)
      · exact absurd (h.symm.trans hop) nofun
      · rcases hstop with hk | hname' | hopens'
        · exact absurd hk (Nat.succ_ne_zero k)
        · exact hname hname'
        · exact hopens' hopens

lemma Fits.reopen {reply : Reply} (hfits : Fits codec rounds k s.advance reply s')
    (h : (rounds s.position).recv = .error err) (hname : s.name ≠ [])
    (hopens : Reopens (rounds s.position)) : Fits codec rounds (k + 1) s reply s' := by
  refine ⟨?_, hfits.empty, fun t => ?_⟩
  · rw [hfits.proper, ExhaustsIn]
    simp [hname, hopens]
  · rw [← hfits.delivers t, DeliversIn]
    simp [hname, hopens, h]

/-- The stream breaks off for good, or before the name is known. -/
lemma fits_fatal (h : (rounds s.position).recv = .error err)
    (hfatal : err.unavailable = false ∨ s.name = []) :
    Fits codec rounds k s (none, some err) s.advance := by
  have hopens : s.name = [] ∨ ¬ Reopens (rounds s.position) := by
    refine hfatal.symm.imp_right fun hunavailable => ?_
    rintro ⟨⟨err', herr', htrue⟩, -⟩
    obtain rfl : err = err' := Except.error.inj (h.symm.trans herr')
    exact absurd (hunavailable.symm.trans htrue) Bool.false_ne_true
  refine fits_error h (.inr hopens) (iff_of_true (Option.some_ne_none err) ?_)
  cases k with
  | zero =>
    rintro ⟨hname, -, err', herr', htrue⟩
    obtain rfl : err = err' := Except.error.inj (h.symm.trans herr')
    rcases hfatal with hfalse | hname'
    · exact absurd (hfalse.symm.trans htrue) Bool.false_ne_true
    · exact hname hname'
  | succ k => exact fun hex => hopens.elim hex.1 fun hopens => hopens hex.2.1

lemma recvLoop_fits (hr : Allows k r) (hfuel : k < fuel) :
    ∃ reply s', recvLoop codec rounds fuel r s = some (reply, s') ∧
      Fits codec rounds k s reply s' := by
  induction k generalizing r s fuel with
  | zero =>
    obtain ⟨fuel, rfl⟩ : ∃ n, fuel = n + 1 := ⟨fuel - 1, by omega⟩
    cases h : (rounds s.position).recv with
    | ok op => exact ⟨_, _, by rw [recvLoop, h], fits_operation h⟩
    | error err =>
      by_cases hfatal : err.unavailable = false ∨ s.name = []
      · exact ⟨_, _, by rw [recvLoop, h]; exact if_pos hfatal, fits_fatal h hfatal⟩
      · refine ⟨(none, (rounds s.position).ctxErr), s.advance, ?_, fits_error h (.inl rfl) ?_⟩
        · rw [recvLoop, h]
          simp only [if_neg hfatal]
          rw [show r.next = none from hr]
        · obtain ⟨hunavailable, hname⟩ := not_or.mp hfatal
          refine ⟨fun hctx hex => hctx hex.2.1, fun hex hctx => hex ?_⟩
          exact ⟨hname, hctx, err, h, eq_true_of_ne_false hunavailable⟩
  | succ k ih =>
    obtain ⟨fuel, rfl⟩ : ∃ n, fuel = n + 1 := ⟨fuel - 1, by omega⟩
    obtain ⟨r', hnext, hr'⟩ := hr
    cases h : (rounds s.position).recv with
    | ok op => exact ⟨_, _, by rw [recvLoop, h], fits_operation h⟩
    | error err =>
      by_cases hfatal : err.unavailable = false ∨ s.name = []
      · exact ⟨_, _, by rw [recvLoop, h]; exact if_pos hfatal, fits_fatal h hfatal⟩
      rw [recvLoop, h]
      simp only [if_neg hfatal, hnext]
      obtain ⟨hunavailable, hname⟩ := not_or.mp hfatal
      by_cases hdone : (rounds s.position).ctxErr.isSome ∧ (rounds s.position).timer = false
      · rw [if_pos hdone]
        have hopens : ¬ Reopens (rounds s.position) := by
          rintro ⟨-, hctx | htimer, -⟩
          · rw [hctx] at hdone
            exact absurd hdone.1 Bool.false_ne_true
          · exact absurd (hdone.2.symm.trans htimer) Bool.false_ne_true
        refine ⟨_, _, rfl, fits_error h (.inr (.inr hopens))
          (iff_of_true ?_ fun hex => hopens hex.2.1)⟩
        exact Option.isSome_iff_ne_none.mp hdone.1
      · rw [if_neg hdone]
        cases hre : (rounds s.position).reconnect with
        | error err' =>
          have hopens : ¬ Reopens (rounds s.position) := fun hopens =>
            absurd (hre.symm.trans hopens.2.2) nofun
          exact ⟨_, _, rfl, fits_error h (.inr (.inr hopens))
            (iff_of_true (Option.some_ne_none err') fun hex => hopens hex.2.1)⟩
        | ok u =>
          have hopens : Reopens (rounds s.position) := by
            refine ⟨⟨err, h, eq_true_of_ne_false hunavailable⟩, ?_, hre⟩
            rcases not_and_or.mp hdone with hctx | htimer
            · exact .inl (Option.not_isSome_iff_eq_none.mp hctx)
            · exact .inr (eq_true_of_ne_false htimer)
          obtain ⟨reply, s', hloop, hfits⟩ := ih hr' (Nat.lt_of_succ_lt_succ hfuel) (s := s.advance)
          exact ⟨reply, s', hloop, hfits.reopen h hname hopens⟩

lemma recv_fits (codec : Codec) (rounds : Nat → Round) (s : RetryingStream) :
    ∃ reply s', recv codec rounds s = some (reply, s') ∧ Fits codec rounds tries s reply s' :=
  recvLoop_fits allows_default (by decide)

variable (codec rounds) in
/-- `Recv` returns a response or an error, but not both and not neither. -/
def RecvReturns (s : RetryingStream) : Prop :=
  ∃ reply s', recv codec rounds s = some (reply, s') ∧ Proper reply

variable (codec rounds) in
/-- If `Wait` ends, it has not dereferenced nil, and returns a response exactly if the error is
nil. -/
def WaitReturns (s : RetryingStream) : Prop :=
  ∀ fuel outcome, wait codec rounds fuel s = some outcome →
    ∃ reply, outcome = .returns reply ∧ Proper reply

lemma recvReturns_iff : RecvReturns codec rounds s ↔ ¬ Exhausts rounds s := by
  obtain ⟨reply, s', hrecv, hfits⟩ := recv_fits codec rounds s
  constructor
  · rintro ⟨reply', t, hrecv', hproper⟩
    rw [hrecv, Option.some.injEq, Prod.mk.injEq] at hrecv'
    exact hfits.proper.mp (hrecv'.1 ▸ hproper)
  · exact fun h => ⟨reply, s', hrecv, hfits.proper.mpr h⟩

/-- Without the bad case ahead, `Wait` goes from one operation to the next. -/
lemma waitReturns_of_not_exhausts
    (h : ∀ t, ReflTransGen (Delivers codec rounds) s t → ¬ Exhausts rounds t) :
    WaitReturns codec rounds s := by
  intro fuel
  induction fuel generalizing s with
  | zero => exact fun outcome hwait => absurd hwait nofun
  | succ fuel ih =>
    intro outcome hwait
    obtain ⟨⟨resp, err⟩, s', hrecv, hfits⟩ := recv_fits codec rounds s
    have hproper : Proper (resp, err) := hfits.proper.mpr (h s .refl)
    rw [wait, hrecv] at hwait
    cases err with
    | some err =>
      obtain rfl := Option.some.inj hwait
      exact ⟨(none, some err), rfl, by simp [Proper]⟩
    | none =>
      cases resp with
      | none => exact absurd (hproper.mpr rfl) Bool.false_ne_true
      | some resp =>
        dsimp only at hwait
        split at hwait
        next =>
          obtain rfl := Option.some.inj hwait
          exact ⟨(some resp, none), rfl, hproper⟩
        next hdone =>
          have hdelivers : Delivers codec rounds s s' :=
            (hfits.delivers s').mpr ⟨⟨resp, rfl, eq_false_of_ne_true hdone⟩, rfl⟩
          exact ih (fun t ht => h t (.head hdelivers ht)) outcome hwait

lemma exists_nilDereference {t : RetryingStream} (hst : ReflTransGen (Delivers codec rounds) s t)
    (ht : Exhausts rounds t) : ∃ fuel, wait codec rounds fuel s = some .nilDereference := by
  induction hst using ReflTransGen.head_induction_on with
  | refl =>
    obtain ⟨reply, s', hrecv, hfits⟩ := recv_fits codec rounds t
    rw [hfits.empty fun hproper => hfits.proper.mp hproper ht] at hrecv
    exact ⟨1, by rw [wait, hrecv]⟩
  | @head s s₁ hs _ ih =>
    obtain ⟨fuel, hfuel⟩ := ih
    obtain ⟨reply, s', hrecv, hfits⟩ := recv_fits codec rounds s
    obtain ⟨⟨resp, rfl, hdone⟩, rfl⟩ := (hfits.delivers s₁).mp hs
    exact ⟨fuel + 1, by rw [wait, hrecv]; simp only [hdone, Bool.false_eq_true, if_false, hfuel]⟩

/-- **The execution stream** returns a response or an error exactly if the tries are not exhausted
while the context is not done; and `Wait` is safe exactly if this happens after none of the
operations. -/
theorem recv_and_wait_return_iff (codec : Codec) (rounds : Nat → Round) (s : RetryingStream) :
    (RecvReturns codec rounds s ↔ ¬ Exhausts rounds s) ∧
      (WaitReturns codec rounds s ↔
        ∀ t, ReflTransGen (Delivers codec rounds) s t → ¬ Exhausts rounds t) := by
  refine ⟨recvReturns_iff, fun h t hst ht => ?_, waitReturns_of_not_exhausts⟩
  obtain ⟨fuel, hfuel⟩ := exists_nilDereference hst ht
  obtain ⟨reply, hreply, -⟩ := h fuel _ hfuel
  exact absurd hreply nofun

/-- The operation has a name, and from then on the service is not available. -/
def unavailableRounds (i : Nat) : Round :=
  if i = 0 then { recv := .ok { name := [111] } } else { recv := .error { unavailable := true } }

/-- Any decoder will do: the operation has neither a response nor metadata. -/
def sampleCodec : Codec := ⟨fun _ => .ok {}, fun _ => .ok {}⟩

/-- The second `Recv` returns nothing at all, and `Wait` dereferences nil. -/
theorem unavailableRounds_return_nothing :
    recv sampleCodec unavailableRounds { name := [111], position := 1 } =
      some ((none, none), { name := [111], position := 10 }) ∧
    ¬ RecvReturns sampleCodec unavailableRounds { name := [111], position := 1 } ∧
    wait sampleCodec unavailableRounds 2 {} = some .nilDereference ∧
    ¬ WaitReturns sampleCodec unavailableRounds {} := by
  have hrecv : recv sampleCodec unavailableRounds { name := [111], position := 1 } =
      some ((none, none), { name := [111], position := 10 }) := by decide
  have hwait : wait sampleCodec unavailableRounds 2 {} = some .nilDereference := by decide
  refine ⟨hrecv, ?_, hwait, fun h => ?_⟩
  · rintro ⟨reply, s', hrecv', hproper⟩
    rw [hrecv, Option.some.injEq, Prod.mk.injEq] at hrecv'
    rw [← hrecv'.1] at hproper
    exact absurd hproper (by decide)
  · obtain ⟨reply, hreply, -⟩ := h 2 _ hwait
    exact absurd hreply nofun

end Recv

end RetryingStream

end Reninja.RemoteExec
