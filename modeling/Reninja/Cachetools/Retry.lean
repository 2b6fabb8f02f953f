import Mathlib.Algebra.Group.Nat.Defs
import Mathlib.Data.Nat.Log
import Reninja.Library.Program

/-!
# Retries

`retry.Do` of `internal/retry`, with times in milliseconds. What the attempts meet is given by a
list with one entry for each wait of the loop: the environment of the attempt that follows, or
nothing when the context is done.
-/

namespace Reninja.Cachetools

variable {ε σ α β : Type}

/-- The options that decide how often a call is tried; by default those of `RemoteOptions`. -/
structure Options where
  maxRetries : Int
  initialBackoff : Nat := 100
  maxBackoff : Nat := 5000
  multiplier : Nat := 2
  deriving Repr

structure Retry where
  opts : Options
  maxAttempts : Int
  maxTime : Nat
  currentAttempt : Nat := 0
  delayed : Nat := 0
  isReset : Bool := true
  nextDelay : Nat := 0
  deriving Repr

/-- The sum of the first delays, each the previous one times the multiplier. -/
def Options.totalDelay (opts : Options) : Nat → Nat → Nat
  | 0, _ => 0
  | tries + 1, b => b + opts.totalDelay tries (min (b * opts.multiplier) opts.maxBackoff)

namespace Retry

/-- `New`: without a number of retries, the retries stop when the delays have reached the largest
backoff. -/
def new (opts : Options) : Retry :=
  if opts.maxRetries ≤ 0 then
    if 1 < opts.multiplier ∧ opts.initialBackoff < opts.maxBackoff then
      let steps := (opts.maxBackoff + opts.initialBackoff - 1) / opts.initialBackoff
      let tries := 1 + Nat.clog opts.multiplier steps
      { opts, maxAttempts := opts.maxRetries, maxTime := opts.totalDelay tries opts.initialBackoff }
    else
      { opts, maxAttempts := 1, maxTime := 0 }
  else
    { opts, maxAttempts := opts.maxRetries, maxTime := 0 }

def delay (r : Retry) : Nat :=
  min (r.opts.initialBackoff * r.opts.multiplier ^ r.currentAttempt) r.opts.maxBackoff

def updateNextDelay (r : Retry) : Retry := { r with nextDelay := r.delay }

def next (r : Retry) : Option Retry :=
  if r.isReset then
    some { r with isReset := false }.updateNextDelay
  else if 0 < r.maxAttempts ∧ r.maxAttempts ≤ r.currentAttempt then
    none
  else if 0 < r.maxTime ∧ r.maxTime ≤ r.delayed then
    none
  else
    some { r with
      currentAttempt := r.currentAttempt + 1
      delayed := r.delayed + r.nextDelay }.updateNextDelay

end Retry

/-- The error of an attempt, wrapped by `NonRetryableError` or not. -/
inductive AttemptError (ε : Type) where
  | retryable (err : ε)
  | nonRetryable (err : ε)
  deriving DecidableEq, Repr

/-- The result of a call that has made its last attempt. -/
def finish (rest : List (Option α)) (result : Except ε β) (s : σ) : Option (Except ε β × σ) :=
  if rest.isEmpty then some (result, s) else none

/-- The loop of `Do`. It has no result if it does not make exactly the attempts that are given. -/
def retryLoop [Inhabited β] (ctxErr : ε) (fn : α → EStateM (AttemptError ε) σ β) :
    List (Option α) → Retry → Option ε → σ → Option (Except ε β × σ)
  | waits, r, lastError, s =>
    match r.next with
    | none =>
      match lastError with
      | none => finish waits (.ok default) s
      | some e => finish waits (.error e) s
    | some r =>
      match waits with
      | [] => none
      | none :: rest => finish rest (.error ctxErr) s
      | some a :: rest =>
        match fn a s with
        | .ok b s' => finish rest (.ok b) s'
        | .error (.nonRetryable e) s' => finish rest (.error e) s'
        | .error (.retryable e) s' => retryLoop ctxErr fn rest r (some e) s'

/-- `Do` and `DoVoid`. -/
def retryDo [Inhabited β] (opts : Options) (ctxErr : ε) (fn : α → EStateM (AttemptError ε) σ β)
    (waits : List (Option α)) (s : σ) : Option (Except ε β × σ) :=
  retryLoop ctxErr fn waits (Retry.new opts) none s

/-- Attempts that fail one after another, each with an error that is retried. -/
inductive Failing (fn : α → EStateM (AttemptError ε) σ β) : List α → σ → σ → Prop where
  | nil (s : σ) : Failing fn [] s s
  | cons {a : α} {as : List α} {s t u : σ} {e : ε} (ha : fn a s = .error (.retryable e) t)
      (has : Failing fn as t u) : Failing fn (a :: as) s u

section Inversion

variable {s s' : σ} {b : β}

lemma finish_ok {rest : List (Option α)} {result : Except ε β}
    (h : finish rest result s = some (.ok b, s')) : rest = [] ∧ result = .ok b ∧ s = s' := by
  unfold finish at h
  split at h
  next hrest =>
    obtain ⟨rfl, rfl⟩ := Prod.mk.inj (Option.some.inj h)
    exact ⟨List.isEmpty_iff.mp hrest, rfl, rfl⟩
  next => cases h

variable [Inhabited β] {opts : Options} {ctxErr : ε} {fn : α → EStateM (AttemptError ε) σ β}

lemma retryLoop_ok {waits : List (Option α)} {r : Retry} {lastError : Option ε}
    (h : retryLoop ctxErr fn waits r lastError s = some (.ok b, s'))
    (hr : r.isReset ∨ lastError.isSome) :
    ∃ fs a t, waits = fs.map some ++ [some a] ∧ Failing fn fs s t ∧ fn a t = .ok b s' := by
  induction waits generalizing r lastError s with
  | nil =>
    unfold retryLoop at h
    split at h
    next hnext =>
      -- without a further attempt the loop returns the last error
      split at h
      next =>
        simp only [Option.isSome_none, Bool.false_eq_true, or_false] at hr
        simp [Retry.next, hr] at hnext
      next => simp [finish] at h
    next => cases h
  | cons wait waits ih =>
    unfold retryLoop at h
    split at h
    next hnext =>
      split at h
      all_goals simp [finish] at h
    next r' hnext =>
      cases wait with
      | none => simpa using (finish_ok h).2.1
      | some a =>
        dsimp only at h
        split at h
        next b' t ha =>
          obtain ⟨rfl, hb, rfl⟩ := finish_ok h
          cases hb
          exact ⟨[], a, s, rfl, .nil s, ha⟩
        next => simpa using (finish_ok h).2.1
        next e t ha =>
          obtain ⟨fs, a', t', rfl, hfs, ha'⟩ := ih h (.inr rfl)
          exact ⟨a :: fs, a', t', rfl, .cons ha hfs, ha'⟩

lemma new_isReset (opts : Options) : (Retry.new opts).isReset = true := by
  unfold Retry.new
  split
  next => split <;> rfl
  next => rfl

lemma retryDo_ok {waits : List (Option α)} (h : retryDo opts ctxErr fn waits s = some (.ok b, s')) :
    ∃ fs a t, waits = fs.map some ++ [some a] ∧ Failing fn fs s t ∧ fn a t = .ok b s' := by
  exact retryLoop_ok h (.inl (new_isReset opts))

end Inversion

end Reninja.Cachetools
