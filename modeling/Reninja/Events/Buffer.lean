import Mathlib.Data.List.TakeDrop

/-!
# The event buffer

`EventBuffer` of the build event publisher. Any goroutine may add an event. A subscription has a
goroutine of its own that sends the events, numbered from one, to its channel, and waits for the
one token of `notify` when it has sent them all. The goroutine of a subscription that was cancelled
may still run.
-/

namespace Reninja.Events

variable {α : Type}

/-- Where the goroutine of a subscription is: about to read the items, at the `select` that sends
one of the items it has read, at the `select` that waits for the token, or at its end. -/
inductive Pc (α : Type) where
  | lock
  | send (buffer : List α)
  | wait
  | returned
  deriving DecidableEq, Repr

/-- A subscription: its goroutine, and the events with their sequence numbers that were received
from its channel. -/
structure Sub (α : Type) where
  pc : Pc α := .lock
  i : Nat := 0
  received : List (Nat × α) := []
  deriving DecidableEq, Repr

/-- The buffer with its subscriptions: the one that is not cancelled, and those that are. -/
structure EventBuffer (α : Type) where
  items : List α := []
  notify : Bool := false
  live : Option (Sub α) := none
  past : List (Sub α) := []
  deriving DecidableEq, Repr

namespace Sub

variable (s : Sub α)

def head (buffer : List α) : Pc α := if s.i < buffer.length then .send buffer else .wait

def lock (items : List α) : Option (Sub α) :=
  match s.pc with
  | .lock => some { s with pc := s.head items }
  | _ => none

def receive (finished : α → Bool) : Option (Sub α) :=
  match s.pc with
  | .send buffer =>
    match buffer[s.i]? with
    | none => none
    | some event =>
      let sent := { s with received := s.received ++ [(s.i + 1, event)] }
      if finished event then
        some { sent with pc := .returned }
      else
        some { sent with i := s.i + 1, pc := { s with i := s.i + 1 }.head buffer }
  | _ => none

def wake : Option (Sub α) :=
  match s.pc with
  | .wait => some { s with pc := .lock }
  | _ => none

/-- The goroutine sees that the subscription is cancelled. -/
def stop : Option (Sub α) :=
  match s.pc with
  | .send _ | .wait => some { s with pc := .returned }
  | _ => none

end Sub

/-- What can happen next. The last four are steps of the goroutine of a cancelled subscription:
a `select` takes any case that is ready, so it may still send an event or take the token. -/
inductive Act (α : Type) where
  | add (event : α)
  | subscribe
  | cancel
  | lock
  | receive
  | wake
  | pastLock (k : Nat)
  | pastReceive (k : Nat)
  | pastWake (k : Nat)
  | pastStop (k : Nat)
  deriving DecidableEq, Repr

namespace EventBuffer

/-- A step of the goroutine of the `k`-th cancelled subscription. -/
def stepPast (b : EventBuffer α) (k : Nat) (f : Sub α → Option (Sub α)) :
    Option (EventBuffer α) := do
  let s ← b.past[k]?
  let s' ← f s
  pure { b with past := b.past.set k s' }

def stepLive (b : EventBuffer α) (f : Sub α → Option (Sub α)) : Option (EventBuffer α) := do
  let s ← b.live
  let s' ← f s
  pure { b with live := some s' }

def act (finished : α → Bool) (b : EventBuffer α) : Act α → Option (EventBuffer α)
  | .add event => some { b with items := b.items ++ [event], notify := true }
  | .subscribe => if b.live.isNone then some { b with live := some {} } else none
  | .cancel => b.live.map fun s => { b with live := none, past := b.past ++ [s] }
  | .lock => b.stepLive (Sub.lock · b.items)
  | .receive => b.stepLive (Sub.receive · finished)
  | .wake => if b.notify then { b with notify := false }.stepLive Sub.wake else none
  | .pastLock k => b.stepPast k (Sub.lock · b.items)
  | .pastReceive k => b.stepPast k (Sub.receive · finished)
  | .pastWake k => if b.notify then { b with notify := false }.stepPast k Sub.wake else none
  | .pastStop k => b.stepPast k Sub.stop

def run (finished : α → Bool) : EventBuffer α → List (Act α) → Option (EventBuffer α)
  | b, [] => some b
  | b, a :: as => (b.act finished a).bind fun b' => run finished b' as

end EventBuffer

/-! ### The goroutine of a subscription -/

def numbered (items : List α) : List (Nat × α) := items.mapIdx fun i event => (i + 1, event)

lemma numbered_isPrefix {l m : List α} (h : l <+: m) : numbered l <+: numbered m := by
  obtain ⟨t, rfl⟩ := h
  rw [numbered, numbered, List.mapIdx_append]
  exact List.prefix_append _ _

lemma concat_isPrefix {l m : List α} {a : α} (h : l <+: m) (ha : m[l.length]? = some a) :
    l ++ [a] <+: m := by
  obtain ⟨t, rfl⟩ := h
  cases t with
  | nil => simp at ha
  | cons b t =>
    obtain rfl : b = a := by simpa using ha
    exact ⟨t, by simp⟩

namespace Sub

def Step (finished : α → Bool) (items : List α) (s s' : Sub α) : Prop :=
  s.lock items = some s' ∨ s.receive finished = some s' ∨ s.wake = some s' ∨ s.stop = some s'

/-- What holds wherever the goroutine is, when the buffer holds `items`. -/
structure Good (finished : α → Bool) (items : List α) (s : Sub α) : Prop where
  received : s.received <+: numbered items
  count : s.pc ≠ .returned → s.received.length = s.i
  unfinished : s.pc ≠ .returned → ∀ p ∈ s.received, finished p.2 = false
  finished : ∀ p ∈ s.received.dropLast, finished p.2 = false
  buffer : ∀ buffer, s.pc = .send buffer → buffer <+: items ∧ s.i < buffer.length

variable {finished : α → Bool} {items items' buffer : List α} {s s' : Sub α}

lemma head_eq_send (h : s.head items = .send buffer) : buffer = items ∧ s.i < buffer.length := by
  unfold head at h
  split at h
  next hi =>
    cases h
    exact ⟨rfl, hi⟩
  next => cases h

lemma lock_eq (h : s.lock items = some s') : s.pc = .lock ∧ s' = { s with pc := s.head items } := by
  unfold lock at h
  split at h
  next hpc => exact ⟨hpc, (Option.some.inj h).symm⟩
  next => cases h

lemma wake_eq (h : s.wake = some s') : s.pc = .wait ∧ s' = { s with pc := .lock } := by
  unfold wake at h
  split at h
  next hpc => exact ⟨hpc, (Option.some.inj h).symm⟩
  next => cases h

lemma stop_eq (h : s.stop = some s') : s.pc ≠ .returned ∧ s' = { s with pc := .returned } := by
  unfold stop at h
  split at h
  next hpc => exact ⟨by simp [hpc], (Option.some.inj h).symm⟩
  next hpc => exact ⟨by simp [hpc], (Option.some.inj h).symm⟩
  next => cases h

lemma receive_eq (h : s.receive finished = some s') :
    ∃ buffer event, s.pc = .send buffer ∧ buffer[s.i]? = some event ∧
      s'.received = s.received ++ [(s.i + 1, event)] ∧
      (finished event = true ∧ s'.pc = .returned ∨
        finished event = false ∧ s'.i = s.i + 1 ∧ s'.pc = s'.head buffer) := by
  unfold receive at h
  split at h
  next buffer hpc =>
    split at h
    next => cases h
    next event hevent =>
      refine ⟨buffer, event, hpc, hevent, ?_⟩
      dsimp only at h
      split at h
      next hf =>
        cases h
        exact ⟨rfl, .inl ⟨hf, rfl⟩⟩
      next hf =>
        cases h
        exact ⟨rfl, .inr ⟨by simpa using hf, rfl, rfl⟩⟩
  next => cases h

lemma Good.mono (h : s.Good finished items) (hitems : items <+: items') : s.Good finished items' :=
  { h with
    received := h.received.trans (numbered_isPrefix hitems)
    buffer buffer hpc := ⟨(h.buffer buffer hpc).1.trans hitems, (h.buffer buffer hpc).2⟩ }

lemma Good.receive (h : s.Good finished items) (hs : s.receive finished = some s') :
    s'.Good finished items := by
  obtain ⟨buffer, event, hpc, hevent, hreceived, hnext⟩ := receive_eq hs
  have hne : s.pc ≠ .returned := by simp [hpc]
  obtain ⟨hbuffer, hi⟩ := h.buffer buffer hpc
  have hitem : items[s.i]? = some event := by
    obtain ⟨t, rfl⟩ := hbuffer
    rw [List.getElem?_append_left hi, hevent]
  have hlast : (numbered items)[s.received.length]? = some (s.i + 1, event) := by
    rw [h.count hne, numbered, List.getElem?_mapIdx, hitem]
    rfl
  have hinit : ∀ p ∈ s.received, finished p.2 = false := h.unfinished hne
  refine ⟨?_, ?_, ?_, ?_, ?_⟩
  · rw [hreceived]
    exact concat_isPrefix h.received hlast
  · intro hne'
    obtain ⟨-, hpc'⟩ | ⟨-, hi, -⟩ := hnext
    · exact absurd hpc' hne'
    · rw [hreceived, hi, List.length_append, h.count hne, List.length_singleton]
  · intro hne' p hp
    obtain ⟨-, hpc'⟩ | ⟨hf, -, -⟩ := hnext
    · exact absurd hpc' hne'
    · rw [hreceived, List.mem_append, List.mem_singleton] at hp
      obtain hp | rfl := hp
      · exact hinit p hp
      · exact hf
  · rw [hreceived, List.dropLast_concat]
    exact hinit
  · intro buffer' hpc'
    obtain ⟨-, hend⟩ | ⟨-, -, hhead⟩ := hnext
    · simp [hend] at hpc'
    · obtain ⟨rfl, hi'⟩ := head_eq_send (hhead.symm.trans hpc')
      exact ⟨hbuffer, hi'⟩

lemma Good.step (h : s.Good finished items) (hs : s.Step finished items s') :
    s'.Good finished items := by
  obtain hs | hs | hs | hs := hs
  · obtain ⟨hpc, rfl⟩ := lock_eq hs
    refine ⟨h.received, fun _ => h.count (by simp [hpc]), fun _ => h.unfinished (by simp [hpc]),
      h.finished, ?_⟩
    intro buffer hbuffer
    obtain ⟨rfl, hi⟩ := head_eq_send hbuffer
    exact ⟨List.prefix_rfl, hi⟩
  · exact h.receive hs
  · obtain ⟨hpc, rfl⟩ := wake_eq hs
    exact ⟨h.received, fun _ => h.count (by simp [hpc]), fun _ => h.unfinished (by simp [hpc]),
      h.finished, nofun⟩
  · obtain ⟨-, rfl⟩ := stop_eq hs
    exact ⟨h.received, fun hne => absurd rfl hne, fun hne => absurd rfl hne, h.finished, nofun⟩

/-- How many items the goroutine has read, once it has read them. -/
def known (s : Sub α) : Option Nat :=
  match s.pc with
  | .send buffer => some buffer.length
  | .wait => some s.i
  | _ => none

lemma known_head (hpc : s.pc = s.head items) (hi : s.i ≤ items.length) :
    s.known = some items.length := by
  unfold head at hpc
  split at hpc
  next => simp only [known, hpc]
  next hlt =>
    simp only [known, hpc, Option.some.injEq]
    omega

/-- Sending an event does not change how many items the goroutine has read. -/
lemma Good.known_receive (h : s.Good finished items) (hs : s.receive finished = some s') :
    s'.known = none ∨ s'.known = s.known := by
  obtain ⟨buffer, event, hpc, -, -, ⟨-, hend⟩ | ⟨-, hi, hhead⟩⟩ := receive_eq hs
  · exact .inl (by simp only [known, hend])
  · have hlt := (h.buffer buffer hpc).2
    refine .inr ((known_head hhead (by omega)).trans ?_)
    simp only [known, hpc]

end Sub

/-! ### Whole runs -/

/-- The subscription has received the first items, in order and numbered from one, and it ends at
an event that finishes the stream. -/
def Sub.Delivers (finished : α → Bool) (items : List α) (s : Sub α) : Prop :=
  s.received <+: numbered items ∧ (∀ p ∈ s.received.dropLast, finished p.2 = false) ∧
    ∀ p ∈ s.received, finished p.2 = true → s.pc = .returned

lemma Sub.Good.delivers {finished : α → Bool} {items : List α} {s : Sub α}
    (h : s.Good finished items) : s.Delivers finished items := by
  refine ⟨h.received, h.finished, ?_⟩
  intro p hp hf
  by_contra hne
  exact absurd (h.unfinished hne p hp) (by simp [hf])

namespace EventBuffer

variable {finished : α → Bool} {b b' : EventBuffer α} {a : Act α} {k : Nat}
  {f : Sub α → Option (Sub α)}

def subs (b : EventBuffer α) : List (Sub α) := b.live.toList ++ b.past

lemma stepLive_eq (h : b.stepLive f = some b') :
    ∃ s s', b.live = some s ∧ f s = some s' ∧ b' = { b with live := some s' } := by
  simp only [stepLive, Option.bind_eq_bind, Option.bind_eq_some_iff, Option.pure_def] at h
  obtain ⟨s, hs, s', hs', hb⟩ := h
  exact ⟨s, s', hs, hs', (Option.some.inj hb).symm⟩

lemma stepPast_eq (h : b.stepPast k f = some b') :
    ∃ s s', s ∈ b.past ∧ f s = some s' ∧ b' = { b with past := b.past.set k s' } := by
  simp only [stepPast, Option.bind_eq_bind, Option.bind_eq_some_iff, Option.pure_def] at h
  obtain ⟨s, hs, s', hs', hb⟩ := h
  exact ⟨s, s', List.mem_of_getElem? hs, hs', (Option.some.inj hb).symm⟩

/-- What a step does to the buffer: an event is added, or the subscriptions change. -/
inductive Change (finished : α → Bool) (b : EventBuffer α) : Act α → EventBuffer α → Prop where
  | add (event : α) :
    Change finished b (.add event) { b with items := b.items ++ [event], notify := true }
  | subscribe (h : b.live = none) : Change finished b .subscribe { b with live := some {} }
  | cancel {s : Sub α} (h : b.live = some s) :
    Change finished b .cancel { b with live := none, past := b.past ++ [s] }
  | lock {s s' : Sub α} (h : b.live = some s) (hs : s.lock b.items = some s') :
    Change finished b .lock { b with live := some s' }
  | receive {s s' : Sub α} (h : b.live = some s) (hs : s.receive finished = some s') :
    Change finished b .receive { b with live := some s' }
  | wake {s s' : Sub α} (h : b.live = some s) (hs : s.wake = some s') :
    Change finished b .wake { b with notify := false, live := some s' }
  | past {s s' : Sub α} {a : Act α} (k : Nat) (h : s ∈ b.past) (hs : s.Step finished b.items s')
      (ha : ∀ k, a ≠ .pastWake k) : Change finished b a { b with past := b.past.set k s' }
  | pastWake {s s' : Sub α} (k : Nat) (h : s ∈ b.past) (hs : s.wake = some s') :
    Change finished b (.pastWake k) { b with notify := false, past := b.past.set k s' }

lemma act_change (h : b.act finished a = some b') : Change finished b a b' := by
  cases a with
  | add event =>
    cases h
    exact .add event
  | subscribe =>
    simp only [act] at h
    split at h
    next hlive =>
      cases h
      exact .subscribe (Option.isNone_iff_eq_none.mp hlive)
    next => cases h
  | cancel =>
    obtain ⟨s, hs, rfl⟩ := Option.map_eq_some_iff.mp h
    exact .cancel hs
  | lock =>
    obtain ⟨s, s', hs, hs', rfl⟩ := stepLive_eq h
    exact .lock hs hs'
  | receive =>
    obtain ⟨s, s', hs, hs', rfl⟩ := stepLive_eq h
    exact .receive hs hs'
  | wake =>
    simp only [act] at h
    split at h
    next =>
      obtain ⟨s, s', hs, hs', rfl⟩ := stepLive_eq h
      exact .wake hs hs'
    next => cases h
  | pastLock k =>
    obtain ⟨s, s', hs, hs', rfl⟩ := stepPast_eq h
    exact .past k hs (.inl hs') nofun
  | pastReceive k =>
    obtain ⟨s, s', hs, hs', rfl⟩ := stepPast_eq h
    exact .past k hs (.inr (.inl hs')) nofun
  | pastWake k =>
    simp only [act] at h
    split at h
    next =>
      obtain ⟨s, s', hs, hs', rfl⟩ := stepPast_eq h
      exact .pastWake k hs hs'
    next => cases h
  | pastStop k =>
    obtain ⟨s, s', hs, hs', rfl⟩ := stepPast_eq h
    exact .past k hs (.inr (.inr (.inr hs'))) nofun

/-- Every subscription is as its goroutine leaves it. -/
def Good (finished : α → Bool) (b : EventBuffer α) : Prop :=
  (∀ s ∈ b.live, s.Good finished b.items) ∧ ∀ s ∈ b.past, s.Good finished b.items

lemma Good.setPast {s' : Sub α} (h : b.Good finished) (hs' : s'.Good finished b.items) :
    ∀ s ∈ b.past.set k s', s.Good finished b.items := by
  intro s hs
  obtain hs | rfl := List.mem_or_eq_of_mem_set hs
  · exact h.2 s hs
  · exact hs'

lemma Good.change (h : b.Good finished) (hc : Change finished b a b') : b'.Good finished := by
  have hlive : ∀ {s s'}, b.live = some s → s.Step finished b.items s' →
      ∀ t ∈ some s', t.Good finished b.items := by
    intro s s' hs hs' t ht
    cases ht
    exact (h.1 s hs).step hs'
  cases hc with
  | add event =>
    have hitems := List.prefix_append b.items [event]
    exact ⟨fun s hs => (h.1 s hs).mono hitems, fun s hs => (h.2 s hs).mono hitems⟩
  | subscribe =>
    refine ⟨?_, h.2⟩
    intro s hs
    cases hs
    exact ⟨by simp, fun _ => rfl, nofun, nofun, nofun⟩
  | cancel hs =>
    refine ⟨nofun, ?_⟩
    intro t ht
    rw [List.mem_append, List.mem_singleton] at ht
    obtain ht | rfl := ht
    · exact h.2 t ht
    · exact h.1 t hs
  | lock hs hs' => exact ⟨hlive hs (.inl hs'), h.2⟩
  | receive hs hs' => exact ⟨hlive hs (.inr (.inl hs')), h.2⟩
  | wake hs hs' => exact ⟨hlive hs (.inr (.inr (.inl hs'))), h.2⟩
  | past k hs hs' => exact ⟨h.1, h.setPast ((h.2 _ hs).step hs')⟩
  | pastWake k hs hs' => exact ⟨h.1, h.setPast ((h.2 _ hs).step (.inr (.inr (.inl hs'))))⟩

/-- Items that were added after the live subscription read them have left the token in `notify`. -/
def Awake (b : EventBuffer α) : Prop :=
  ∀ s ∈ b.live, ∀ n ∈ s.known, n < b.items.length → b.notify = true

/-- The token is taken by the live subscription only, so it is there when it is needed. -/
lemma Awake.change (h : b.Awake) (hgood : b.Good finished) (hc : Change finished b a b')
    (ha : ∀ k, a ≠ .pastWake k) : b'.Awake := by
  cases hc with
  | add event => exact fun _ _ _ _ _ => rfl
  | subscribe =>
    intro s hs n hn
    cases hs
    cases hn
  | cancel => exact nofun
  | @lock s s' hs hs' =>
    intro t ht n hn hlt
    cases ht
    obtain ⟨hpc, rfl⟩ := Sub.lock_eq hs'
    have hi : s.i ≤ b.items.length := by
      have hlen := (hgood.1 s hs).received.length_le
      rw [(hgood.1 s hs).count (by simp [hpc]), numbered, List.length_mapIdx] at hlen
      exact hlen
    obtain rfl : b.items.length = n := by
      simpa [Sub.known_head (s := { s with pc := s.head b.items }) rfl hi] using hn
    exact absurd hlt (Nat.lt_irrefl _)
  | @receive s s' hs hs' =>
    intro t ht n hn hlt
    cases ht
    obtain hnone | hknown := (hgood.1 s hs).known_receive hs'
    · rw [hnone] at hn
      cases hn
    · exact h s hs n (hknown ▸ hn) hlt
  | wake hs hs' =>
    intro t ht n hn
    cases ht
    obtain ⟨-, rfl⟩ := Sub.wake_eq hs'
    cases hn
  | past k hs hs' => exact h
  | pastWake k => exact absurd rfl (ha k)

lemma run_good {acts : List (Act α)} (h : b.Good finished) (hr : b.run finished acts = some b') :
    b'.Good finished := by
  induction acts generalizing b with
  | nil =>
    cases hr
    exact h
  | cons a acts ih =>
    obtain ⟨b₁, hb₁, hr⟩ := Option.bind_eq_some_iff.mp hr
    exact ih (h.change (act_change hb₁)) hr

lemma run_awake {acts : List (Act α)} (h : b.Awake) (hgood : b.Good finished)
    (hr : b.run finished acts = some b') (ha : ∀ k, .pastWake k ∉ acts) : b'.Awake := by
  induction acts generalizing b with
  | nil =>
    cases hr
    exact h
  | cons a acts ih =>
    obtain ⟨b₁, hb₁, hr⟩ := Option.bind_eq_some_iff.mp hr
    have hc := act_change hb₁
    refine ih (h.change hgood hc ?_) (hgood.change hc) hr ?_
    · intro k hk
      exact ha k (hk ▸ List.mem_cons_self)
    · exact fun k hk => ha k (List.mem_cons_of_mem a hk)

lemma good_empty : ({} : EventBuffer α).Good finished := ⟨nofun, nofun⟩

lemma awake_empty : ({} : EventBuffer α).Awake := by
  intro s hs
  cases hs

/-- In every run, every subscription delivers the events in the order they were added; and as long
as no goroutine of a cancelled subscription takes the token, the live subscription never waits for
a token that is not there while there are items it has not delivered. -/
theorem run_delivers (finished : α → Bool) (acts : List (Act α)) (b : EventBuffer α)
    (h : ({} : EventBuffer α).run finished acts = some b) :
    (∀ s ∈ b.subs, s.Delivers finished b.items) ∧
      ((∀ k, .pastWake k ∉ acts) → ∀ s ∈ b.live, s.pc = .wait →
        s.received.length < b.items.length → b.notify = true) := by
  have hgood := run_good good_empty h
  constructor
  · intro s hs
    rw [subs, List.mem_append, Option.mem_toList] at hs
    exact (hs.elim (hgood.1 s) (hgood.2 s)).delivers
  · intro hacts s hs hpc hlt
    have hawake := run_awake awake_empty good_empty h hacts
    have hknown : s.known = some s.i := by simp only [Sub.known, hpc]
    refine hawake s hs s.i hknown ?_
    rwa [← (hgood.1 s hs).count (by simp [hpc])]

/-- Two events are added around a retry of the stream. -/
def retried : List (Act Nat) :=
  [.subscribe, .add 7, .lock, .receive, .cancel, .subscribe, .pastStop 0, .lock, .receive, .add 9]

/-- Both subscriptions have received the first event, and the live one has the token for the
second. -/
theorem run_delivers_retried :
    ∃ b : EventBuffer Nat, ({} : EventBuffer Nat).run (· == 9) retried = some b ∧
      (∀ s ∈ b.subs, s.Delivers (· == 9) b.items) ∧
      ∃ s ∈ b.live, s.pc = .wait ∧ s.received.length < b.items.length ∧ b.notify = true := by
  have hrun : ({} : EventBuffer Nat).run (· == 9) retried =
      some ⟨[7, 9], true, some ⟨.wait, 1, [(1, 7)]⟩, [⟨.returned, 1, [(1, 7)]⟩]⟩ := rfl
  obtain ⟨hdelivers, htoken⟩ := run_delivers _ retried _ hrun
  refine ⟨_, hrun, hdelivers, _, rfl, rfl, by decide, ?_⟩
  exact htoken (by simp [retried]) _ rfl rfl (by decide)

/-- The goroutine of the cancelled subscription wakes up for the event that was added for the live
one, which then waits with the event in the buffer. -/
theorem run_delivers_fails :
    ∃ b : EventBuffer Nat,
      ({} : EventBuffer Nat).run (· == 9)
        [.subscribe, .lock, .cancel, .subscribe, .lock, .add 9, .pastWake 0] = some b ∧
      ∃ s ∈ b.live, s.pc = .wait ∧ s.received.length < b.items.length ∧ b.notify = false :=
  ⟨_, rfl, _, rfl, rfl, by decide, rfl⟩

end EventBuffer

end Reninja.Events
