import Mathlib.Data.List.Perm.Basic
import Mathlib.Data.List.Range

/-!
# Sets of subprocesses

`Set` in `internal/subprocess`: the subprocesses that run, and those that have finished and were
not collected yet. One goroutine works with the set while subprocesses complete at any time.
Subprocesses are numbered in the order in which they were started.
-/

namespace Reninja

open List

/-- What the goroutine sees each time it looks: which subprocesses are done, whether the program
was interrupted and whether a wakeup came before the timer; and whether a command starts. -/
structure Timing where
  done : Nat → Nat → Bool
  interrupted : Nat → Bool
  woken : Nat → Bool
  starts : Nat → Bool
  done_mono : ∀ {k k' sub : Nat}, k ≤ k' → done k sub → done k' sub

/-- `Set`, with the number of subprocesses that were started, the number of times that the goroutine
has looked, what `NextFinished` has returned, and the subprocesses that each sweep has moved. -/
structure SubprocessSet where
  running : List Nat := []
  finished : List Nat := []
  started : Nat := 0
  now : Nat := 0
  returned : List Nat := []
  sweeps : List (List Nat) := []

/-- A sweep in progress. The running subprocesses are filtered in place: `array` is read at `read`
and written at `kept`. -/
structure Sweep where
  array : List Nat
  read : Nat := 0
  kept : Nat := 0
  finished : List Nat
  found : Bool := false
  now : Nat

def Sweep.step (t : Timing) (x : Sweep) : Sweep :=
  match x.array[x.read]? with
  | none => x
  | some sub =>
    if t.done x.now sub then
      { x with
        read := x.read + 1, now := x.now + 1, finished := x.finished ++ [sub], found := true }
    else
      { x with
        read := x.read + 1, now := x.now + 1, array := x.array.set x.kept sub, kept := x.kept + 1 }

namespace SubprocessSet

variable (t : Timing) (s : SubprocessSet)

def sweepDone : Bool × SubprocessSet :=
  let x := (Sweep.step t)^[s.running.length]
    { array := s.running, finished := s.finished, now := s.now }
  (x.found, { s with
    running := x.array.take x.kept
    finished := x.finished
    now := x.now
    sweeps := s.sweeps ++ [x.finished.drop s.finished.length] })

def look : SubprocessSet := { s with now := s.now + 1 }

/-- `Add`; nothing is added when the command does not start. -/
def add : SubprocessSet :=
  if t.starts s.now then
    { s.look with running := s.running ++ [s.started], started := s.started + 1 }
  else
    s.look

/-- `DoWork`; it returns true if the program was interrupted. -/
def doWork : Bool × SubprocessSet :=
  if t.interrupted s.now then
    (true, s.look)
  else
    let (found, s) := s.look.sweepDone t
    if found then
      (t.interrupted s.now, s.look)
    else if ¬ t.woken s.now ∧ t.interrupted s.now then
      (true, s.look)
    else
      let (_, s) := s.look.sweepDone t
      (t.interrupted s.now, s.look)

def nextFinished : Option Nat × SubprocessSet :=
  match s.finished with
  | [] => (none, s)
  | sub :: subs => (some sub, { s with finished := subs, returned := s.returned ++ [sub] })

inductive Call where
  | add | doWork | nextFinished

def next (s : SubprocessSet) : Call → SubprocessSet
  | .add => s.add t
  | .doWork => (s.doWork t).2
  | .nextFinished => s.nextFinished.2

end SubprocessSet

/-- The subprocesses that a sweep keeps and those that it moves. -/
def Timing.split (t : Timing) : Nat → List Nat → List Nat × List Nat
  | _, [] => ([], [])
  | now, sub :: subs =>
    let rest := t.split (now + 1) subs
    if t.done now sub then (rest.1, sub :: rest.2) else (sub :: rest.1, rest.2)

namespace Timing

variable (t : Timing) (now : Nat) (subs : List Nat)

lemma split_sublist : (t.split now subs).1.Sublist subs ∧ (t.split now subs).2.Sublist subs := by
  induction subs generalizing now with
  | nil => exact ⟨.refl _, .refl _⟩
  | cons sub subs ih =>
    obtain ⟨hkept, hmoved⟩ := ih (now + 1)
    cases hdone : t.done now sub
    · simpa [split, hdone] using ⟨hkept, hmoved.cons sub⟩
    · simpa [split, hdone] using ⟨hkept.cons sub, hmoved⟩

lemma split_perm : ((t.split now subs).1 ++ (t.split now subs).2).Perm subs := by
  induction subs generalizing now with
  | nil => exact .refl _
  | cons sub subs ih =>
    cases hdone : t.done now sub
    · simpa [split, hdone] using ih (now + 1)
    · simpa [split, hdone] using perm_middle.trans ((ih (now + 1)).cons sub)

lemma split_moved : ∀ sub ∈ (t.split now subs).2,
    ∃ k, k < now + subs.length ∧ t.done k sub = true := by
  induction subs generalizing now with
  | nil => simp [split]
  | cons sub subs ih =>
    intro x hx
    have hrest (hx : x ∈ (t.split (now + 1) subs).2) :
        ∃ k, k < now + (sub :: subs).length ∧ t.done k x = true := by
      obtain ⟨k, hk, hdone⟩ := ih (now + 1) x hx
      exact ⟨k, by rw [length_cons]; omega, hdone⟩
    cases hdone : t.done now sub
    · exact hrest (by simpa [split, hdone] using hx)
    · rcases (by simpa [split, hdone] using hx : x = sub ∨ x ∈ (t.split (now + 1) subs).2)
        with rfl | hx
      · exact ⟨now, by rw [length_cons]; omega, hdone⟩
      · exact hrest hx

lemma split_kept {k : Nat} (hk : k ≤ now) : ∀ sub ∈ (t.split now subs).1, t.done k sub = false := by
  induction subs generalizing now with
  | nil => simp [split]
  | cons sub subs ih =>
    have hrest := ih (now + 1) (by omega)
    cases hdone : t.done now sub
    · have hsub : t.done k sub = false := by
        by_contra hbefore
        exact absurd (t.done_mono hk (by simpa using hbefore)) (by simp [hdone])
      simpa [split, hdone] using ⟨hsub, hrest⟩
    · simpa [split, hdone] using hrest

end Timing

namespace Sweep

variable {t : Timing} {x : Sweep} {sub : Nat}

lemma step_done (hsub : x.array[x.read]? = some sub) (hdone : t.done x.now sub = true) :
    x.step t = { x with
      read := x.read + 1, now := x.now + 1, finished := x.finished ++ [sub], found := true } := by
  rw [step, hsub]
  exact if_pos hdone

lemma step_running (hsub : x.array[x.read]? = some sub) (hdone : t.done x.now sub = false) :
    x.step t = { x with
      read := x.read + 1, now := x.now + 1, array := x.array.set x.kept sub
      kept := x.kept + 1 } := by
  rw [step, hsub]
  exact if_neg (by simp [hdone])

/-- Filtering in place writes only where it has already read. -/
lemma iterate_step (subs : List Nat) (x : Sweep) (hkept : x.kept ≤ x.read)
    (hread : x.array.drop x.read = subs) :
    let y := (step t)^[subs.length] x
    y.array.take y.kept = x.array.take x.kept ++ (t.split x.now subs).1 ∧
      y.finished = x.finished ++ (t.split x.now subs).2 ∧ y.now = x.now + subs.length ∧
      y.found = (x.found || !(t.split x.now subs).2.isEmpty) := by
  induction subs generalizing x with
  | nil => simp [Timing.split]
  | cons sub subs ih =>
    have hsub : x.array[x.read]? = some sub := by
      rw [← Nat.add_zero x.read, ← getElem?_drop, hread, getElem?_cons_zero]
    have hrest : x.array.drop (x.read + 1) = subs := by
      rw [← drop_drop, hread, drop_one, tail_cons]
    have hlt : x.read < x.array.length := (List.getElem?_eq_some_iff.mp hsub).1
    rw [length_cons, Function.iterate_succ_apply]
    cases hdone : t.done x.now sub
    · rw [step_running hsub hdone]
      have hwrite : (x.array.set x.kept sub).take (x.kept + 1) = x.array.take x.kept ++ [sub] := by
        rw [take_add_one, take_set_of_le le_rfl, getElem?_set_self (by omega)]
        rfl
      have hnext := ih
        { x with
          read := x.read + 1, now := x.now + 1, array := x.array.set x.kept sub,
          kept := x.kept + 1 }
        (Nat.succ_le_succ hkept) ((drop_set_of_lt (Nat.lt_succ_of_le hkept)).trans hrest)
      simpa [hwrite, Timing.split, hdone, Nat.add_comm, Nat.add_left_comm] using hnext
    · rw [step_done hsub hdone]
      have hnext := ih
        { x with
          read := x.read + 1, now := x.now + 1, finished := x.finished ++ [sub], found := true }
        (Nat.le_succ_of_le hkept) hrest
      simpa [Timing.split, hdone, Nat.add_comm, Nat.add_left_comm] using hnext

end Sweep

namespace SubprocessSet

variable {t : Timing} {s : SubprocessSet}
variable {sub : Nat}

lemma sweepDone_eq : s.sweepDone t = (!(t.split s.now s.running).2.isEmpty, { s with
    running := (t.split s.now s.running).1
    finished := s.finished ++ (t.split s.now s.running).2
    now := s.now + s.running.length
    sweeps := s.sweeps ++ [(t.split s.now s.running).2] }) := by
  obtain ⟨harray, hfinished, hnow, hfound⟩ := Sweep.iterate_step (t := t) s.running
    { array := s.running, finished := s.finished, now := s.now } le_rfl rfl
  simp only [sweepDone, harray, hfinished, hnow, hfound]
  simp

/-! ### Every subprocess is returned once -/

variable (t s) in
/-- Every subprocess that was started is in one place, and those that have left the running ones
are done and come in the order of the sweeps. -/
structure Orderly : Prop where
  places : (s.running ++ s.finished ++ s.returned).Perm (range s.started)
  running : s.running.Pairwise (· < ·)
  moved : s.returned ++ s.finished = s.sweeps.flatten
  done : ∀ sub ∈ s.sweeps.flatten, ∃ k, k < s.now ∧ t.done k sub = true
  sweeps : ∀ batch ∈ s.sweeps, batch.Pairwise (· < ·)

namespace Orderly

lemma look (h : s.Orderly t) : s.look.Orderly t where
  places := h.places
  running := h.running
  moved := h.moved
  done sub hsub := by
    obtain ⟨k, hk, hdone⟩ := h.done sub hsub
    exact ⟨k, Nat.lt_succ_of_lt hk, hdone⟩
  sweeps := h.sweeps

lemma lt_started (h : s.Orderly t) (hsub : sub ∈ s.running) : sub < s.started :=
  mem_range.mp (h.places.subset (by simp [hsub]))

lemma add (h : s.Orderly t) : (s.add t).Orderly t := by
  rw [SubprocessSet.add]
  split
  · refine { h.look with places := ?_, running := ?_ }
    · rw [range_succ]
      refine List.Perm.trans ?_ (h.places.append_right [s.started])
      have hplace : ([s.started] ++ (s.finished ++ s.returned)).Perm
          (s.finished ++ s.returned ++ [s.started]) := perm_append_comm
      simpa [SubprocessSet.look] using hplace.append_left s.running
    · exact pairwise_append.mpr ⟨h.running, pairwise_singleton .., fun x hx y hy => by
        rw [mem_singleton.mp hy]
        exact h.lt_started hx⟩
  · exact h.look

lemma sweepDone (h : s.Orderly t) : (s.sweepDone t).2.Orderly t := by
  rw [sweepDone_eq]
  obtain ⟨hkept, hmoved⟩ := t.split_sublist s.now s.running
  refine ⟨?_, h.running.sublist hkept, ?_, ?_, ?_⟩
  · refine List.Perm.trans ?_ h.places
    refine List.Perm.append_right s.returned ?_
    refine List.Perm.trans ?_ ((t.split_perm s.now s.running).append_right s.finished)
    simpa using perm_append_comm.append_left _
  · simp [← h.moved]
  · intro sub hsub
    rw [flatten_append, mem_append] at hsub
    rcases hsub with hsub | hsub
    · obtain ⟨k, hk, hdone⟩ := h.done sub hsub
      exact ⟨k, Nat.lt_add_right _ hk, hdone⟩
    · exact t.split_moved s.now s.running sub (by simpa using hsub)
  · intro batch hbatch
    rcases mem_append.mp hbatch with hbatch | hbatch
    · exact h.sweeps batch hbatch
    · rw [mem_singleton.mp hbatch]
      exact h.running.sublist hmoved

lemma doWork (h : s.Orderly t) : (s.doWork t).2.Orderly t := by
  rw [SubprocessSet.doWork]
  split
  · exact h.look
  · have hfirst := h.look.sweepDone
    simp only
    split
    · exact hfirst.look
    · split
      · exact hfirst.look
      · exact hfirst.look.sweepDone.look

lemma nextFinished (h : s.Orderly t) : s.nextFinished.2.Orderly t := by
  rw [SubprocessSet.nextFinished]
  split
  · exact h
  · rename_i sub subs hfinished
    refine { h with places := ?_, moved := ?_ }
    · refine List.Perm.trans ?_ h.places
      rw [hfinished]
      simp only [append_assoc]
      refine List.Perm.append_left s.running ?_
      rw [← append_assoc]
      exact perm_append_comm
    · rw [← h.moved, hfinished]
      simp

lemma next (h : s.Orderly t) (c : Call) : (s.next t c).Orderly t := by
  cases c with
  | add => exact h.add
  | doWork => exact h.doWork
  | nextFinished => exact h.nextFinished

lemma run (h : s.Orderly t) (calls : List Call) :
    (calls.foldl (SubprocessSet.next t) s).Orderly t := by
  induction calls generalizing s with
  | nil => exact h
  | cons c calls ih => exact ih (h.next c)

end Orderly

lemma sweepDone_running (hsub : sub ∈ (s.sweepDone t).2.running) :
    sub ∈ s.running ∧ ∀ k ≤ s.now, t.done k sub = false := by
  rw [sweepDone_eq] at hsub
  exact ⟨(t.split_sublist s.now s.running).1.subset hsub, fun k hk => t.split_kept _ _ hk sub hsub⟩

/-- What was done before a `DoWork` that finds no interrupt at its start is moved by its first
sweep, whatever it comes to afterwards. -/
lemma doWork_running (hstart : t.interrupted s.now = false) (hsub : sub ∈ (s.doWork t).2.running) :
    t.done s.now sub = false := by
  have hfirst (hsub : sub ∈ (s.look.sweepDone t).2.running) : t.done s.now sub = false :=
    (sweepDone_running hsub).2 s.now (Nat.le_succ s.now)
  rw [doWork, if_neg (by simp [hstart])] at hsub
  simp only at hsub
  split at hsub
  · exact hfirst hsub
  · split at hsub
    · exact hfirst hsub
    · exact hfirst (sweepDone_running hsub).1

lemma doWork_started : (s.doWork t).2.started = s.started := by
  rw [doWork]
  split
  · rfl
  · simp only
    split
    · rfl
    · split <;> rfl

lemma drain_returned (s : SubprocessSet) :
    ((replicate s.finished.length Call.nextFinished).foldl (next t) s).returned =
      s.returned ++ s.finished := by
  obtain ⟨subs, hsubs⟩ : ∃ subs, s.finished = subs := ⟨_, rfl⟩
  rw [hsubs]
  induction subs generalizing s with
  | nil => simp
  | cons sub subs ih =>
    have hnext : s.next t .nextFinished =
        { s with finished := subs, returned := s.returned ++ [sub] } := by
      simp [next, nextFinished, hsubs]
    rw [length_cons, replicate_succ, foldl_cons, hnext, ih _ rfl]
    simp

/-- The second subprocess is done before the first one: from look 3 on, the other from look 5 on. -/
def secondFirst : Timing where
  done k sub := decide (if sub = 0 then 5 ≤ k else 3 ≤ k)
  interrupted _ := false
  woken _ := true
  starts _ := true
  done_mono hk h := by
    simp only [decide_eq_true_eq] at h ⊢
    split_ifs at h ⊢ <;> exact h.trans hk

end SubprocessSet

end Reninja
