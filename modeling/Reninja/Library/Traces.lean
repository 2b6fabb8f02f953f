import Mathlib.Data.List.Basic

/-!
# Traces

The states that a list of events leads through, each event with the state it finds, and invariants
of them.
-/

namespace Traces

variable {σ α : Type*} (next : σ → α → σ)

/-- The states that some events lead through, with the first and the last one. -/
def states (s : σ) (events : List α) : List σ := events.scanl next s

/-- Each event with the state that it finds. -/
def steps (s : σ) (events : List α) : List (σ × α) := (states next s events).zip events

variable {next}

lemma states_cons (s : σ) (a : α) (events : List α) :
    states next s (a :: events) = s :: states next (next s a) events := List.scanl_cons

lemma steps_cons (s : σ) (a : α) (events : List α) :
    steps next s (a :: events) = (s, a) :: steps next (next s a) events := by
  rw [steps, states_cons, List.zip_cons_cons, steps]

lemma mem_states (s : σ) (events : List α) : s ∈ states next s events := by
  cases events <;> simp [states]

/-- What every step keeps holds in all states. -/
theorem forall_states {Inv : σ → Prop} {P : σ → α → Prop}
    (hstep : ∀ s a, Inv s → P s a → Inv (next s a)) {s : σ} (hs : Inv s) {events : List α}
    (h : ∀ p ∈ steps next s events, P p.1 p.2) : ∀ x ∈ states next s events, Inv x := by
  induction events generalizing s with
  | nil => simpa [states] using hs
  | cons a events ih =>
    rw [steps_cons, List.forall_mem_cons] at h
    rw [states_cons, List.forall_mem_cons]
    exact ⟨hs, ih (hstep s a hs h.1) h.2⟩

end Traces
