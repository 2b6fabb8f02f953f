import Mathlib.Logic.Relation
import Mathlib.Order.Basic

/-!
# Programs that can fail

A program is a computation in `EStateM`: it reads and changes a state and either returns a
value or stops with an error, the state being the one it had reached. This file has the two
loops the programs of the development are written with and the rules to reason about them:
a partial-correctness triple `Sat`, and `Moves` for what relates the first state of a run to
its last, whatever the outcome.
-/

namespace Program

variable {ε σ α β : Type}
variable {m : EStateM ε σ α} {f : α → EStateM ε σ Unit} {xs : List α} {s s' : σ}

/-- Run `f` on each element in turn. -/
def forEach : List α → (α → EStateM ε σ Unit) → EStateM ε σ Unit
  | [], _ => pure ()
  | x :: xs, f => do f x; forEach xs f

/-- Run `f` on each element in turn and stop at the first `false`. -/
def forAll : List α → (α → EStateM ε σ Bool) → EStateM ε σ Bool
  | [], _ => pure true
  | x :: xs, f => do if ← f x then forAll xs f else pure false

/-- The state a run ends in, with or without an error. -/
def finalState : EStateM.Result ε σ α → σ
  | .ok _ s => s
  | .error _ s => s

/-! ### Inversion of the primitive steps -/

@[simp] lemma pure_ok {a b : α} : (pure a : EStateM ε σ α) s = .ok b s' ↔ a = b ∧ s = s' := by
  simp [pure, EStateM.pure]

@[simp] lemma throw_ok {e : ε} {b : α} : ¬ (throw e : EStateM ε σ α) s = .ok b s' := by
  change ¬ (EStateM.Result.error e s : EStateM.Result ε σ α) = .ok b s'
  simp

@[simp] lemma get_ok {s s' t : σ} : (get : EStateM ε σ σ) s = .ok t s' ↔ s = t ∧ s = s' := by
  change (EStateM.Result.ok s s : EStateM.Result ε σ σ) = .ok t s' ↔ _
  simp

@[simp] lemma modify_ok {f : σ → σ} {u : PUnit} :
    (modify f : EStateM ε σ PUnit) s = .ok u s' ↔ f s = s' := by
  change (EStateM.Result.ok ⟨⟩ (f s) : EStateM.Result ε σ PUnit) = .ok u s' ↔ _
  simp

/-- A sequence succeeds exactly when both of its parts do. -/
lemma bind_ok {f : α → EStateM ε σ β} {b : β} :
    (m >>= f) s = .ok b s' ↔ ∃ a t, m s = .ok a t ∧ f a t = .ok b s' := by
  simp only [bind, EStateM.bind]
  cases m s with
  | ok a t =>
    constructor
    · intro h
      exact ⟨a, t, rfl, h⟩
    · rintro ⟨_, _, ⟨⟩, h⟩
      exact h
  | error e t => simp

lemma bind_apply (m : EStateM ε σ α) (f : α → EStateM ε σ β) (s : σ) :
    (m >>= f) s = match m s with
      | .ok a t => f a t
      | .error e t => .error e t := by
  simp only [bind, EStateM.bind]
  cases m s <;> rfl

lemma pure_apply (a : α) (s : σ) : (pure a : EStateM ε σ α) s = .ok a s := rfl

lemma throw_apply (e : ε) (s : σ) : (throw e : EStateM ε σ α) s = .error e s := rfl

lemma get_apply (s : σ) : (get : EStateM ε σ σ) s = .ok s s := rfl

lemma modify_apply (f : σ → σ) (s : σ) : (modify f : EStateM ε σ PUnit) s = .ok ⟨⟩ (f s) := rfl

lemma get_bind_ok {f : σ → EStateM ε σ β} {b : β} :
    (MonadState.get >>= f) s = .ok b s' ↔ f s s = .ok b s' := .rfl

/-- A last part that leaves the state alone. -/
lemma finalState_bind {f : α → EStateM ε σ β} {s : σ} (h : ∀ a t, finalState (f a t) = t) :
    finalState ((m >>= f) s) = finalState (m s) := by
  rw [bind_apply]
  cases m s with
  | ok a t => exact h a t
  | error e t => rfl

/-- Whenever `m` is started where `P` holds and succeeds, `Q` holds of what it returns and of
the state it ends in. -/
def Sat (P : σ → Prop) (m : EStateM ε σ α) (Q : α → σ → Prop) : Prop :=
  ∀ s a s', P s → m s = .ok a s' → Q a s'

namespace Sat

variable {P P' : σ → Prop} {Q Q' : α → σ → Prop}

lemma conseq (h : Sat P m Q) (hP : ∀ s, P' s → P s) (hQ : ∀ a s, Q a s → Q' a s) : Sat P' m Q' :=
  fun s a s' hs hm => hQ a s' (h s a s' (hP s hs) hm)

lemma pure {a : α} (h : ∀ s, P s → Q a s) : Sat P (Pure.pure a : EStateM ε σ α) Q := by
  intro s b s' hs hm
  obtain ⟨rfl, rfl⟩ := pure_ok.mp hm
  exact h s hs

lemma throw (e : ε) : Sat P (MonadExcept.throw e : EStateM ε σ α) Q := by
  intro s b s' _ hm
  exact absurd hm throw_ok

lemma bind {m : EStateM ε σ α} {f : α → EStateM ε σ β} {R : β → σ → Prop}
    (hm : Sat P m Q) (hf : ∀ a, Sat (Q a) (f a) R) : Sat P (m >>= f) R := by
  intro s b s' hs h
  obtain ⟨a, t, h₁, h₂⟩ := bind_ok.mp h
  exact hf a t b s' (hm s a t hs h₁) h₂

lemma modify {f : σ → σ} {Q : PUnit → σ → Prop} (h : ∀ s, P s → Q ⟨⟩ (f s)) :
    Sat P (modify f : EStateM ε σ PUnit) Q := by
  intro s u s' hs hm
  rw [modify_ok] at hm
  subst hm
  exact h s hs

lemma get {Q : σ → σ → Prop} (h : ∀ s, P s → Q s s) : Sat P (get : EStateM ε σ σ) Q := by
  intro s t s' hs hm
  obtain ⟨rfl, rfl⟩ := get_ok.mp hm
  exact h s hs

lemma ite {c : Prop} [Decidable c] {m n : EStateM ε σ α} (ht : c → Sat P m Q)
    (hf : ¬ c → Sat P n Q) : Sat P (if c then m else n) Q := by
  split
  · exact ht ‹_›
  · exact hf ‹_›

end Sat

/-! ### Two-state relations -/

/-- The state in which `m` ends when it is started in `s` is related to `s`, whether it returns
or fails. -/
def Moves (R : σ → σ → Prop) (s : σ) (m : EStateM ε σ α) : Prop := R s (finalState (m s))

namespace Moves

variable {R : σ → σ → Prop} {s : σ}
variable {xs : List α}

lemma of_ok (h : Moves R s m) {a : α} {t : σ} (hm : m s = .ok a t) : R s t := by
  rw [Moves, hm] at h
  exact h

lemma modify {f : σ → σ} (h : R s (f s)) : Moves R s (modify f : EStateM ε σ PUnit) := h

/-- The rule for a program that reads the state first. -/
lemma get_bind {f : σ → EStateM ε σ β} (h : Moves R s (f s)) :
    Moves R s (MonadState.get >>= f) := h

lemma ite {c : Prop} [Decidable c] {m n : EStateM ε σ α} (ht : c → Moves R s m)
    (hf : ¬ c → Moves R s n) : Moves R s (if c then m else n) := by
  split
  · exact ht ‹_›
  · exact hf ‹_›

lemma bind [IsTrans σ R] {f : α → EStateM ε σ β} (hm : Moves R s m)
    (hf : ∀ a t, m s = .ok a t → Moves R t (f a)) : Moves R s (m >>= f) := by
  rw [Moves, bind_apply]
  cases hms : m s with
  | ok a t => exact IsTrans.trans _ _ _ (hm.of_ok hms) (hf a t hms)
  | error e t =>
    rw [Moves, hms] at hm
    exact hm

variable [Std.Refl R]

lemma pure (a : α) : Moves R s (Pure.pure a : EStateM ε σ α) := Std.Refl.refl s

lemma throw (e : ε) : Moves R s (MonadExcept.throw e : EStateM ε σ α) := Std.Refl.refl s

variable [IsTrans σ R]

/-- The rule for `forEach` where the elements need something that `R` keeps. -/
lemma forEach_of {I : σ → Prop} (hkeep : ∀ a b, I a → R a b → I b)
    (h : ∀ x ∈ xs, ∀ t, I t → Moves R t (f x)) (hs : I s) : Moves R s (forEach xs f) := by
  induction xs generalizing s with
  | nil => exact .pure _
  | cons x xs ih =>
    have hx : Moves R s (f x) := h x (by simp) s hs
    exact .bind hx fun _ t ht =>
      ih (fun y hy => h y (by simp [hy])) (hkeep s t hs (hx.of_ok ht))

lemma forEach (h : ∀ x ∈ xs, ∀ t, Moves R t (f x)) : Moves R s (forEach xs f) :=
  forEach_of (fun _ _ _ _ => trivial) (fun x hx t _ => h x hx t) trivial

lemma forAll {f : α → EStateM ε σ Bool} (h : ∀ x ∈ xs, ∀ t, Moves R t (f x)) :
    Moves R s (forAll xs f) := by
  induction xs generalizing s with
  | nil => exact .pure _
  | cons x xs ih =>
    refine .bind (h x (by simp) s) fun b t _ => ?_
    cases b with
    | false => exact .pure _
    | true => exact ih fun y hy => h y (by simp [hy])

end Moves

/-- If every round returns and keeps the invariant, so does the loop. -/
lemma forEach_returns {I : σ → Prop} {s : σ}
    (h : ∀ x ∈ xs, ∀ t, I t → ∃ t', f x t = .ok () t' ∧ I t') (hs : I s) :
    ∃ s', forEach xs f s = .ok () s' ∧ I s' := by
  induction xs generalizing s with
  | nil => exact ⟨s, rfl, hs⟩
  | cons x xs ih =>
    obtain ⟨t, hx, ht⟩ := h x (by simp) s hs
    obtain ⟨s', hxs, hs'⟩ := ih (fun y hy => h y (by simp [hy])) ht
    exact ⟨s', by rw [forEach, bind_apply, hx]; exact hxs, hs'⟩

/-- If every round that returns keeps the invariant, the loop fails with the first round that does,
or all of them have returned. -/
lemma forEach_fails_or {f : α → EStateM ε σ Unit} {xs : List α} {I : σ → Prop} {P : α → Prop}
    {s : σ} {e : ε} (h : ∀ x ∈ xs, ∀ t, I t →
      (∃ t', f x t = .error e t') ∨ ∃ t', f x t = .ok () t' ∧ I t' ∧ P x) (hs : I s) :
    (∃ s', forEach xs f s = .error e s') ∨
      ∃ s', forEach xs f s = .ok () s' ∧ I s' ∧ ∀ x ∈ xs, P x := by
  induction xs generalizing s with
  | nil => exact .inr ⟨s, rfl, hs, fun _ hx => nomatch hx⟩
  | cons x xs ih =>
    rw [forEach, bind_apply]
    rcases h x (by simp) s hs with ⟨t, hx⟩ | ⟨t, hx, ht, hP⟩
    · exact .inl ⟨t, by rw [hx]⟩
    · rw [hx]
      refine (ih (fun y hy => h y (by simp [hy])) ht).imp id ?_
      rintro ⟨s', hxs, hs', hall⟩
      exact ⟨s', hxs, hs', List.forall_mem_cons.mpr ⟨hP, hall⟩⟩

/-- Started in `s₁` and `s₂`, the two programs both return or both fail, with the same value or
error and with related states. -/
def Agrees (R : σ → σ → Prop) (s₁ s₂ : σ) (m₁ m₂ : EStateM ε σ α) : Prop :=
  match m₁ s₁, m₂ s₂ with
  | .ok a t₁, .ok b t₂ => a = b ∧ R t₁ t₂
  | .error e t₁, .error f t₂ => e = f ∧ R t₁ t₂
  | _, _ => False

namespace Agrees

variable {R : σ → σ → Prop} {s₁ s₂ : σ}
variable {f₁ f₂ : α → EStateM ε σ β}

lemma pure (a : α) (h : R s₁ s₂) : Agrees R s₁ s₂ (Pure.pure a : EStateM ε σ α) (Pure.pure a) :=
  ⟨rfl, h⟩

lemma throw (e : ε) (h : R s₁ s₂) :
    Agrees R s₁ s₂ (MonadExcept.throw e : EStateM ε σ α) (MonadExcept.throw e) := ⟨rfl, h⟩

lemma get_bind {f g : σ → EStateM ε σ β} (h : Agrees R s₁ s₂ (f s₁) (g s₂)) :
    Agrees R s₁ s₂ (MonadState.get >>= f) (MonadState.get >>= g) := h

lemma bind {m₁ m₂ : EStateM ε σ α} (hm : Agrees R s₁ s₂ m₁ m₂)
    (hf : ∀ a t₁ t₂, R t₁ t₂ → Agrees R t₁ t₂ (f₁ a) (f₂ a)) :
    Agrees R s₁ s₂ (m₁ >>= f₁) (m₂ >>= f₂) := by
  unfold Agrees at hm ⊢
  rw [bind_apply, bind_apply]
  cases h₁ : m₁ s₁ with
  | ok a t₁ =>
    cases h₂ : m₂ s₂ with
    | ok b t₂ =>
      rw [h₁, h₂] at hm
      obtain ⟨rfl, hR⟩ := hm
      exact hf a t₁ t₂ hR
    | error e t₂ =>
      rw [h₁, h₂] at hm
      exact hm.elim
  | error e t₁ =>
    cases h₂ : m₂ s₂ with
    | ok b t₂ =>
      rw [h₁, h₂] at hm
      exact hm.elim
    | error f t₂ =>
      rw [h₁, h₂] at hm
      exact hm

/-- Two programs that start with the same part, in the same state. -/
lemma bind_same {s : σ} (hm : R (finalState (m s)) (finalState (m s)))
    (hf : ∀ a t, m s = .ok a t → Agrees R t t (f₁ a) (f₂ a)) :
    Agrees R s s (m >>= f₁) (m >>= f₂) := by
  rw [Agrees, bind_apply, bind_apply]
  cases ht : m s with
  | ok a t => exact hf a t ht
  | error e t =>
    rw [ht] at hm
    exact ⟨rfl, hm⟩

lemma forAll {f g : α → EStateM ε σ Bool} (hR : R s₁ s₂)
    (h : ∀ x ∈ xs, ∀ t₁ t₂, R t₁ t₂ → Agrees R t₁ t₂ (f x) (g x)) :
    Agrees R s₁ s₂ (Program.forAll xs f) (Program.forAll xs g) := by
  induction xs generalizing s₁ s₂ with
  | nil => exact Agrees.pure true hR
  | cons x xs ih =>
    refine Agrees.bind (h x (by simp) s₁ s₂ hR) fun b t₁ t₂ ht => ?_
    cases b with
    | false => exact Agrees.pure false ht
    | true => exact ih ht fun y hy => h y (by simp [hy])

end Agrees

end Program
