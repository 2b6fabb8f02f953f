import Mathlib.Order.Filter.AtTopBot.Basic
import Mathlib.Order.Filter.Finite
import Mathlib.Order.WellFoundedSet

/-!
# Acyclic relations

A relation without cycles that leads to finitely many elements only can be followed a bounded
number of times.
-/

namespace Acyclic

open Relation Filter

variable {α : Type*} {r : α → α → Prop}

/-- Induction along an acyclic relation: what holds of an element whenever it holds of all that the
element leads to, holds of all elements. -/
lemma wellFounded {s : Set α} (hs : s.Finite) (hr : ∀ a b, r a b → b ∈ s)
    (hacyclic : ∀ a, ¬ TransGen r a a) : WellFounded fun b a => r a b := by
  let before : α → α → Prop := fun b a => TransGen r a b
  have : IsTrans α before := ⟨fun _ _ _ h₁ h₂ => h₂.trans h₁⟩
  have : Std.Irrefl before := ⟨hacyclic⟩
  have : IsStrictOrder α before := {}
  have hin : ∀ b ∈ s, Acc (fun b a => r a b) b := fun b hb =>
    (hs.wellFoundedOn (r := before)).induction hb fun a _ ih =>
      ⟨_, fun c hc => ih c (hr a c hc) (.single hc)⟩
  exact ⟨fun a => ⟨_, fun b hb => hin b (hr a b hb)⟩⟩

/-- Of finitely many things that need a bound each, all have one in common. -/
lemma eventually_forall_mem {β : Type*} {xs : List β} {P : β → Nat → Prop}
    (h : ∀ x ∈ xs, ∀ᶠ n in atTop, P x n) : ∀ᶠ n in atTop, ∀ x ∈ xs, P x n :=
  (eventually_all_finite xs.finite_toSet).mpr h

lemma eventually_succ {P : Nat → Prop} (h : ∀ᶠ n in atTop, P (n + 1)) : ∀ᶠ n in atTop, P n := by
  obtain ⟨k, hk⟩ := eventually_atTop.mp h
  refine eventually_atTop.mpr ⟨k + 1, fun n hn => ?_⟩
  obtain ⟨m, rfl⟩ := Nat.exists_eq_add_of_le' (Nat.le_of_add_left_le hn)
  exact hk m (Nat.le_of_add_le_add_right hn)

end Acyclic
