import Mathlib.Data.Nat.Find

/-!
# Edit distance

`Edits r s t n`: the word `s` is turned into `t` by `n` insertions, deletions and, if `r` allows
them, replacements. `Least.cons` is the rule of the tables that compute the least such number letter
by letter, and `Edits.exists_row` says that every way through a table meets each of its rows.
-/

variable {α : Type*}

inductive Edits (r : Bool) : List α → List α → Nat → Prop
  | nil : Edits r [] [] 0
  | insert (b : α) {s t : List α} {n : Nat} : Edits r s t n → Edits r s (b :: t) (n + 1)
  | delete (a : α) {s t : List α} {n : Nat} : Edits r s t n → Edits r (a :: s) t (n + 1)
  | keep (a : α) {s t : List α} {n : Nat} : Edits r s t n → Edits r (a :: s) (a :: t) n
  | replace (a b : α) {s t : List α} {n : Nat} (hr : r = true) :
      Edits r s t n → Edits r (a :: s) (b :: t) (n + 1)

namespace Edits

open List

variable {r : Bool} {s t s' t' : List α} {a : α} {m n : Nat}

lemma append (h : Edits r s t n) (h' : Edits r s' t' m) :
    Edits r (s ++ s') (t ++ t') (n + m) := by
  induction h with
  | nil => simpa using h'
  | insert b _ ih => exact Nat.add_right_comm _ m 1 ▸ .insert b ih
  | delete a _ ih => exact Nat.add_right_comm _ m 1 ▸ .delete a ih
  | keep a _ ih => exact .keep a ih
  | replace a b hr _ ih => exact Nat.add_right_comm _ m 1 ▸ .replace a b hr ih

lemma reverse (h : Edits r s t n) : Edits r s.reverse t.reverse n := by
  induction h with
  | nil => exact .nil
  | insert b _ ih => simpa using ih.append (.insert b .nil)
  | delete a _ ih => simpa using ih.append (.delete a .nil)
  | keep a _ ih => simpa using ih.append (.keep a .nil)
  | replace a b hr _ ih => simpa using ih.append (.replace a b hr .nil)

lemma nil_left (r : Bool) (t : List α) : Edits r [] t t.length := by
  induction t with
  | nil => exact .nil
  | cons b t ih => exact .insert b ih

lemma nil_right (r : Bool) (s : List α) : Edits r s [] s.length := by
  induction s with
  | nil => exact .nil
  | cons a s ih => exact .delete a ih

lemma length_le (h : Edits r s t n) : t.length ≤ s.length + n ∧ s.length ≤ t.length + n := by
  induction h with
  | nil => simp
  | insert _ _ ih | delete _ _ ih | keep _ _ ih | replace _ _ _ _ ih =>
    simp only [length_cons]
    omega

/-- Without its first letter a word is at most one edit further away. -/
lemma of_cons_left (h : Edits r (a :: s) t n) : ∃ m ≤ n + 1, Edits r s t m := by
  generalize hs : a :: s = s₁ at h
  induction h with
  | nil => cases hs
  | insert b _ ih =>
    obtain ⟨m, hm, h⟩ := ih hs
    exact ⟨m + 1, Nat.succ_le_succ hm, .insert b h⟩
  | delete _ h =>
    obtain ⟨rfl, rfl⟩ := cons.inj hs
    exact ⟨_, by omega, h⟩
  | keep a h =>
    obtain ⟨rfl, rfl⟩ := cons.inj hs
    exact ⟨_, Nat.le_refl _, .insert a h⟩
  | replace _ b _ h =>
    obtain ⟨rfl, rfl⟩ := cons.inj hs
    exact ⟨_, by omega, .insert b h⟩

lemma of_cons_right (h : Edits r s (a :: t) n) : ∃ m ≤ n + 1, Edits r s t m := by
  generalize ht : a :: t = t₁ at h
  induction h with
  | nil => cases ht
  | insert _ h =>
    obtain ⟨rfl, rfl⟩ := cons.inj ht
    exact ⟨_, by omega, h⟩
  | delete b _ ih =>
    obtain ⟨m, hm, h⟩ := ih ht
    exact ⟨m + 1, Nat.succ_le_succ hm, .delete b h⟩
  | keep a h =>
    obtain ⟨rfl, rfl⟩ := cons.inj ht
    exact ⟨_, Nat.le_refl _, .delete a h⟩
  | replace b _ _ h =>
    obtain ⟨rfl, rfl⟩ := cons.inj ht
    exact ⟨_, by omega, .delete b h⟩

/-- A part of the word is edited into a part of the other, with no more edits. -/
lemma exists_row (h : Edits r (s' ++ s) t n) :
    ∃ t₁ t₂ m, t = t₁ ++ t₂ ∧ Edits r s t₂ m ∧ m ≤ n := by
  generalize hs : s' ++ s = s₁ at h
  induction h generalizing s' with
  | nil =>
    obtain ⟨-, rfl⟩ := append_eq_nil_iff.mp hs
    exact ⟨[], [], 0, rfl, .nil, Nat.le_refl _⟩
  | insert b _ ih =>
    obtain ⟨t₁, t₂, m, rfl, h, hm⟩ := ih hs
    exact ⟨b :: t₁, t₂, m, rfl, h, by omega⟩
  | @delete a s₂ t n hd ih =>
    cases s' with
    | nil =>
      obtain rfl : s = a :: s₂ := hs
      exact ⟨[], t, n + 1, rfl, .delete a hd, Nat.le_refl _⟩
    | cons _ s' =>
      obtain ⟨t₁, t₂, m, rfl, h, hm⟩ := ih (cons.inj hs).2
      exact ⟨t₁, t₂, m, rfl, h, by omega⟩
  | @keep a s₂ t n hk ih =>
    cases s' with
    | nil =>
      obtain rfl : s = a :: s₂ := hs
      exact ⟨[], a :: t, n, rfl, .keep a hk, Nat.le_refl _⟩
    | cons _ s' =>
      obtain ⟨t₁, t₂, m, rfl, h, hm⟩ := ih (cons.inj hs).2
      exact ⟨a :: t₁, t₂, m, rfl, h, hm⟩
  | @replace a b s₂ t n hr hk ih =>
    cases s' with
    | nil =>
      obtain rfl : s = a :: s₂ := hs
      exact ⟨[], b :: t, n + 1, rfl, .replace a b hr hk, Nat.le_refl _⟩
    | cons _ s' =>
      obtain ⟨t₁, t₂, m, rfl, h, hm⟩ := ih (cons.inj hs).2
      exact ⟨b :: t₁, t₂, m, rfl, h, by omega⟩

end Edits

/-- The edit distance of two words. -/
structure Least (r : Bool) (s t : List α) (d : Nat) : Prop where
  edits : Edits r s t d
  le : ∀ n, Edits r s t n → d ≤ n

namespace Least

variable {r : Bool} {s t : List α} {d p u l : Nat} {a b : α}

lemma unique (h : Least r s t d) (h' : Least r s t p) : d = p :=
  Nat.le_antisymm (h.le p h'.edits) (h'.le d h.edits)

lemma exists_least (r : Bool) (s t : List α) : ∃ d, Least r s t d := by
  have hsome : ∃ n, Edits r s t n := ⟨_, by
    simpa using (Edits.nil_right r s).append (.nil_left r t)⟩
  classical
  exact ⟨Nat.find hsome, Nat.find_spec hsome, fun n hn => Nat.find_min' hsome hn⟩

lemma nil_left (r : Bool) (t : List α) : Least r [] t t.length :=
  ⟨.nil_left r t, fun _ h => by simpa using h.length_le.1⟩

lemma nil_right (r : Bool) (s : List α) : Least r s [] s.length :=
  ⟨.nil_right r s, fun _ h => by simpa using h.length_le.2⟩

lemma reverse (h : Least r s t d) : Least r s.reverse t.reverse d :=
  ⟨h.edits.reverse, fun n hn => h.le n (by simpa using hn.reverse)⟩

variable [DecidableEq α]

/-- The entry of a table, from the ones before it: `p` without both letters, `u` without the second,
`l` without the first. -/
theorem cons (hp : Least r s t p) (hu : Least r (a :: s) t u) (hl : Least r s (b :: t) l) :
    Least r (a :: s) (b :: t)
      (if r then min (p + if a = b then 0 else 1) (min u l + 1)
        else if a = b then p else min u l + 1) := by
  have hmin : Edits r (a :: s) (b :: t) (min u l + 1) := by
    rcases Nat.le_total u l with h | h
    · rw [Nat.min_eq_left h]
      exact .insert b hu.edits
    · rw [Nat.min_eq_right h]
      exact .delete a hl.edits
  have hcases : ∀ n, Edits r (a :: s) (b :: t) n →
      min u l + 1 ≤ n ∨ a = b ∧ p ≤ n ∨ r = true ∧ p + 1 ≤ n := by
    intro n h
    cases h with
    | insert _ h => exact .inl (Nat.succ_le_succ (Nat.le_trans (Nat.min_le_left _ _) (hu.le _ h)))
    | delete _ h => exact .inl (Nat.succ_le_succ (Nat.le_trans (Nat.min_le_right _ _) (hl.le _ h)))
    | keep _ h => exact .inr (.inl ⟨rfl, hp.le _ h⟩)
    | replace _ _ hr h => exact .inr (.inr ⟨hr, Nat.succ_le_succ (hp.le _ h)⟩)
  by_cases hab : a = b
  · subst hab
    -- a letter in common is kept
    obtain ⟨m, hm, h⟩ := hu.edits.of_cons_left
    obtain ⟨m', hm', h'⟩ := hl.edits.of_cons_right
    have hpu := hp.le _ h
    have hpl := hp.le _ h'
    have hkeep : min p (min u l + 1) = p := by omega
    simp only [if_true, Nat.add_zero, hkeep, ite_self]
    refine ⟨.keep a hp.edits, fun n hn => ?_⟩
    have := hcases n hn
    omega
  · simp only [if_neg hab]
    cases r with
    | false =>
      refine ⟨hmin, fun n hn => ?_⟩
      simpa [hab] using hcases n hn
    | true =>
      simp only [if_true]
      refine ⟨?_, fun n hn => ?_⟩
      · rcases Nat.le_total (p + 1) (min u l + 1) with h | h
        · rw [Nat.min_eq_left h]
          exact .replace a b rfl hp.edits
        · rw [Nat.min_eq_right h]
          exact hmin
      · have := hcases n hn
        simp only [hab, false_and, false_or] at this
        omega

end Least
