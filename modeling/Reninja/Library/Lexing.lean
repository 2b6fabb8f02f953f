import Mathlib.Computability.RegularExpressions

/-!
# Longest match

A scanner has rules, each a regular expression. It takes the longest front part of the text that
some rule matches, and of the rules that match it the first.
-/

namespace Lexing

open RegularExpression List

variable {α κ : Type*}
variable {cs x : List α}

/-- One word. -/
def literal (w : List α) : RegularExpression α := w.foldr (fun a P => char a * P) 1

/-- One letter out of a class. -/
def oneOf (cs : List α) : RegularExpression α := cs.foldr (fun a P => char a + P) 0

/-- Once or more. -/
def many (P : RegularExpression α) : RegularExpression α := P * P.star

@[simp] lemma mem_literal {w x : List α} : x ∈ (literal w).matches' ↔ x = w := by
  induction w generalizing x with
  | nil => exact Language.mem_one x
  | cons a w ih =>
    have hcons : literal (a :: w) = char a * literal w := rfl
    rw [hcons, matches'_mul, Language.mem_mul]
    constructor
    · rintro ⟨y, rfl, z, hz, rfl⟩
      rw [ih.mp hz, singleton_append]
    · rintro rfl
      exact ⟨[a], rfl, w, ih.mpr rfl, rfl⟩

@[simp] lemma mem_oneOf : x ∈ (oneOf cs).matches' ↔ ∃ c ∈ cs, x = [c] := by
  induction cs with
  | nil => exact iff_of_false (Language.notMem_zero x) (by simp)
  | cons a cs ih =>
    have hcons : oneOf (a :: cs) = char a + oneOf cs := rfl
    rw [hcons, matches'_add, Language.mem_add, ih, exists_mem_cons_iff]
    exact or_congr_left Iff.rfl

lemma mem_literal_star {w x : List α} :
    x ∈ (literal w).star.matches' ↔ ∃ n, x = (replicate n w).flatten := by
  rw [matches'_star, Language.mem_kstar]
  constructor
  · rintro ⟨ws, rfl, hws⟩
    exact ⟨ws.length, by rw [eq_replicate_of_mem fun y hy => mem_literal.mp (hws y hy),
      length_replicate]⟩
  · rintro ⟨n, rfl⟩
    exact ⟨_, rfl, fun y hy => mem_literal.mpr (eq_of_mem_replicate hy)⟩

lemma mem_oneOf_star : x ∈ (oneOf cs).star.matches' ↔ ∀ c ∈ x, c ∈ cs := by
  rw [matches'_star, Language.mem_kstar]
  constructor
  · rintro ⟨ws, rfl, hws⟩ c hc
    obtain ⟨w, hw, hcw⟩ := mem_flatten.mp hc
    obtain ⟨d, hd, rfl⟩ := mem_oneOf.mp (hws w hw)
    rwa [mem_singleton.mp hcw]
  · intro hx
    refine ⟨x.map ([·]), (flatMap_singleton' x).symm, ?_⟩
    intro w hw
    obtain ⟨c, hc, rfl⟩ := mem_map.mp hw
    exact mem_oneOf.mpr ⟨c, hx c hc, rfl⟩

lemma mem_many_literal {w x : List α} :
    x ∈ (many (literal w)).matches' ↔ ∃ n, x = (replicate (n + 1) w).flatten := by
  rw [many, matches'_mul, Language.mem_mul]
  constructor
  · rintro ⟨y, hy, z, hz, rfl⟩
    obtain ⟨n, rfl⟩ := mem_literal_star.mp hz
    exact ⟨n, by rw [mem_literal.mp hy, replicate_succ, flatten_cons]⟩
  · rintro ⟨n, rfl⟩
    exact ⟨w, mem_literal.mpr rfl, _, mem_literal_star.mpr ⟨n, rfl⟩, by
      rw [replicate_succ, flatten_cons]⟩

lemma mem_many_oneOf : x ∈ (many (oneOf cs)).matches' ↔ x ≠ [] ∧ ∀ c ∈ x, c ∈ cs := by
  rw [many, matches'_mul, Language.mem_mul]
  constructor
  · rintro ⟨y, hy, z, hz, rfl⟩
    obtain ⟨c, hc, rfl⟩ := mem_oneOf.mp hy
    refine ⟨by simp, ?_⟩
    intro d hd
    rcases mem_cons.mp hd with rfl | hd
    · exact hc
    · exact mem_oneOf_star.mp hz d hd
  · rintro ⟨hne, hx⟩
    obtain ⟨c, z, rfl⟩ := exists_cons_of_ne_nil hne
    exact ⟨[c], mem_oneOf.mpr ⟨c, hx c mem_cons_self, rfl⟩, z,
      mem_oneOf_star.mpr fun d hd => hx d (mem_cons_of_mem c hd), rfl⟩

variable [DecidableEq α]

/-- The first rule that matches a word. -/
def ruleFor (rules : List (κ × RegularExpression α)) (w : List α) : Option κ :=
  (rules.find? fun r => r.2.rmatch w).map Prod.fst

/-- The longest match of at most `n` letters. -/
def longestMatch (rules : List (κ × RegularExpression α)) (s : List α) : Nat → Option (κ × Nat)
  | 0 => none
  | n + 1 =>
    match ruleFor rules (s.take (n + 1)) with
    | some rule => some (rule, n + 1)
    | none => longestMatch rules s n

variable {rules : List (κ × RegularExpression α)} {s : List α}

lemma longestMatch_eq {rule : κ} {n : Nat} (hn : 0 < n)
    (hrule : ruleFor rules (s.take n) = some rule) {limit : Nat} (hle : n ≤ limit)
    (hlongest : ∀ m, n < m → m ≤ limit → ruleFor rules (s.take m) = none) :
    longestMatch rules s limit = some (rule, n) := by
  induction limit with
  | zero => omega
  | succ limit ih =>
    rw [longestMatch]
    rcases Nat.lt_or_ge n (limit + 1) with hlt | hge
    · rw [hlongest _ hlt (Nat.le_refl _)]
      exact ih (by omega) fun m hm hle => hlongest m hm (by omega)
    · obtain rfl : n = limit + 1 := by omega
      rw [hrule]

end Lexing
