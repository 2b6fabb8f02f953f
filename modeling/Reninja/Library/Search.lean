import Mathlib.Order.Basic

/-!
# Binary search over a predicate

Go's `sort.Search`: the loop halves `[0, n)` and returns the index where it ends. On a predicate
that is false and then true this is the first index where it holds; on any other predicate the
result depends only on the indices that were probed.
-/

namespace Search

open List

variable {f : Nat → Bool} {fuel i j : Nat} {n : Nat}

/-- The loop of `sort.Search` between `i` and `j`; `fuel` bounds the number of halvings. -/
def loop (f : Nat → Bool) : Nat → Nat → Nat → Nat
  | 0, i, _ => i
  | fuel + 1, i, j =>
    if i < j then
      let h := (i + j) / 2
      if f h then loop f fuel i h else loop f fuel (h + 1) j
    else
      i

/-- `sort.Search(n, f)`. -/
def search (n : Nat) (f : Nat → Bool) : Nat := loop f n 0 n

lemma loop_le (f : Nat → Bool) (hij : i ≤ j) : loop f fuel i j ≤ j := by
  induction fuel generalizing i j with
  | zero => exact hij
  | succ fuel ih =>
    rw [loop]
    by_cases hlt : i < j
    · rw [if_pos hlt]
      dsimp only
      split
      · have := ih (i := i) (j := (i + j) / 2) (by omega)
        omega
      · exact ih (by omega)
    · rw [if_neg hlt]
      exact hij

/-- Where the loop ends: the index before was probed and false, the index itself true, unless
they are the ends of the interval. -/
lemma loop_spec (f : Nat → Bool) (hij : i ≤ j) (hfuel : j - i ≤ fuel) :
    (loop f fuel i j = i ∨ f (loop f fuel i j - 1) = false) ∧
      (loop f fuel i j = j ∨ f (loop f fuel i j) = true) := by
  induction fuel generalizing i j with
  | zero => exact ⟨Or.inl rfl, Or.inl (by rw [loop]; omega)⟩
  | succ fuel ih =>
    rw [loop]
    by_cases hlt : i < j
    · rw [if_pos hlt]
      dsimp only
      by_cases hf : f ((i + j) / 2) = true
      · rw [if_pos hf]
        obtain ⟨hl, hr⟩ := ih (i := i) (j := (i + j) / 2) (by omega) (by omega)
        refine ⟨hl, Or.inr ?_⟩
        rcases hr with hr | hr
        · rwa [hr]
        · exact hr
      · rw [if_neg hf]
        obtain ⟨hl, hr⟩ := ih (i := (i + j) / 2 + 1) (j := j) (by omega) (by omega)
        refine ⟨Or.inr ?_, hr⟩
        rcases hl with hl | hl
        · rw [hl]
          simpa using hf
        · exact hl
    · rw [if_neg hlt]
      exact ⟨Or.inl rfl, Or.inl (by omega)⟩

/-- A search that finds nothing has looked at the last index. -/
lemma last_of_search_eq (h : search n f = n) (hn : n ≠ 0) : f (n - 1) = false := by
  have hl := (loop_spec f (Nat.zero_le n) (show n - 0 ≤ n by omega)).1
  rw [show loop f n 0 n = n from h] at hl
  exact hl.resolve_left hn

/-- A search finds nothing where there is nothing. -/
lemma search_eq_of_false (h : ∀ i < n, f i = false) : search n f = n := by
  rcases (loop_spec f (Nat.zero_le n) (show n - 0 ≤ n by omega)).2 with hr | hr
  · exact hr
  · by_contra hne
    have hle : loop f n 0 n ≤ n := loop_le f (Nat.zero_le n)
    have := h _ (Nat.lt_of_le_of_ne hle hne)
    rw [this] at hr
    exact absurd hr (by simp)

lemma search_le (f : Nat → Bool) (n : Nat) : search n f ≤ n := loop_le f (Nat.zero_le n)

/-- On a predicate that is false and then true, a search finds the border. -/
lemma lt_search_iff {n k : Nat} (hmono : ∀ i j, i < j → j < n → f i → f j) (hk : k < n) :
    k < search n f ↔ f k = false := by
  obtain ⟨hl, hr⟩ := loop_spec f (Nat.zero_le n) (show n - 0 ≤ n by omega)
  have hle := search_le f n
  change search n f = 0 ∨ f (search n f - 1) = false at hl
  change search n f = n ∨ f (search n f) = true at hr
  constructor
  · intro hlt
    rcases hl with hl | hl
    · omega
    · by_contra hf
      rw [Bool.not_eq_false] at hf
      rcases Nat.lt_or_ge k (search n f - 1) with hk' | hk'
      · rw [hmono k _ hk' (by omega) hf] at hl
        cases hl
      · rw [show search n f - 1 = k by omega, hf] at hl
        cases hl
  · intro hf
    by_contra hge
    rcases hr with hr | hr
    · omega
    · rcases Nat.lt_or_ge (search n f) k with hk' | hk'
      · rw [hmono _ k hk' hk hr] at hf
        cases hf
      · rw [show search n f = k by omega, hf] at hr
        cases hr

/-- The indices between `i` and `j` that the loop looks at while the predicate is false. -/
def probesFrom : Nat → Nat → Nat → List Nat
  | 0, _, _ => []
  | fuel + 1, i, j =>
    if i < j then (i + j) / 2 :: probesFrom fuel ((i + j) / 2 + 1) j else []

/-- The indices below `n` that a search looks at while the predicate is false. -/
def probes (n : Nat) : List Nat := probesFrom n 0 n

lemma loop_eq_iff (f : Nat → Bool) (hij : i ≤ j) (hfuel : j - i ≤ fuel) :
    loop f fuel i j = j ↔ ∀ k ∈ probesFrom fuel i j, f k = false := by
  induction fuel generalizing i with
  | zero =>
    have hj : i = j := by omega
    simp [loop, probesFrom, hj]
  | succ fuel ih =>
    rw [loop, probesFrom]
    by_cases hlt : i < j
    · simp only [if_pos hlt, forall_mem_cons]
      cases hf : f ((i + j) / 2) with
      | true =>
        have hle : loop f fuel i ((i + j) / 2) ≤ (i + j) / 2 := loop_le f (by omega)
        simp only [if_true, Bool.true_eq_false, false_and, iff_false]
        omega
      | false =>
        have htail := ih (i := (i + j) / 2 + 1) (by omega) (by omega)
        simpa using htail
    · simp only [if_neg hlt, not_mem_nil, false_imp_iff, implies_true, iff_true]
      omega

lemma lt_of_mem_probesFrom {fuel i j k : Nat} (h : k ∈ probesFrom fuel i j) : k < j := by
  induction fuel generalizing i with
  | zero => cases h
  | succ fuel ih =>
    rw [probesFrom] at h
    split at h
    next hlt =>
      rcases mem_cons.mp h with rfl | h
      · omega
      · exact ih h
    next => cases h

/-- A search finds nothing exactly when the predicate is false where it looks. -/
lemma search_eq_iff : search n f = n ↔ ∀ k ∈ probes n, f k = false :=
  loop_eq_iff f (Nat.zero_le n) (by omega)

section Insert

variable {α : Type} [DecidableEq α] (less : α → α → Bool) (d : α)

/-- Insert `a` before the first element that is less than `a`, unless it is there already. -/
def insert (l : List α) (a : α) : List α :=
  let i := search l.length fun k => less (l.getD k d) a
  if i ≠ 0 ∧ l[i - 1]? = some a then l else l.insertIdx i a

variable {less d} {l : List α} {a b : α}

omit [DecidableEq α] in
lemma insertIdx_eq {i : Nat} (h : i ≤ l.length) : l.insertIdx i a = l.take i ++ a :: l.drop i := by
  induction l generalizing i with
  | nil => simp [show i = 0 by simpa using h]
  | cons x l ih =>
    cases i with
    | zero => rfl
    | succ i => simp [ih (Nat.le_of_succ_le_succ h)]

lemma mem_insert : b ∈ insert less d l a ↔ b = a ∨ b ∈ l := by
  rw [insert]
  split
  · rename_i h
    have ha : a ∈ l := mem_of_getElem? h.2
    exact ⟨.inr, fun hb => hb.elim (fun h => h ▸ ha) id⟩
  · rw [mem_insertIdx (search_le _ _)]

omit [DecidableEq α] in
/-- In a list from the greatest to the least, the elements before the border are not less than
`a` and those after it are. -/
lemma less_iff_border [IsTrans α fun x y => less x y = true]
    (hl : l.Pairwise fun x y => less y x = true) {k : Nat} (hk : k < l.length) :
    k < (search l.length fun k => less (l.getD k d) a) ↔ less l[k] a = false := by
  have hget : ∀ i (hi : i < l.length), l.getD i d = l[i] := fun i hi => by
    rw [getD_eq_getElem?_getD, getElem?_eq_getElem hi, Option.getD_some]
  rw [lt_search_iff (fun i j hij hj hi => ?_) hk, hget k hk]
  rw [hget i (by omega)] at hi
  rw [hget j hj]
  exact IsTrans.trans (r := fun x y => less x y = true) _ _ _
    (pairwise_iff_getElem.mp hl i j (by omega) hj hij) hi

/-- Insertion keeps a list sorted and without duplicates. -/
lemma insert_sorted [IsTrans α fun x y => less x y = true]
    (htotal : ∀ x y, less x y = false → less y x = false → x = y)
    (hl : l.Pairwise fun x y => less y x = true) :
    (insert less d l a).Pairwise fun x y => less y x = true := by
  have hborder := fun k (hk : k < l.length) => less_iff_border (d := d) (a := a) hl hk
  rw [insert]
  generalize hi : (search l.length fun k => less (l.getD k d) a) = i at hborder ⊢
  have hle : i ≤ l.length := hi ▸ search_le _ _
  split
  · exact hl
  · rename_i hnew
    -- no element before the border is `a`: it would be the last one there
    have hbefore : ∀ x ∈ l.take i, less a x = true := by
      intro x hx
      obtain ⟨k, hk, rfl⟩ := mem_take_iff_getElem.mp hx
      have hki : k < i := by omega
      have hkl : k < l.length := by omega
      have hxa := (hborder k hkl).mp hki
      by_contra hax
      rw [Bool.not_eq_true] at hax
      have heq : l[k] = a := htotal _ _ hxa hax
      refine hnew ⟨by omega, ?_⟩
      rcases Nat.lt_or_ge k (i - 1) with hlt | hge
      · have hless : less l[i - 1] l[k] = true :=
          pairwise_iff_getElem.mp hl k (i - 1) hkl (by omega) hlt
        have hnot := (hborder (i - 1) (by omega)).mp (by omega)
        rw [heq, hnot] at hless
        cases hless
      · rw [show i - 1 = k by omega, getElem?_eq_getElem hkl, heq]
    have hafter : ∀ x ∈ l.drop i, less x a = true := by
      intro x hx
      obtain ⟨k, hk, rfl⟩ := mem_drop_iff_getElem.mp hx
      have hnot : ¬ k + i < i := by omega
      rw [hborder (k + i) (by omega), Bool.not_eq_false] at hnot
      simpa [Nat.add_comm] using hnot
    rw [insertIdx_eq hle]
    refine pairwise_append.mpr ⟨hl.sublist (take_sublist _ _),
      pairwise_cons.mpr ⟨hafter, hl.sublist (drop_sublist _ _)⟩, fun x hx y hy => ?_⟩
    rcases mem_cons.mp hy with rfl | hy
    · exact hbefore x hx
    · exact IsTrans.trans (r := fun x y => less x y = true) _ _ _ (hafter y hy) (hbefore x hx)

end Insert

end Search
