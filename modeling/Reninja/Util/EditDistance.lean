import Reninja.Graph.Basic
import Reninja.Library.Edits

/-!
# Edit distance

`EditDistance` of `internal/edit_distance` fills a table row by row in one array, and gives up when
all entries of a row are above the bound.
-/

namespace Reninja.Util

open List

/-- The entry of a row: `left` is the one before it, `up` the one above and `previous` the one
above that. -/
def cell (allowReplacements prevEqual : Bool) (previous left up : Nat) : Nat :=
  if allowReplacements then min (previous + if prevEqual then 0 else 1) (min left up + 1)
  else if prevEqual then previous else min left up + 1

/-- The loop over the letters of the second word: the array from the current entry on holds the row
above, and is overwritten. The result is the new row and the best entry of it. -/
def fillRow (allowReplacements : Bool) (c : UInt8) :
    GoString → List Nat → Nat → Nat → Nat → List Nat × Nat
  | d :: s₂, up :: row, left, previous, bestThisRow =>
    let entry := cell allowReplacements (c = d) previous left up
    let (row, best) := fillRow allowReplacements c s₂ row entry up (min bestThisRow entry)
    (entry :: row, best)
  | _, _, _, _, bestThisRow => ([], bestThisRow)

/-- The loop over the letters of the first word. `y` is the number of the row, `row` the array
without its first entry, which is `y - 1`. -/
def fillRows (allowReplacements : Bool) (maxEditDistance : Int) (s₂ : GoString) :
    GoString → Nat → List Nat → Int
  | [], y, row => row.getLastD (y - 1)
  | c :: s₁, y, row =>
    let (row, bestThisRow) := fillRow allowReplacements c s₂ row y (y - 1) y
    if 0 < maxEditDistance ∧ maxEditDistance < bestThisRow then maxEditDistance + 1
    else fillRows allowReplacements maxEditDistance s₂ s₁ (y + 1) row

def editDistance (s₁ s₂ : GoString) (allowReplacements : Bool) (maxEditDistance : Int) : Int :=
  fillRows allowReplacements maxEditDistance s₂ s₁ 1 (range' 1 s₂.length)

/-- The entries of a row are the distances of `s` from the words that end in `t` and begin with one
letter more of the rest each time. Words are read backwards. -/
def Row (r : Bool) (s : GoString) : GoString → GoString → List Nat → Prop
  | _, [], [] => True
  | t, d :: u, v :: l => Least r s (d :: t) v ∧ Row r s (d :: t) u l
  | _, _, _ => False

variable {r : Bool} {s t u : GoString} {c : UInt8} {row : List Nat} {left previous y : Nat}

lemma row_range (r : Bool) (t u : GoString) :
    Row r [] t u (range' (t.length + 1) u.length) := by
  induction u generalizing t with
  | nil => exact trivial
  | cons d u ih => exact ⟨.nil_left r (d :: t), ih (d :: t)⟩

lemma Row.last (h : Row r s t u row) (ht : Least r s t left) :
    Least r s (u.reverse ++ t) (row.getLastD left) := by
  induction u generalizing t row left with
  | nil =>
    cases row with
    | nil => simpa using ht
    | cons v row => exact h.elim
  | cons d u ih =>
    cases row with
    | nil => exact h.elim
    | cons v row =>
      rw [getLastD_cons, reverse_cons, append_assoc, singleton_append]
      exact ih h.2 h.1

lemma Row.fill (best : Nat) (h : Row r s t u row) (hleft : Least r (c :: s) t left)
    (hprevious : Least r s t previous) :
    let next := fillRow r c u row left previous best
    Row r (c :: s) t u next.1 ∧ next.2 ≤ best ∧ ∀ v ∈ next.1, next.2 ≤ v := by
  induction u generalizing t row left previous best with
  | nil =>
    cases row with
    | nil => simp [fillRow, Row]
    | cons v row => exact h.elim
  | cons d u ih =>
    cases row with
    | nil => exact h.elim
    | cons up row =>
      have hentry : Least r (c :: s) (d :: t) (cell r (c = d) previous left up) := by
        have := Least.cons hprevious hleft h.1
        simpa only [cell, decide_eq_true_eq] using this
      obtain ⟨hrow, hle, hall⟩ := ih (min best (cell r (c = d) previous left up)) h.2 hentry h.1
      refine ⟨⟨hentry, hrow⟩, hle.trans (Nat.min_le_left _ _), ?_⟩
      intro v hv
      rcases mem_cons.mp hv with rfl | hv
      · exact hle.trans (Nat.min_le_right _ _)
      · exact hall v hv

lemma Row.exists_entry (h : Row r s t u row) (ht : Least r s t left) {t₁ t₂ : GoString}
    (hsplit : u.reverse ++ t = t₁ ++ t₂) (hlen : t.length ≤ t₂.length) :
    ∃ v ∈ left :: row, Least r s t₂ v := by
  induction u generalizing t row left with
  | nil =>
    have ht₂ : t = t₂ := append_inj_right' hsplit (by
      have := congrArg length hsplit
      rw [length_append, length_append, reverse_nil, length_nil] at this
      omega)
    exact ⟨left, mem_cons_self, ht₂ ▸ ht⟩
  | cons d u ih =>
    cases row with
    | nil => exact h.elim
    | cons v row =>
      rw [reverse_cons, append_assoc, singleton_append] at hsplit
      rcases Nat.lt_or_eq_of_le hlen with hlt | heq
      · obtain ⟨w, hw, hleast⟩ := ih h.2 h.1 hsplit hlt
        exact ⟨w, mem_cons_of_mem _ hw, hleast⟩
      · rw [← singleton_append, ← append_assoc] at hsplit
        exact ⟨left, mem_cons_self, append_inj_right' hsplit heq ▸ ht⟩

/-- The result of the loops for a distance `d`: above the bound both are, or they are the same. -/
def Bounded (maxEditDistance d : Int) (result : Int) : Prop :=
  (maxEditDistance ≤ 0 → result = d) ∧
    (0 < maxEditDistance →
      (result ≤ maxEditDistance ↔ d ≤ maxEditDistance) ∧ (d ≤ maxEditDistance → result = d))

lemma Bounded.refl (k d : Int) : Bounded k d d := ⟨fun _ => rfl, fun _ => ⟨Iff.rfl, fun _ => rfl⟩⟩

lemma fillRows_bounded (k : Int) {s₁ s₂ : GoString} {d : Nat} (hrow : Row r s [] s₂ row)
    (hy : y = s.length + 1) (hd : Least r (s₁.reverse ++ s) s₂.reverse d) :
    Bounded k d (fillRows r k s₂ s₁ y row) := by
  have hfirst : Least r s [] (y - 1) := by
    rw [hy]
    exact .nil_right r s
  induction s₁ generalizing s row y with
  | nil =>
    have hlast := hrow.last hfirst
    rw [append_nil] at hlast
    rw [fillRows, hlast.unique hd]
    exact .refl k d
  | cons c s₁ ih =>
    have hnext : Least r (c :: s) [] y := by
      rw [hy]
      exact .nil_right r (c :: s)
    obtain ⟨hfilled, hle, hall⟩ := hrow.fill y hnext hfirst
    rw [reverse_cons, append_assoc, singleton_append] at hd
    rw [fillRows]
    dsimp only
    split_ifs with hstop
    · -- every way to the last entry goes through this row
      obtain ⟨t₁, t₂, m, hsplit, hm, hmd⟩ := hd.edits.exists_row
      rw [← append_nil s₂.reverse] at hsplit
      obtain ⟨v, hv, hleast⟩ := hfilled.exists_entry hnext hsplit (Nat.zero_le _)
      have hvm := hleast.le m hm
      have hbest : (fillRow r c s₂ row y (y - 1) y).2 ≤ v := by
        rcases mem_cons.mp hv with rfl | hv
        · exact hle
        · exact hall v hv
      refine ⟨fun h => ?_, fun _ => ⟨?_, fun h => ?_⟩⟩ <;> omega
    · exact ih hfilled (by rw [hy, length_cons]) hd hnext

/-- Without a bound the result is the edit distance; with one it is, unless both are above the
bound. -/
theorem editDistance_bounded (s₁ s₂ : GoString) (allowReplacements : Bool) :
    ∃ d : Nat, Least allowReplacements s₁ s₂ d ∧ editDistance s₁ s₂ allowReplacements 0 = d ∧
      ∀ k : Int, 0 < k → (editDistance s₁ s₂ allowReplacements k ≤ k ↔ (d : Int) ≤ k) ∧
        ((d : Int) ≤ k → editDistance s₁ s₂ allowReplacements k = d) := by
  obtain ⟨d, hd⟩ := Least.exists_least allowReplacements s₁ s₂
  have hall : ∀ k, Bounded k d (editDistance s₁ s₂ allowReplacements k) := fun k =>
    fillRows_bounded k (row_range allowReplacements [] s₂) rfl
      (by rw [append_nil]; exact hd.reverse)
  exact ⟨d, hd, (hall 0).1 (Int.le_refl 0), fun k hk => (hall k).2 hk⟩

end Reninja.Util
