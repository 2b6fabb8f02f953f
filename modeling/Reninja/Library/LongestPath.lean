import Mathlib.Data.List.Pairwise
import Mathlib.Order.Bounds.Basic
import Mathlib.Order.MinMax

/-!
# Longest paths

The weight of the longest chain from a node to a final one, found by going once through an order in
which a node comes before those it depends on, and raising their weights.
-/

namespace LongestPath

open List

section Defs

variable {α : Type*} (cost : α → Int) (deps : α → List α) (final : α → Prop)

/-- A chain from a node over nodes that depend on it, one on the other, to a final node, with the
sum of its costs. -/
inductive Chain : α → Int → Prop
  | last {a : α} (h : final a) : Chain a (cost a)
  | next {a b : α} {c : Int} (hdep : a ∈ deps b) (h : Chain b c) : Chain a (cost a + c)

variable [DecidableEq α]

/-- Raise the weight of a node that a node of weight `c` depends on. -/
def raise (c : Int) (weight : α → Int) (a : α) : α → Int :=
  if weight a < c + cost a then Function.update weight a (c + cost a) else weight

/-- Raise the weights of all nodes that `b` depends on. -/
def relax (weight : α → Int) (b : α) : α → Int := (deps b).foldl (raise cost (weight b)) weight

end Defs

variable {α : Type*} {cost : α → Int} {deps : α → List α} {final : α → Prop} {weight : α → Int}
  {a b : α} {c : Int}

lemma Chain.cost_le (hcost : ∀ a, 0 ≤ cost a) (h : Chain cost deps final a c) : cost a ≤ c := by
  induction h with
  | last _ => exact le_rfl
  | @next a b _ _ _ ih =>
    have := hcost b
    omega

variable [DecidableEq α]

lemma raise_ne (h : a ≠ b) : raise cost c weight b a = weight a := by
  rw [raise]
  split
  · exact Function.update_of_ne h _ _
  · rfl

lemma raise_self : raise cost c weight a a = max (weight a) (c + cost a) := by
  rw [raise]
  split
  next h => rw [Function.update_self, max_eq_right h.le]
  next h => rw [max_eq_left (Int.not_lt.mp h)]

lemma le_raise : weight a ≤ raise cost c weight b a := by
  by_cases h : a = b
  · subst h
    rw [raise_self]
    exact le_max_left _ _
  · rw [raise_ne h]

lemma le_foldl_raise (l : List α) : weight a ≤ l.foldl (raise cost c) weight a := by
  induction l generalizing weight with
  | nil => exact le_rfl
  | cons b l ih => exact le_raise.trans ih

lemma foldl_raise_of_notMem {l : List α} (h : a ∉ l) :
    l.foldl (raise cost c) weight a = weight a := by
  induction l generalizing weight with
  | nil => rfl
  | cons b l ih =>
    rw [foldl_cons, ih (not_mem_of_not_mem_cons h),
      raise_ne (ne_of_not_mem_cons h)]

lemma add_le_foldl_raise {l : List α} (h : a ∈ l) :
    c + cost a ≤ l.foldl (raise cost c) weight a := by
  induction l generalizing weight with
  | nil => cases h
  | cons b l ih =>
    rcases mem_cons.mp h with rfl | h
    · refine le_trans ?_ (le_foldl_raise l)
      rw [raise_self]
      exact le_max_right _ _
    · exact ih h

/-- A weight is the one before or a raised one. -/
lemma foldl_raise_eq (cost : α → Int) (c : Int) (weight : α → Int) (a : α) (l : List α) :
    l.foldl (raise cost c) weight a = weight a ∨
      a ∈ l ∧ l.foldl (raise cost c) weight a = c + cost a := by
  induction l generalizing weight with
  | nil => exact .inl rfl
  | cons b l ih =>
    rcases ih (raise cost c weight b) with h | ⟨hmem, h⟩
    · rw [foldl_cons, h]
      by_cases hab : a = b
      · subst hab
        rw [raise_self]
        exact (max_choice _ _).imp id fun h => ⟨mem_cons_self, h⟩
      · exact .inl (raise_ne hab)
    · exact .inr ⟨mem_cons_of_mem _ hmem, h⟩

variable {l done : List α}

/-- The weights of the nodes of `l` are between their costs and those of chains, and the nodes that
are done have raised what they depend on. -/
structure Relaxed (cost : α → Int) (deps : α → List α) (final : α → Prop) (l done : List α)
    (weight : α → Int) : Prop where
  cost_le : ∀ a ∈ l, cost a ≤ weight a
  le_chain : ∀ a ∈ l, ∃ c, Chain cost deps final a c ∧ weight a ≤ c
  raised : ∀ b ∈ done, ∀ a ∈ deps b, weight b + cost a ≤ weight a

lemma Relaxed.relax (h : Relaxed cost deps final l done weight) (hb : b ∈ l) (hirrefl : b ∉ deps b)
    (hdone : ∀ d ∈ done, d ∉ deps b) :
    Relaxed cost deps final l (b :: done) (relax cost deps weight b) where
  cost_le a ha := (h.cost_le a ha).trans (le_foldl_raise _)
  le_chain a ha := by
    rcases foldl_raise_eq cost (weight b) weight a (deps b) with heq | ⟨hmem, heq⟩
    · obtain ⟨c, hc, hle⟩ := h.le_chain a ha
      exact ⟨c, hc, heq.le.trans hle⟩
    · obtain ⟨c, hc, hle⟩ := h.le_chain b hb
      refine ⟨cost a + c, hc.next hmem, heq.le.trans ?_⟩
      omega
  raised d hd a ha := by
    -- neither `b` nor what was done before is raised now
    have hsame : LongestPath.relax cost deps weight b d = weight d := by
      rcases mem_cons.mp hd with rfl | hd
      · exact foldl_raise_of_notMem hirrefl
      · exact foldl_raise_of_notMem (hdone d hd)
    rw [hsame]
    rcases mem_cons.mp hd with rfl | hd
    · exact add_le_foldl_raise ha
    · exact (h.raised d hd a ha).trans (le_foldl_raise _)

lemma Relaxed.foldl {order : List α} (h : Relaxed cost deps final l done weight)
    (horder : ∀ b ∈ order, b ∈ l ∧ b ∉ deps b) (hdone : ∀ d ∈ done, ∀ b ∈ order, d ∉ deps b)
    (hsorted : order.Pairwise fun a b => a ∉ deps b) :
    Relaxed cost deps final l (order.reverse ++ done)
      (order.foldl (LongestPath.relax cost deps) weight) := by
  induction order generalizing done weight with
  | nil => exact h
  | cons b order ih =>
    obtain ⟨hb, horder⟩ := forall_mem_cons.mp horder
    obtain ⟨hfirst, hsorted⟩ := pairwise_cons.mp hsorted
    rw [reverse_cons, append_assoc]
    refine ih (h.relax hb.1 hb.2 fun d hd => hdone d hd b mem_cons_self) horder ?_ hsorted
    intro d hd x hx
    rcases mem_cons.mp hd with rfl | hd
    · exact hfirst x hx
    · exact hdone d hd x (mem_cons_of_mem _ hx)

omit [DecidableEq α] in
/-- If all nodes have raised what they depend on, no chain is longer than the weight. -/
lemma Relaxed.chain_le (h : Relaxed cost deps final l done weight)
    (hclosed : ∀ b ∈ l, ∀ a ∈ deps b, a ∈ l) (hfinal : ∀ a, final a → a ∈ l)
    (hdone : ∀ b ∈ l, b ∈ done) (hchain : Chain cost deps final a c) : a ∈ l ∧ c ≤ weight a := by
  induction hchain with
  | last ha => exact ⟨hfinal _ ha, h.cost_le _ (hfinal _ ha)⟩
  | next hdep _ ih =>
    obtain ⟨hb, hle⟩ := ih
    have := h.raised _ (hdone _ hb) _ hdep
    exact ⟨hclosed _ hb _ hdep, by omega⟩

/-- From the costs as weights, one way through the order finds the longest chains. -/
theorem isGreatest_foldl_relax (hcost : ∀ a, 0 ≤ cost a) (hclosed : ∀ b ∈ l, ∀ a ∈ deps b, a ∈ l)
    (hfinal : ∀ a, final a → a ∈ l) (hchain : ∀ a ∈ l, ∃ c, Chain cost deps final a c)
    (hirrefl : ∀ b ∈ l, b ∉ deps b) (hsorted : l.Pairwise fun a b => a ∉ deps b)
    (hweight : ∀ a ∈ l, weight a = cost a) (ha : a ∈ l) :
    IsGreatest {c | Chain cost deps final a c} (l.foldl (relax cost deps) weight a) := by
  have hstart : Relaxed cost deps final l [] weight :=
    { cost_le := fun a ha => (hweight a ha).ge
      le_chain := fun a ha => by
        obtain ⟨c, hc⟩ := hchain a ha
        exact ⟨c, hc, (hweight a ha).le.trans (hc.cost_le hcost)⟩
      raised := fun b hb => absurd hb not_mem_nil }
  have hend := hstart.foldl (fun b hb => ⟨hb, hirrefl b hb⟩)
    (fun d hd => absurd hd not_mem_nil) hsorted
  have hupper : ∀ c, Chain cost deps final a c → c ≤ l.foldl (relax cost deps) weight a :=
    fun c hc => (hend.chain_le hclosed hfinal (by simp) hc).2
  obtain ⟨c, hc, hle⟩ := hend.le_chain a ha
  have heq : l.foldl (relax cost deps) weight a = c := le_antisymm hle (hupper c hc)
  exact ⟨heq ▸ hc, hupper⟩

end LongestPath
