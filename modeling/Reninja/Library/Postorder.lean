import Mathlib.Data.Set.Card
import Reninja.Library.Acyclic

/-!
# Walks in post-order

A depth-first walk that marks an element when it comes to it and lists it when all that the
element leads to has been visited. Because of the marks the walk ends on every finite graph, also
on one with cycles. Without cycles each element is listed after all that it leads to.
-/

namespace Postorder

open Relation Filter List

variable {α : Type*}

/-- The elements that the walk has come to, and those it has left, in this order. -/
structure Tour (α : Type*) where
  visited : List α := []
  listed : List α := []

namespace Tour

def mark (w : Tour α) (a : α) : Tour α := { w with visited := a :: w.visited }

def list (w : Tour α) (a : α) : Tour α := { w with listed := w.listed ++ [a] }

end Tour

/-- Visit an element, if the walk has not been there. -/
def visit [DecidableEq α] (next : α → List α) : Nat → Tour α → α → Option (Tour α)
  | 0, _, _ => none
  | fuel + 1, w, a =>
    if a ∈ w.visited then some w
    else ((next a).foldlM (visit next fuel) (w.mark a)).map (·.list a)

section

variable {next : α → List α} {w w' w'' : Tour α} {a b : α} {as : List α}

variable (next) in
/-- One element leads to another. -/
def Leads (a b : α) : Prop := b ∈ next a
variable {f : Tour α → α → Option (Tour α)} {new : List α} {S : Finset α}

/-- What a visit of the elements `as` adds to a walk: it lists `new`, which the walk has not come
to before. -/
structure Adds (next : α → List α) (as : List α) (w : Tour α) (new : List α) (w' : Tour α) :
    Prop where
  listed : w'.listed = w.listed ++ new
  visited : ∀ x, x ∈ w'.visited ↔ x ∈ new ∨ x ∈ w.visited
  nodup : new.Nodup
  fresh : ∀ x ∈ new, x ∉ w.visited
  targets : ∀ a ∈ as, a ∈ w'.visited
  closed : ∀ x ∈ new, ∀ y ∈ next x, y ∈ w'.visited
  reached : ∀ x ∈ new, ∃ a ∈ as, ReflTransGen (Leads next) a x
  ordered : (∀ a, ¬ TransGen (Leads next) a a) →
    ∀ l x r, new = l ++ x :: r → ∀ y ∈ next x, y ∈ w.visited ∨ y ∈ l

lemma Adds.nil (w : Tour α) : Adds next [] w [] w where
  listed := (append_nil _).symm
  visited x := by simp
  nodup := nodup_nil
  fresh := nofun
  targets := nofun
  closed := nofun
  reached := nofun
  ordered _ l x r h := by simp at h

/-- An element that has been visited. -/
lemma Adds.old (h : a ∈ w.visited) : Adds next [a] w [] w :=
  { @Adds.nil _ next w with
    targets := by simpa using h
    reached := nofun }

lemma Adds.cons {new new' : List α} (h₁ : Adds next [a] w new w') (h₂ : Adds next as w' new' w'') :
    Adds next (a :: as) w (new ++ new') w'' where
  listed := by rw [h₂.listed, h₁.listed, append_assoc]
  visited x := by
    rw [h₂.visited, h₁.visited, mem_append]
    tauto
  nodup := by
    refine nodup_append.mpr ⟨h₁.nodup, h₂.nodup, ?_⟩
    rintro x hx y hy rfl
    exact h₂.fresh x hy ((h₁.visited x).mpr (.inl hx))
  fresh x hx hw := by
    rcases mem_append.mp hx with hx | hx
    · exact h₁.fresh x hx hw
    · exact h₂.fresh x hx ((h₁.visited x).mpr (.inr hw))
  targets := by
    refine forall_mem_cons.mpr ⟨?_, h₂.targets⟩
    exact (h₂.visited a).mpr (.inr (h₁.targets a mem_cons_self))
  closed x hx y hy := by
    rcases mem_append.mp hx with hx | hx
    · exact (h₂.visited y).mpr (.inr (h₁.closed x hx y hy))
    · exact h₂.closed x hx y hy
  reached x hx := by
    rcases mem_append.mp hx with hx | hx
    · obtain ⟨b, hb, hbx⟩ := h₁.reached x hx
      exact ⟨a, mem_cons_self, mem_singleton.mp hb ▸ hbx⟩
    · obtain ⟨b, hb, hbx⟩ := h₂.reached x hx
      exact ⟨b, mem_cons_of_mem a hb, hbx⟩
  ordered hacyclic l x r h y hy := by
    rcases append_eq_append_iff.mp h with ⟨m, rfl, hr⟩ | ⟨m, rfl, hr⟩
    · rcases h₂.ordered hacyclic m x r hr y hy with hy | hy
      · rcases (h₁.visited y).mp hy with hy | hy
        · exact .inr (mem_append_left m hy)
        · exact .inl hy
      · exact .inr (mem_append_right new hy)
    · cases m with
      | nil =>
        simp only [nil_append] at hr
        rcases h₂.ordered hacyclic [] x r hr.symm y hy with hy | hy
        · rcases (h₁.visited y).mp hy with hy | hy
          · exact .inr (by simpa using hy)
          · exact .inl hy
        · cases hy
      | cons z m =>
        obtain ⟨rfl, rfl⟩ := cons.inj hr
        exact h₁.ordered hacyclic l x m rfl y hy

lemma foldlM_adds (hf : ∀ w a w', f w a = some w' → ∃ new, Adds next [a] w new w')
    (h : as.foldlM f w = some w') : ∃ new, Adds next as w new w' := by
  induction as generalizing w with
  | nil =>
    obtain rfl : w = w' := Option.some.inj h
    exact ⟨[], .nil w⟩
  | cons a as ih =>
    obtain ⟨w₁, h₁, h₂⟩ := Option.bind_eq_some_iff.mp h
    obtain ⟨new, hnew⟩ := hf w a w₁ h₁
    obtain ⟨new', hnew'⟩ := ih h₂
    exact ⟨new ++ new', hnew.cons hnew'⟩

/-- The element is listed last. On a graph without cycles nothing that was listed meanwhile leads
back to it. -/
lemma Adds.leave (ha : a ∉ w.visited) (h : Adds next (next a) (w.mark a) new w') :
    Adds next [a] w (new ++ [a]) (w'.list a) where
  listed := by
    rw [Tour.list, h.listed, append_assoc]
    rfl
  visited x := by
    simp only [Tour.list, h.visited, Tour.mark, mem_append, mem_cons, not_mem_nil,
      or_false]
    tauto
  nodup := by
    refine nodup_append.mpr ⟨h.nodup, nodup_singleton a, ?_⟩
    rintro x hx y hy rfl
    exact h.fresh x hx (mem_singleton.mp hy ▸ mem_cons_self)
  fresh x hx := by
    rcases mem_append.mp hx with hx | hx
    · exact fun hw => h.fresh x hx (mem_cons_of_mem a hw)
    · exact mem_singleton.mp hx ▸ ha
  targets := by
    rintro b hb
    obtain rfl := mem_singleton.mp hb
    exact (h.visited b).mpr (.inr mem_cons_self)
  closed x hx := by
    rcases mem_append.mp hx with hx | hx
    · exact h.closed x hx
    · exact mem_singleton.mp hx ▸ h.targets
  reached x hx := by
    refine ⟨a, mem_cons_self, ?_⟩
    rcases mem_append.mp hx with hx | hx
    · obtain ⟨b, hb, hbx⟩ := h.reached x hx
      exact .head hb hbx
    · rw [mem_singleton.mp hx]
  ordered hacyclic l x r hsplit y hy := by
    rcases eq_nil_or_concat r with rfl | ⟨r, z, rfl⟩
    · obtain ⟨rfl, hax⟩ := append_inj' hsplit rfl
      obtain rfl := singleton_inj.mp hax
      rcases (h.visited y).mp (h.targets y hy) with hy' | hy'
      · exact .inr hy'
      · rcases mem_cons.mp hy' with rfl | hy'
        · exact absurd (.single hy) (hacyclic y)
        · exact .inl hy'
    · rw [concat_eq_append, ← cons_append, ← append_assoc] at hsplit
      obtain ⟨rfl, -⟩ := append_inj' hsplit rfl
      rcases h.ordered hacyclic l x r rfl y hy with hy' | hy'
      · rcases mem_cons.mp hy' with rfl | hy'
        · obtain ⟨b, hb, hbx⟩ := h.reached x (by simp)
          exact absurd (.tail' (.head hb hbx) hy) (hacyclic y)
        · exact .inl hy'
      · exact .inr hy'

/-- The list of a walk from `as`: all that can be reached from there, each element once, and
without cycles after all that it leads to. -/
structure IsPostorder (next : α → List α) (as xs : List α) : Prop where
  nodup : xs.Nodup
  mem_iff : ∀ x, x ∈ xs ↔ ∃ a ∈ as, ReflTransGen (Leads next) a x
  after : (∀ a, ¬ TransGen (Leads next) a a) →
    ∀ l x r, xs = l ++ x :: r → ∀ y, TransGen (Leads next) x y → y ∈ l

lemma Adds.isPostorder (h : Adds next as {} new w') : IsPostorder next as w'.listed := by
  have hlisted : w'.listed = new := by rw [h.listed]; rfl
  have hvisited : ∀ x, x ∈ w'.visited ↔ x ∈ new := fun x => by simp [h.visited]
  rw [hlisted]
  refine ⟨h.nodup, fun x => ⟨h.reached x, ?_⟩, ?_⟩
  · rintro ⟨a, ha, hax⟩
    induction hax with
    | refl => exact (hvisited a).mp (h.targets a ha)
    | tail _ hbc ih => exact (hvisited _).mp (h.closed _ ih _ hbc)
  · intro hacyclic l x r hsplit y hxy
    induction hxy with
    | single hy => exact (h.ordered hacyclic l x r hsplit _ hy).resolve_left nofun
    | @tail y z _ hz ih =>
      obtain ⟨l₁, l₂, rfl⟩ := append_of_mem ih
      have hz' := h.ordered hacyclic l₁ y (l₂ ++ x :: r) (by simp [hsplit]) z hz
      exact mem_append_left _ (hz'.resolve_left nofun)

/-- Also of the elements that are kept by a filter each comes after all that it leads to. -/
lemma IsPostorder.mem_of_filter {xs l r : List α} {x y : α} {p : α → Bool}
    (h : IsPostorder next as xs) (hacyclic : ∀ a, ¬ TransGen (Leads next) a a)
    (hsplit : xs.filter p = l ++ x :: r) (hxy : TransGen (Leads next) x y) (hy : p y = true) :
    y ∈ l := by
  obtain ⟨xs₁, xs₂, rfl, rfl, h₂⟩ := filter_eq_append_iff.mp hsplit
  obtain ⟨m, xs₃, rfl, hm, -, -⟩ := filter_eq_cons_iff.mp h₂
  have hmem := h.after hacyclic (xs₁ ++ m) x xs₃ (by simp) y hxy
  rcases mem_append.mp hmem with hmem | hmem
  · exact mem_filter.mpr ⟨hmem, hy⟩
  · exact absurd hy (hm y hmem)

/-- A loop whose body returns and keeps `P`. -/
lemma foldlM_isSome {P : Tour α → Prop} (hf : ∀ w, P w → ∀ a ∈ as, ∃ w', f w a = some w' ∧ P w')
    (hw : P w) : ∃ w', as.foldlM f w = some w' ∧ P w' := by
  induction as generalizing w with
  | nil => exact ⟨w, rfl, hw⟩
  | cons a as ih =>
    obtain ⟨w₁, h₁, hw₁⟩ := hf w hw a mem_cons_self
    obtain ⟨w₂, h₂, hw₂⟩ := ih (fun w hw b hb => hf w hw b (mem_cons_of_mem a hb)) hw₁
    exact ⟨w₂, by rw [foldlM_cons, h₁]; exact h₂, hw₂⟩

lemma foldlM_mono {f g : Tour α → α → Option (Tour α)}
    (hfg : ∀ w a w', f w a = some w' → g w a = some w') (h : as.foldlM f w = some w') :
    as.foldlM g w = some w' := by
  induction as generalizing w with
  | nil => exact h
  | cons a as ih =>
    obtain ⟨w₁, h₁, h₂⟩ := Option.bind_eq_some_iff.mp h
    rw [foldlM_cons, hfg w a w₁ h₁]
    exact ih h₂

variable [DecidableEq α] {fuel : Nat}

/-- A visit that returns. -/
lemma visit_adds (h : visit next fuel w a = some w') : ∃ new, Adds next [a] w new w' := by
  induction fuel generalizing w w' a with
  | zero => cases h
  | succ fuel ih =>
    rw [visit] at h
    by_cases ha : a ∈ w.visited
    · rw [if_pos ha] at h
      obtain rfl : w = w' := Option.some.inj h
      exact ⟨[], .old ha⟩
    · rw [if_neg ha] at h
      obtain ⟨w₁, h₁, rfl⟩ := Option.map_eq_some_iff.mp h
      obtain ⟨new, hnew⟩ := foldlM_adds (fun _ _ _ => ih) h₁
      exact ⟨new ++ [a], hnew.leave ha⟩

/-- The elements that a walk has not come to. -/
def unvisited (S : Finset α) (w : Tour α) : Finset α := S.filter (· ∉ w.visited)

lemma unvisited_subset (h : ∀ x ∈ w.visited, x ∈ w'.visited) : unvisited S w' ⊆ unvisited S w :=
  fun x hx => Finset.mem_filter.mpr
    ⟨(Finset.mem_filter.mp hx).1, fun hw => (Finset.mem_filter.mp hx).2 (h x hw)⟩

/-- Every call marks an element, so that the walk goes no deeper than there are elements left. -/
lemma visit_ends {S : Finset α} (hS : ∀ a b, b ∈ next a → b ∈ S) (ha : a ∈ S)
    (hfuel : (unvisited S w).card < fuel) : ∃ w', visit next fuel w a = some w' := by
  induction fuel generalizing w a with
  | zero => exact absurd hfuel (Nat.not_lt_zero _)
  | succ fuel ih =>
    rw [visit]
    by_cases hmem : a ∈ w.visited
    · exact ⟨w, if_pos hmem⟩
    rw [if_neg hmem]
    have hless : (unvisited S (w.mark a)).card < (unvisited S w).card := by
      refine Finset.card_lt_card ⟨unvisited_subset fun x hx => mem_cons_of_mem a hx, ?_⟩
      intro hsub
      have := hsub (Finset.mem_filter.mpr ⟨ha, hmem⟩)
      exact (Finset.mem_filter.mp this).2 mem_cons_self
    have hfold : ∃ w', (next a).foldlM (visit next fuel) (w.mark a) = some w' ∧
        (unvisited S w').card < fuel := by
      refine foldlM_isSome (P := fun w' => (unvisited S w').card < fuel) (fun w₁ hw₁ b hb => ?_) ?_
      · obtain ⟨w₂, h₂⟩ := ih (hS a b hb) hw₁
        obtain ⟨new, hnew⟩ := visit_adds h₂
        refine ⟨w₂, h₂, Nat.lt_of_le_of_lt (Finset.card_le_card (unvisited_subset ?_)) hw₁⟩
        exact fun x hx => (hnew.visited x).mpr (.inr hx)
      · omega
    obtain ⟨w', hw', -⟩ := hfold
    exact ⟨w'.list a, by rw [hw']; rfl⟩

/-- More fuel does not change a walk that returns. -/
lemma visit_mono {fuel' : Nat} (hle : fuel ≤ fuel') (h : visit next fuel w a = some w') :
    visit next fuel' w a = some w' := by
  induction fuel generalizing fuel' w w' a with
  | zero => cases h
  | succ fuel ih =>
    obtain ⟨k, rfl⟩ : ∃ k, fuel' = k + 1 := ⟨fuel' - 1, by omega⟩
    rw [visit] at h ⊢
    split_ifs at h ⊢ with ha
    · exact h
    · obtain ⟨w₁, h₁, rfl⟩ := Option.map_eq_some_iff.mp h
      rw [foldlM_mono (fun _ _ _ => ih (Nat.le_of_succ_le_succ hle)) h₁]
      rfl

/-- A walk from any elements of a finite graph ends, and lists what it should. -/
theorem exists_isPostorder {s : Set α} (hs : s.Finite) (hnext : ∀ a b, b ∈ next a → b ∈ s)
    (as : List α) : ∃ w', (∀ᶠ fuel in atTop, as.foldlM (visit next fuel) {} = some w') ∧
      IsPostorder next as w'.listed := by
  let S : Finset α := hs.toFinset ∪ as.toFinset
  have hS : ∀ a b, b ∈ next a → b ∈ S := fun a b hb =>
    Finset.mem_union_left _ (hs.mem_toFinset.mpr (hnext a b hb))
  have hends : ∃ w', as.foldlM (visit next (S.card + 1)) {} = some w' ∧ True := by
    refine foldlM_isSome (P := fun _ => True) (fun w _ a ha => ?_) trivial
    have hcard : (unvisited S w).card < S.card + 1 :=
      Nat.lt_succ_of_le (Finset.card_le_card (Finset.filter_subset _ _))
    obtain ⟨w', hw'⟩ := visit_ends hS (Finset.mem_union_right _ (mem_toFinset.mpr ha)) hcard
    exact ⟨w', hw', trivial⟩
  obtain ⟨w', hw', -⟩ := hends
  obtain ⟨new, hnew⟩ := foldlM_adds (fun _ _ _ => visit_adds) hw'
  refine ⟨w', eventually_atTop.mpr ⟨S.card + 1, fun fuel hfuel => ?_⟩, hnew.isPostorder⟩
  exact foldlM_mono (fun _ _ _ => visit_mono hfuel) hw'

/-- A step of a program, with a state that `R` relates to walks, does at `i` what a visit of `k i`
does, or nothing if `k i` is nothing. -/
def Simulates {σ ι : Type*} (R : σ → Tour α → Prop) (k : ι → Option α)
    (visit : Tour α → α → Option (Tour α)) (f : σ → ι → Option σ) : Prop :=
  ∀ i c w w', R c w → (k i).elim (some w) (visit w) = some w' → ∃ c', f c i = some c' ∧ R c' w'

omit [DecidableEq α] in
/-- The rule for loops. -/
lemma Simulates.foldlM {σ ι : Type*} {R : σ → Tour α → Prop} {k : ι → Option α}
    {visit : Tour α → α → Option (Tour α)} {f : σ → ι → Option σ} (hf : Simulates R k visit f)
    {is : List ι} {c : σ} (hc : R c w) (h : (is.filterMap k).foldlM visit w = some w') :
    ∃ c', is.foldlM f c = some c' ∧ R c' w' := by
  induction is generalizing c w with
  | nil =>
    obtain rfl : w = w' := Option.some.inj h
    exact ⟨c, rfl, hc⟩
  | cons i is ih =>
    have hstep : ∃ w₁, (k i).elim (some w) (visit w) = some w₁ ∧
        (is.filterMap k).foldlM visit w₁ = some w' := by
      cases hk : k i with
      | none =>
        rw [filterMap_cons_none hk] at h
        exact ⟨w, rfl, h⟩
      | some a =>
        rw [filterMap_cons_some hk] at h
        exact Option.bind_eq_some_iff.mp h
    obtain ⟨w₁, h₁, h₂⟩ := hstep
    obtain ⟨c₁, hc₁, hR⟩ := hf i c w w₁ hc h₁
    obtain ⟨c₂, hc₂, hR'⟩ := ih hR h₂
    exact ⟨c₂, by rw [foldlM_cons, hc₁]; exact hc₂, hR'⟩

end

end Postorder
