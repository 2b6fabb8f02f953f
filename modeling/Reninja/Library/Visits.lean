import Reninja.Library.Acyclic

/-!
# Marking after the visit

A depth-first walk that marks an element when all that it leads to has been visited. The elements
on the way from the start are not marked yet, so the walk does not see that it comes back to one
of them: it ends exactly if there is no cycle ahead of the start.
-/

namespace Visits

open Relation Filter List

variable {α : Type*}

/-- Visit those elements of a list that are not marked. -/
def visitEach [DecidableEq α] (visit : α → List α → Option (List α)) :
    List α → List α → Option (List α)
  | [], marked => some marked
  | b :: bs, marked =>
    (if b ∈ marked then some marked else visit b marked).bind (visitEach visit bs)

/-- Visit an element: first what it leads to, then it is marked. -/
def visit [DecidableEq α] (next : α → List α) : Nat → α → List α → Option (List α)
  | 0, _, _ => none
  | fuel + 1, a, marked => (visitEach (visit next fuel) (next a) marked).map (· ++ [a])

section Visits

variable {next : α → List α} {a b : α} {marked marked' : List α} {fuel : Nat}

variable (next) in
/-- One element leads to another. -/
def Leads (a b : α) : Prop := b ∈ next a

variable (next) in
/-- There is a cycle ahead. -/
def Endless (a : α) : Prop := ∃ b, ReflTransGen (Leads next) a b ∧ TransGen (Leads next) b b

variable (next) in
/-- What marked elements lead to is marked. -/
def Closed (marked : List α) : Prop := ∀ a ∈ marked, ∀ b ∈ next a, b ∈ marked
variable {f : α → List α → Option (List α)}

lemma Closed.mem (h : Closed next marked) (ha : a ∈ marked) (hab : ReflTransGen (Leads next) a b) :
    b ∈ marked := by
  induction hab with
  | refl => exact ha
  | tail _ hbc ih => exact h _ ih _ hbc

/-- A cycle ahead of an element is ahead of something that it leads to. -/
lemma Endless.exists_next (h : Endless next a) : ∃ b ∈ next a, Endless next b := by
  obtain ⟨c, hac, hcc⟩ := h
  rcases ReflTransGen.cases_head hac with rfl | ⟨b, hab, hbc⟩
  · obtain ⟨b, hab, hba⟩ := TransGen.head'_iff.mp hcc
    exact ⟨b, hab, a, hba, hcc⟩
  · exact ⟨b, hab, c, hbc, hcc⟩

/-- What a visit that ends leaves: the marks of before, one for the element, and none from which a
cycle is ahead. -/
structure Done (next : α → List α) (targets marked marked' : List α) : Prop where
  keeps : marked ⊆ marked'
  targets : targets ⊆ marked'
  closed : Closed next marked → Closed next marked'
  endless : (∀ b ∈ marked, ¬ Endless next b) → ∀ b ∈ marked', ¬ Endless next b

lemma Done.refl (marked : List α) : Done next [] marked marked :=
  ⟨fun _ h => h, nofun, id, id⟩

lemma Done.cons {bs marked'' : List α} (h₁ : Done next [b] marked marked')
    (h₂ : Done next bs marked' marked'') : Done next (b :: bs) marked marked'' where
  keeps := List.Subset.trans h₁.keeps h₂.keeps
  targets := cons_subset.mpr ⟨h₂.keeps (h₁.targets mem_cons_self), h₂.targets⟩
  closed := h₂.closed ∘ h₁.closed
  endless := h₂.endless ∘ h₁.endless

variable [DecidableEq α]

lemma visitEach_done (hf : ∀ b m m', f b m = some m' → Done next [b] m m') {bs : List α}
    (h : visitEach f bs marked = some marked') : Done next bs marked marked' := by
  induction bs generalizing marked with
  | nil =>
    obtain rfl : marked = marked' := Option.some.inj h
    exact .refl marked
  | cons b bs ih =>
    obtain ⟨m, hm, hrest⟩ := Option.bind_eq_some_iff.mp h
    refine Done.cons ?_ (ih hrest)
    split at hm
    · rename_i hmem
      obtain rfl : marked = m := Option.some.inj hm
      exact ⟨fun _ h => h, cons_subset.mpr ⟨hmem, nil_subset _⟩, id, id⟩
    · exact hf b marked m hm

lemma visit_done (h : visit next fuel a marked = some marked') : Done next [a] marked marked' := by
  induction fuel generalizing a marked marked' with
  | zero => cases h
  | succ fuel ih =>
    obtain ⟨m, hm, rfl⟩ := Option.map_eq_some_iff.mp h
    have hdone := visitEach_done (fun b m m' => ih) hm
    refine ⟨fun b hb => mem_append_left _ (hdone.keeps hb), by simp, ?_, ?_⟩
    · intro hclosed b hb c hc
      rcases mem_append.mp hb with hb | hb
      · exact mem_append_left _ (hdone.closed hclosed b hb c hc)
      · obtain rfl := mem_singleton.mp hb
        exact mem_append_left _ (hdone.targets hc)
    · intro hnone b hb hloop
      rcases mem_append.mp hb with hb | hb
      · exact hdone.endless hnone b hb hloop
      · obtain rfl := mem_singleton.mp hb
        obtain ⟨c, hc, hloop⟩ := hloop.exists_next
        exact hdone.endless hnone c (hdone.targets hc) hloop

/-- If the visits of the elements end, whatever is marked, so does the loop. -/
lemma visitEach_ends {bs : List α} (hf : ∀ b ∈ bs, ∀ m, (f b m).isSome = true) (marked : List α) :
    (visitEach f bs marked).isSome = true := by
  induction bs generalizing marked with
  | nil => rfl
  | cons b bs ih =>
    have hb : (if b ∈ marked then some marked else f b marked).isSome = true := by
      split
      · rfl
      · exact hf b mem_cons_self marked
    obtain ⟨m, hm⟩ := Option.isSome_iff_exists.mp hb
    rw [visitEach, hm]
    exact ih (fun c hc => hf c (mem_cons_of_mem b hc)) m

/-- Without a cycle ahead the visit ends. -/
lemma visit_ends {s : Set α} (hs : s.Finite) (hnext : ∀ a b, b ∈ next a → b ∈ s)
    (ha : ¬ Endless next a) :
    ∀ᶠ fuel in atTop, ∀ marked, (visit next fuel a marked).isSome = true := by
  -- The elements ahead of `a` are on no cycle, so the relation is well-founded on them.
  let ahead : α → α → Prop := fun b c => ReflTransGen (Leads next) a b ∧ Leads next b c
  have hchain : ∀ {b c}, TransGen ahead b c → TransGen (Leads next) b c ∧
      ReflTransGen (Leads next) a b := by
    intro b c h
    induction h with
    | single h => exact ⟨.single h.2, h.1⟩
    | tail _ h ih => exact ⟨ih.1.tail h.2, ih.2⟩
  have hwf : WellFounded fun c b => ahead b c :=
    Acyclic.wellFounded hs (fun b c h => hnext b c h.2) fun b h =>
      ha ⟨b, (hchain h).2, (hchain h).1⟩
  have hall : ∀ b, ReflTransGen (Leads next) a b →
      ∀ᶠ fuel in atTop, ∀ marked, (visit next fuel b marked).isSome = true := by
    intro b
    induction b using hwf.induction with
    | _ b ih =>
      intro hab
      refine Acyclic.eventually_succ ?_
      filter_upwards [Acyclic.eventually_forall_mem fun c hc => ih c ⟨hab, hc⟩ (hab.tail hc)]
        with fuel hfuel marked
      rw [visit, Option.isSome_map]
      exact visitEach_ends hfuel marked
  exact hall a .refl

/-- Visit every element of a list, marked or not. -/
def visitAll (next : α → List α) (fuel : Nat) : List α → List α → Option (List α)
  | [], marked => some marked
  | a :: as, marked => (visit next fuel a marked).bind (visitAll next fuel as)

lemma visitAll_singleton (a : α) (marked : List α) :
    visitAll next fuel [a] marked = visit next fuel a marked := by
  rw [visitAll]
  exact Option.bind_fun_some _

lemma visitAll_append (as bs marked : List α) :
    visitAll next fuel (as ++ bs) marked =
      (visitAll next fuel as marked).bind (visitAll next fuel bs) := by
  induction as generalizing marked with
  | nil => rfl
  | cons a as ih =>
    rw [cons_append, visitAll, visitAll, Option.bind_assoc]
    exact congrArg _ (funext ih)

lemma visitAll_done {as : List α} (h : visitAll next fuel as marked = some marked') :
    Done next as marked marked' := by
  induction as generalizing marked with
  | nil =>
    obtain rfl : marked = marked' := Option.some.inj h
    exact .refl marked
  | cons a as ih =>
    obtain ⟨m, hm, hrest⟩ := Option.bind_eq_some_iff.mp h
    exact (visit_done hm).cons (ih hrest)

lemma visitAll_ends {as : List α} (h : ∀ a ∈ as, ∀ m, (visit next fuel a m).isSome = true)
    (marked : List α) : (visitAll next fuel as marked).isSome = true := by
  induction as generalizing marked with
  | nil => rfl
  | cons a as ih =>
    obtain ⟨m, hm⟩ := Option.isSome_iff_exists.mp (h a mem_cons_self marked)
    rw [visitAll, hm]
    exact ih (fun b hb => h b (mem_cons_of_mem a hb)) m

/-- The visits end, for all large fuel, exactly if no cycle is ahead of a start; they mark then all
that the starts lead to. -/
lemma eventually_visitAll_iff (as : List α) {s : Set α} (hs : s.Finite)
    (hnext : ∀ a b, b ∈ next a → b ∈ s) :
    (∀ᶠ fuel in atTop, ∃ marked, visitAll next fuel as [] = some marked ∧
      ∀ a ∈ as, ∀ b, ReflTransGen (Leads next) a b → b ∈ marked) ↔
      ∀ a ∈ as, ¬ Endless next a := by
  constructor
  · intro h a ha
    obtain ⟨fuel, marked, hmarked, -⟩ := h.exists
    have hdone := visitAll_done hmarked
    exact hdone.endless nofun a (hdone.targets ha)
  · intro h
    filter_upwards [Acyclic.eventually_forall_mem fun a ha => visit_ends hs hnext (h a ha)]
      with fuel hfuel
    obtain ⟨marked, hmarked⟩ := Option.isSome_iff_exists.mp (visitAll_ends hfuel [])
    have hdone := visitAll_done hmarked
    exact ⟨marked, hmarked, fun a ha b hab => (hdone.closed nofun).mem (hdone.targets ha) hab⟩

end Visits

end Visits
