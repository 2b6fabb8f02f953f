import Reninja.Library.Acyclic
import Reninja.Library.LongestPath
import Reninja.Plan.Basic

/-!
# Critical paths

`ComputeCriticalPath` sorts the edges below the targets so that an edge comes after the producers of
its inputs, and goes through them backwards. The weight that an edge gets is that of the longest
chain of edges from it to the edge of a target.
-/

namespace Reninja

open Program Relation Filter LongestPath World List

def World.deps (w : World) (e : EdgeId) : List EdgeId := (w.edges e).inputs.filterMap w.producer

def World.DependsOn (w : World) (e f : EdgeId) : Prop := f ∈ w.deps e

lemma World.deps_finite {w : World} (hw : ∀ n e, w.producer n = some e → e < w.edgeCount) :
    {e | ∃ f, e ∈ w.deps f}.Finite := by
  refine (Set.finite_lt_nat w.edgeCount).subset ?_
  rintro e ⟨f, he⟩
  obtain ⟨n, -, hn⟩ := mem_filterMap.mp he
  exact hw n e hn

def World.MakesTarget (w : World) (e : EdgeId) : Prop := ∃ t ∈ w.targets, w.producer t = some e

def World.UnderTarget (w : World) (e : EdgeId) : Prop :=
  ∃ f, w.MakesTarget f ∧ ReflTransGen w.DependsOn f e

def World.cost (w : World) (e : EdgeId) : Int := (w.edges e).weightHeuristic

/-- The edges that are sorted come after the producers of their inputs. Those that have been visited
are sorted, or they are among the pending ones `O`, whose inputs are being visited. -/
structure Sorts (w : World) (O : EdgeId → Prop) (s : TopoSort) : Prop where
  visited : ∀ e, e ∈ s.1 ↔ e ∈ s.2 ∨ O e
  pending : ∀ e, O e → e ∉ s.2
  closed : ∀ e ∈ s.2, ∀ f ∈ w.deps e, f ∈ s.2
  order : s.2.Pairwise fun e f => f ∉ w.deps e
  under : ∀ e ∈ s.2, w.UnderTarget e

def VisitSorts (w : World) (fuel : Nat) (e : EdgeId) : Prop :=
  ∀ O s t, Sorts w O s → w.UnderTarget e → (∀ x, O x → TransGen w.DependsOn x e) →
    ∃ s', topoVisit w fuel e s t = .ok s' t ∧ Sorts w O s' ∧ s.2 ⊆ s'.2 ∧ e ∈ s'.2

section Sorts

variable {w : World} {O : EdgeId → Prop} {s : TopoSort} {fuel : Nat} {e : EdgeId}

lemma visitAll_sorts {es : List EdgeId} (h : ∀ e ∈ es, VisitSorts w fuel e)
    (hunder : ∀ e ∈ es, w.UnderTarget e) (hpending : ∀ e ∈ es, ∀ x, O x → TransGen w.DependsOn x e)
    (hs : Sorts w O s) (t : World) :
    ∃ s', topoVisit.visitAll (topoVisit w fuel) s es t = .ok s' t ∧ Sorts w O s' ∧ s.2 ⊆ s'.2 ∧
      ∀ e ∈ es, e ∈ s'.2 := by
  induction es generalizing s with
  | nil => exact ⟨s, rfl, hs, List.Subset.refl _, fun _ he => absurd he not_mem_nil⟩
  | cons e es ih =>
    obtain ⟨he, hes⟩ := forall_mem_cons.mp h
    obtain ⟨hu, hus⟩ := forall_mem_cons.mp hunder
    obtain ⟨hp, hps⟩ := forall_mem_cons.mp hpending
    obtain ⟨s₁, hvisit, hs₁, hsub₁, hmem₁⟩ := he O s t hs hu hp
    obtain ⟨s₂, hrest, hs₂, hsub₂, hmem₂⟩ := ih hes hus hps hs₁
    refine ⟨s₂, ?_, hs₂, List.Subset.trans hsub₁ hsub₂, forall_mem_cons.mpr ⟨hsub₂ hmem₁, hmem₂⟩⟩
    rw [topoVisit.visitAll, bind_apply, hvisit]
    exact hrest

lemma Sorts.start (hs : Sorts w O s) (he : e ∉ s.1) :
    Sorts w (fun x => x = e ∨ O x) (s.1 ++ [e], s.2) where
  visited x := by
    rw [mem_append, mem_singleton, hs.visited x]
    tauto
  pending x hx := by
    rcases hx with rfl | hx
    · exact fun hmem => he ((hs.visited x).mpr (.inl hmem))
    · exact hs.pending x hx
  closed := hs.closed
  order := hs.order
  under := hs.under

/-- A pending edge is sorted when the producers of its inputs are. -/
lemma Sorts.finish (hs : Sorts w (fun x => x = e ∨ O x) s) (hnew : ¬ O e)
    (hunder : w.UnderTarget e) (hdeps : ∀ f ∈ w.deps e, f ∈ s.2) : Sorts w O (s.1, s.2 ++ [e]) where
  visited x := by
    rw [hs.visited x, mem_append, mem_singleton]
    tauto
  pending x hx hmem := by
    rcases mem_append.mp hmem with hmem | hmem
    · exact hs.pending x (.inr hx) hmem
    · exact hnew (mem_singleton.mp hmem ▸ hx)
  closed x hx f hf := by
    rcases mem_append.mp hx with hx | hx
    · exact mem_append_left _ (hs.closed x hx f hf)
    · exact mem_append_left _ (hdeps f (mem_singleton.mp hx ▸ hf))
  order := by
    refine pairwise_append.mpr ⟨hs.order, pairwise_singleton _ _, fun x hx f hf hdep => ?_⟩
    -- what is sorted depends on sorted edges only
    exact hs.pending f (.inl (mem_singleton.mp hf)) (hs.closed x hx f hdep)
  under x hx := by
    rcases mem_append.mp hx with hx | hx
    · exact hs.under x hx
    · exact mem_singleton.mp hx ▸ hunder

lemma World.UnderTarget.dep {f : EdgeId} (h : w.UnderTarget e) (hf : f ∈ w.deps e) :
    w.UnderTarget f := by
  obtain ⟨x, hx, hreach⟩ := h
  exact ⟨x, hx, hreach.tail hf⟩

lemma Sorts.mem_of_underTarget (hs : Sorts w O s) (htargets : ∀ e, w.MakesTarget e → e ∈ s.2)
    (h : w.UnderTarget e) : e ∈ s.2 := by
  obtain ⟨f, hf, hreach⟩ := h
  induction hreach with
  | refl => exact htargets f hf
  | tail _ hdep ih => exact hs.closed _ ih _ hdep

lemma topoVisit_sorts (hacyclic : ∀ e, ¬ TransGen w.DependsOn e e)
    (h : ∀ f ∈ w.deps e, VisitSorts w fuel f) : VisitSorts w (fuel + 1) e := by
  intro O s t hs hunder hpending
  have hnew : ¬ O e := fun he => hacyclic e (hpending e he)
  rw [topoVisit]
  by_cases he : e ∈ s.1
  · rw [if_pos he]
    exact ⟨s, rfl, hs, List.Subset.refl _, ((hs.visited e).mp he).resolve_right hnew⟩
  · rw [if_neg he]
    have hbelow : ∀ f ∈ w.deps e, ∀ x, x = e ∨ O x → TransGen w.DependsOn x f := by
      rintro f hf x (rfl | hx)
      · exact .single hf
      · exact (hpending x hx).tail hf
    obtain ⟨s₁, hall, hs₁, hsub, hdeps⟩ :=
      visitAll_sorts h (fun f hf => hunder.dep hf) hbelow (hs.start he) t
    refine ⟨(s₁.1, s₁.2 ++ [e]), ?_, hs₁.finish hnew hunder hdeps,
      fun x hx => mem_append_left _ (hsub hx), mem_append_right _ (by simp)⟩
    exact bind_ok.mpr ⟨s₁, t, hall, rfl⟩

lemma eventually_visitSorts (hedges : ∀ n e, w.producer n = some e → e < w.edgeCount)
    (hacyclic : ∀ e, ¬ TransGen w.DependsOn e e) (e : EdgeId) :
    ∀ᶠ fuel in atTop, VisitSorts w fuel e := by
  have hbound : ∀ e f, w.DependsOn e f → f ∈ {f | f < w.edgeCount} := by
    intro e f hf
    obtain ⟨i, -, hi⟩ := mem_filterMap.mp hf
    exact hedges i f hi
  have hwf := Acyclic.wellFounded (Set.finite_lt_nat _) hbound hacyclic
  induction e using hwf.induction with
  | _ e ih =>
    exact Acyclic.eventually_succ ((Acyclic.eventually_forall_mem ih).mono fun _ h =>
      topoVisit_sorts hacyclic h)

end Sorts

/-! ### The weights -/

def World.withWeights (w : World) (weight : EdgeId → Int) : World :=
  { w with edges := fun e => { w.edges e with criticalPathWeight := weight e } }

section Weights

variable {w : World} {weight : EdgeId → Int} {e : EdgeId} {c : Int}

lemma World.cost_nonneg (w : World) (e : EdgeId) : 0 ≤ w.cost e := by
  rw [cost, Edge.weightHeuristic]
  split <;> decide

lemma World.withWeights_weight (h : 0 ≤ weight e) :
    ((w.withWeights weight).edges e).weight = weight e := by
  have hne : weight e ≠ -1 := by omega
  exact if_neg hne

lemma updEdge_withWeights (g : Edge → Int) :
    updEdge e (fun x => { x with criticalPathWeight := g x }) (w.withWeights weight) =
      .ok () (w.withWeights (Function.update weight e (g ((w.withWeights weight).edges e)))) := by
  rw [updEdge, modify_apply]
  congr 1
  simp only [setEdge, withWeights]
  congr 1
  funext f
  by_cases hf : f = e
  · subst hf
    simp
  · simp [hf]

lemma resetWeights_apply (w : World) (weight : EdgeId → Int) (l : List EdgeId) :
    ∃ weight', forEach l
        (fun e => updEdge e fun x => { x with criticalPathWeight := x.weightHeuristic })
        (w.withWeights weight) = .ok () (w.withWeights weight') ∧
      (∀ e ∈ l, weight' e = w.cost e) ∧ ∀ e ∉ l, weight' e = weight e := by
  induction l generalizing weight with
  | nil => exact ⟨weight, rfl, fun _ he => absurd he not_mem_nil, fun _ _ => rfl⟩
  | cons e l ih =>
    obtain ⟨weight', hok, hin, hout⟩ := ih (Function.update weight e (w.cost e))
    refine ⟨weight', ?_, fun f hf => ?_, fun f hf => ?_⟩
    · rw [forEach, bind_apply, updEdge_withWeights]
      exact hok
    · by_cases hfl : f ∈ l
      · exact hin f hfl
      · obtain rfl := (mem_cons.mp hf).resolve_right hfl
        rw [hout f hfl, Function.update_self]
    · obtain ⟨hfe, hfl⟩ := not_or.mp (mt mem_cons.mpr hf)
      rw [hout f hfl, Function.update_of_ne hfe]

lemma raiseProducer_apply {i : Path} (hweight : ∀ f ∈ w.producer i, 0 ≤ weight f) :
    raiseProducer c i (w.withWeights weight) = .ok () (w.withWeights
      ((w.producer i).toList.foldl (raise w.cost c) weight)) := by
  rw [raiseProducer, bind_apply, get_apply]
  have hproducer : (w.withWeights weight).producer i = w.producer i := rfl
  cases hf : w.producer i with
  | none =>
    simp only [hproducer, hf]
    rfl
  | some f =>
    have hcost : ((w.withWeights weight).edges f).weightHeuristic = w.cost f := rfl
    simp only [hproducer, hf, withWeights_weight (hweight f hf), hcost, Option.toList_some,
      foldl_cons, foldl_nil, raise, gt_iff_lt]
    by_cases hlt : weight f < c + w.cost f
    · rw [if_pos hlt, if_pos hlt, updEdge_withWeights]
    · rw [if_neg hlt, if_neg hlt]
      rfl

lemma raiseProducers_apply {is : List Path}
    (hweight : ∀ f ∈ is.filterMap w.producer, 0 ≤ weight f) :
    forEach is (raiseProducer c) (w.withWeights weight) =
      .ok () (w.withWeights ((is.filterMap w.producer).foldl (raise w.cost c) weight)) := by
  induction is generalizing weight with
  | nil => rfl
  | cons i is ih =>
    have hsplit : (i :: is).filterMap w.producer =
        (w.producer i).toList ++ is.filterMap w.producer := by
      rw [filterMap_cons]
      cases w.producer i <;> rfl
    rw [hsplit] at hweight ⊢
    obtain ⟨hi, his⟩ := forall_mem_append.mp hweight
    rw [forEach, bind_apply, raiseProducer_apply fun f hf => hi f (Option.mem_toList.mpr hf),
      foldl_append]
    exact ih fun f hf => (his f hf).trans (le_foldl_raise _)

lemma relaxAll_apply {l : List EdgeId} {S : EdgeId → Prop} (hl : ∀ e ∈ l, S e)
    (hclosed : ∀ e, S e → ∀ f ∈ w.deps e, S f) (hweight : ∀ e, S e → 0 ≤ weight e) :
    (forEach l fun e => do
        let x ← getEdge e
        forEach x.inputs (raiseProducer x.weight)) (w.withWeights weight) =
      .ok () (w.withWeights (l.foldl (relax w.cost w.deps) weight)) := by
  induction l generalizing weight with
  | nil => rfl
  | cons e l ih =>
    obtain ⟨he, hl⟩ := forall_mem_cons.mp hl
    have hone : (getEdge e >>= fun x => forEach x.inputs (raiseProducer x.weight))
        (w.withWeights weight) = .ok () (w.withWeights (relax w.cost w.deps weight e)) := by
      refine bind_ok.mpr ⟨_, _, getEdge_ok.mpr ⟨rfl, rfl⟩, ?_⟩
      rw [withWeights_weight (hweight e he)]
      exact raiseProducers_apply fun f hf => hweight f (hclosed e he f hf)
    rw [forEach, bind_apply, hone]
    exact ih hl fun f hf => (hweight f hf).trans (le_foldl_raise _)

end Weights

lemma World.UnderTarget.chain {w : World} {e : EdgeId} (h : w.UnderTarget e) :
    ∃ c, Chain w.cost w.deps w.MakesTarget e c := by
  obtain ⟨f, hf, hreach⟩ := h
  induction hreach with
  | refl => exact ⟨_, .last hf⟩
  | tail _ hdep ih =>
    obtain ⟨c, hc⟩ := ih
    exact ⟨_, hc.next hdep⟩

/-- **Critical path weights.** In an acyclic graph `ComputeCriticalPath` returns, and then every
edge below the targets has the weight of the longest chain from it to the edge of a target. -/
theorem computeCriticalPath_longest (w : World)
    (hedges : ∀ n e, w.producer n = some e → e < w.edgeCount)
    (hacyclic : ∀ e, ¬ TransGen w.DependsOn e e) :
    ∃ k, ∀ fuel ≥ k, ∃ w', computeCriticalPath fuel w = .ok () w' ∧
      ∀ e, w.UnderTarget e →
        IsGreatest {c | Chain w.cost w.deps w.MakesTarget e c} (w'.edges e).weight := by
  have hvisits : ∀ e ∈ w.targets.filterMap w.producer, ∀ᶠ fuel in atTop, VisitSorts w fuel e :=
    fun e _ => eventually_visitSorts hedges hacyclic e
  obtain ⟨k, hk⟩ := eventually_atTop.mp (Acyclic.eventually_forall_mem hvisits)
  refine ⟨k, fun fuel hfuel => ?_⟩
  have hmakes : ∀ e, e ∈ w.targets.filterMap w.producer ↔ w.MakesTarget e := fun e =>
    mem_filterMap
  have hstart : Sorts w (fun _ => False) ([], []) :=
    ⟨fun _ => by simp, fun _ h => h.elim, fun _ he => absurd he not_mem_nil, .nil,
      fun _ he => absurd he not_mem_nil⟩
  obtain ⟨s, hsort, hs, -, hmem⟩ := visitAll_sorts (hk fuel hfuel)
    (fun e he => ⟨e, (hmakes e).mp he, .refl⟩) (fun _ _ _ h => h.elim) hstart w
  have htargets : ∀ e, w.MakesTarget e → e ∈ s.2 := fun e he => hmem e ((hmakes e).mpr he)
  obtain ⟨weight, hreset, hin, -⟩ := resetWeights_apply w
    (fun e => (w.edges e).criticalPathWeight) s.2
  have hweight : ∀ e, e ∈ s.2 → 0 ≤ weight e := fun e he => (hin e he).symm ▸ w.cost_nonneg e
  have hrelax := relaxAll_apply (l := s.2.reverse) (S := (· ∈ s.2)) (by simp) hs.closed hweight
  refine ⟨w.withWeights (s.2.reverse.foldl (relax w.cost w.deps) weight), ?_, fun e he => ?_⟩
  · rw [computeCriticalPath, bind_apply, get_apply]
    refine bind_ok.mpr ⟨s, w, hsort, ?_⟩
    exact bind_ok.mpr ⟨(), _, hreset, hrelax⟩
  · have hmem : e ∈ s.2 := hs.mem_of_underTarget htargets he
    have hgreatest : IsGreatest {c | Chain w.cost w.deps w.MakesTarget e c}
        (s.2.reverse.foldl (relax w.cost w.deps) weight e) :=
      isGreatest_foldl_relax w.cost_nonneg (by simpa using hs.closed)
        (fun f hf => by simpa using htargets f hf)
        (fun f hf => (hs.under f (by simpa using hf)).chain)
        (fun f _ hf => hacyclic f (.single hf)) (pairwise_reverse.mpr hs.order)
        (fun f hf => hin f (by simpa using hf)) (by simpa using hmem)
    rw [withWeights_weight ((w.cost_nonneg e).trans (hgreatest.1.cost_le w.cost_nonneg))]
    exact hgreatest

/-- The target `o` is made from `m`, and `m` from `s`. -/
def twoCommands : World where
  edgeCount := 2
  edges e := if e = 0 then { explicitInputs := [[109]], outputs := [[111]] }
    else { explicitInputs := [[115]], outputs := [[109]] }
  nodes n :=
    if n = [111] then { inEdge := some 0 } else if n = [109] then { inEdge := some 1 } else {}
  targets := [[111]]

/-- The edge that makes `m` gets the weight 2. -/
theorem computeCriticalPath_longest_twoCommands :
    ∃ k, ∀ fuel ≥ k, ∃ w', computeCriticalPath fuel twoCommands = .ok () w' ∧
      (w'.edges 1).weight = 2 := by
  have hdeps : ∀ e f, f ∈ twoCommands.deps e ↔ e = 0 ∧ f = 1 := by
    intro e f
    by_cases he : e = 0
    · subst he
      simp [deps, twoCommands, producer, Edge.inputs, eq_comm]
    · simp [deps, twoCommands, producer, Edge.inputs, he]
  have hmakes : ∀ e, twoCommands.MakesTarget e ↔ e = 0 := by
    intro e
    simp [World.MakesTarget, twoCommands, producer, eq_comm]
  have hedges : ∀ n e, twoCommands.producer n = some e → e < twoCommands.edgeCount := by
    intro n e h
    simp only [producer, twoCommands] at h ⊢
    grind
  have hstep : ∀ e f, TransGen twoCommands.DependsOn e f → e = 0 ∧ f = 1 := by
    intro e f h
    induction h with
    | single h => exact (hdeps _ _).mp h
    | tail _ h ih => exact ⟨ih.1, ((hdeps _ _).mp h).2⟩
  have hacyclic : ∀ e, ¬ TransGen twoCommands.DependsOn e e := by
    intro e h
    obtain ⟨h₀, h₁⟩ := hstep e e h
    exact absurd (h₀.symm.trans h₁) (by decide)
  obtain ⟨k, hk⟩ := computeCriticalPath_longest twoCommands hedges hacyclic
  refine ⟨k, fun fuel hfuel => ?_⟩
  obtain ⟨w', hok, hgreatest⟩ := hk fuel hfuel
  have hunder : twoCommands.UnderTarget 1 :=
    ⟨0, (hmakes 0).mpr rfl, .single ((hdeps 0 1).mpr ⟨rfl, rfl⟩)⟩
  refine ⟨w', hok, (hgreatest 1 hunder).unique ⟨?_, ?_⟩⟩
  · exact Chain.next (c := 1) ((hdeps 0 1).mpr ⟨rfl, rfl⟩) (.last ((hmakes 0).mpr rfl))
  · rintro c hc
    cases hc with
    | last h => exact absurd ((hmakes 1).mp h) (by decide)
    | next hdep h =>
      obtain ⟨rfl, -⟩ := (hdeps _ _).mp hdep
      cases h with
      | last _ => decide
      | next hdep' _ => exact absurd ((hdeps _ _).mp hdep').2 (by decide)

end Reninja
