import Mathlib.Data.Finset.Card
import Reninja.Plan.Steps

/-!
# The plan that targets make

`AddTarget` walks from a target to the inputs that it needs and takes the edges on the way into the
plan. An edge that is in the plan already is not walked through again. This file shows that what
results is the same as if it were: the plan has the edges that are needed, and the walk fails if a
file that is needed is missing.
-/

namespace Reninja

open Program World

def World.Makes (w : World) (e : EdgeId) (n : Path) : Prop :=
  w.producer n = some e ∧ (w.edges e).outputsReady = false

/-- The files that the targets need: the targets, and the inputs of the edges that make needed
files and are not ready. -/
inductive Needs (w : World) (targets : List Path) : Path → Prop
  | target {n : Path} (h : n ∈ targets) : Needs w targets n
  | input {m n : Path} {e : EdgeId} (h : Needs w targets m) (hmakes : w.Makes e m)
      (hn : n ∈ (w.edges e).inputs) : Needs w targets n

/-- A dirty file that no edge makes and that is no discovered dependency. -/
def World.Missing (w : World) (n : Path) : Prop :=
  w.producer n = none ∧ (w.nodes n).dirty = true ∧ (w.nodes n).generatedByDepLoader = false

def addTargets (fuel : Nat) (targets : List Path) : M Unit :=
  forEach targets fun t => do let _ ← addTarget fuel t

/-! ### One node -/

def World.planNode (w : World) (n : Path) (e : EdgeId) : World :=
  let w := if w.want e = none then w.setWant e (some .nothing) else w
  if (w.nodes n).dirty ∧ w.want e = some .nothing then w.wantStart e else w

section PlanNode

variable {w : World} {n : Path} {e f : EdgeId}

lemma World.planNode_graph (w : World) (n : Path) (e : EdgeId) :
    (w.planNode n e).nodes = w.nodes ∧ (w.planNode n e).edges = w.edges ∧
      (w.planNode n e).edgeCount = w.edgeCount := by
  simp only [planNode, wantStart_eq]
  split <;> split <;> exact ⟨rfl, rfl, rfl⟩

lemma World.planNode_want_ne (h : f ≠ e) : (w.planNode n e).want f = w.want f := by
  simp only [planNode, wantStart_eq]
  split <;> split <;> simp [setWant, h]

lemma World.planNode_want_self (w : World) (n : Path) (e : EdgeId) :
    (w.planNode n e).want e =
      if (w.nodes n).dirty ∧ (w.want e).getD .nothing = .nothing then some .toStart
      else some ((w.want e).getD .nothing) := by
  simp only [planNode, wantStart_eq]
  cases hw : w.want e with
  | none =>
    simp only [if_true]
    split <;> simp_all [setWant]
  | some v =>
    simp only [reduceCtorEq, if_false, hw, Option.getD_some, Option.some.injEq]
    split <;> simp [hw]

lemma planNode_apply {α : Type} (k : M α) :
    (enterPlan e >>= fun _ => wantIfDirty n e >>= fun _ => k) w = k (w.planNode n e) := by
  rw [bind_apply, enterPlan, modify_apply, planNode]
  generalize (if w.want e = none then w.setWant e (some .nothing) else w) = t
  by_cases h : (t.nodes n).dirty = true ∧ t.want e = some .nothing
  · simp only [wantIfDirty, bind_apply, get_apply, if_pos h]
    rfl
  · simp only [wantIfDirty, bind_apply, get_apply, if_neg h]
    rfl

/-! The cases of `AddSubTarget` outside of a dyndep walk. -/

variable {fuel : Nat} {dependent : Option Path}

lemma addSubTarget_leaf (hleaf : w.producer n = none) (hthere : ¬ w.Missing n) :
    addSubTarget (fuel + 1) n dependent none w = .ok (false, none) w := by
  have hskip : ¬ ((w.nodes n).dirty = true ∧ ¬ (w.nodes n).generatedByDepLoader = true) :=
    fun h => hthere ⟨hleaf, h.1, by simpa using h.2⟩
  rw [addSubTarget, bind_apply, get_apply]
  simp only [hleaf, if_neg hskip]
  rfl

lemma addSubTarget_missing (h : w.Missing n) :
    addSubTarget (fuel + 1) n dependent none w = .error (.error (missingError n dependent)) w := by
  obtain ⟨hleaf, hdirty, hloader⟩ := h
  rw [addSubTarget, bind_apply, get_apply]
  simp only [hleaf, hdirty, hloader, Bool.false_eq_true, not_false_eq_true, and_self, if_true]
  rfl

lemma addSubTarget_ready (he : w.producer n = some e) (hready : (w.edges e).outputsReady = true) :
    addSubTarget (fuel + 1) n dependent none w = .ok (false, none) w := by
  rw [addSubTarget, bind_apply, get_apply]
  simp only [he, if_pos hready]
  rfl

lemma addSubTarget_again (h : w.Makes e n) (hwant : w.want e ≠ none) :
    addSubTarget (fuel + 1) n dependent none w = .ok (true, none) (w.planNode n e) := by
  rw [addSubTarget, bind_apply, get_apply]
  simp only [h.1, if_neg (by simp [h.2] : ¬ (w.edges e).outputsReady = true), Option.isSome_none,
    Bool.false_eq_true, false_and, if_false, if_pos (Option.isSome_iff_ne_none.mpr hwant)]
  exact planNode_apply _

lemma addSubTarget_enter (h : w.Makes e n) (hwant : w.want e = none) :
    addSubTarget (fuel + 1) n dependent none w =
      (addInputs (fun i walk => addSubTarget fuel i (some n) walk) none (w.edges e).inputs >>=
        fun walk => pure (true, walk)) (w.planNode n e) := by
  rw [addSubTarget, bind_apply, get_apply]
  simp only [h.1, if_neg (by simp [h.2] : ¬ (w.edges e).outputsReady = true), Option.isSome_none,
    Bool.false_eq_true, false_and, if_false, hwant]
  exact planNode_apply _

end PlanNode

/-! ### The walk -/

/-- A plan for the graph of `g`, none of whose edges has been started. -/
structure PlanOf (g w : World) : Prop where
  nodes : w.nodes = g.nodes
  edges : w.edges = g.edges
  edgeCount : w.edgeCount = g.edgeCount
  notStarted : ∀ e, w.want e ≠ some .toFinish

/-- Why the place of an edge in the plan changes: a needed file that it makes lets it enter, and one
that is dirty makes it wanted. -/
def WantChange (g : World) (targets : List Path) (e : EdgeId) (v v' : Option Want) : Prop :=
  v' = v ∨ (v = none ∧ v' = some .nothing ∧ ∃ n, Needs g targets n ∧ g.Makes e n) ∨
    v' = some .toStart ∧ ∃ n, Needs g targets n ∧ g.Makes e n ∧ (g.nodes n).dirty = true

/-- A node is not missing, its edge is in the plan, and wanted if the node is dirty. -/
structure Handled (g w : World) (n : Path) : Prop where
  there : ¬ g.Missing n
  planned : ∀ e, g.Makes e n → w.want e ≠ none
  wanted : ∀ e, g.Makes e n → (g.nodes n).dirty = true → w.want e = some .toStart

/-- From `w` to `w'` the nodes have been added to the plan, and with every edge its inputs. -/
structure PlanAdds (g : World) (targets ns : List Path) (w w' : World) : Prop where
  plan : PlanOf g w'
  change : ∀ e, WantChange g targets e (w.want e) (w'.want e)
  handled : ∀ n ∈ ns, Handled g w' n
  complete : ∀ e, w.want e = none → w'.want e ≠ none →
    ∀ i ∈ (g.edges e).inputs, Handled g w' i

/-- The number of edges that are not in the plan. -/
def World.unplanned (w : World) : Nat :=
  ((Finset.range w.edgeCount).filter fun e => w.want e = none).card

section PlanAdds

variable {g w w' w'' : World} {targets ns ms : List Path} {n : Path} {e : EdgeId}

lemma WantChange.trans {v v' v'' : Option Want} (h₁ : WantChange g targets e v v')
    (h₂ : WantChange g targets e v' v'') : WantChange g targets e v v'' := by
  rcases h₂ with rfl | ⟨rfl, rfl, hneeds⟩ | h₂
  · exact h₁
  · rcases h₁ with rfl | ⟨-, h, -⟩ | ⟨h, -⟩
    · exact .inr (.inl ⟨rfl, rfl, hneeds⟩)
    · cases h
    · cases h
  · exact .inr (.inr h₂)

lemma WantChange.ne_none {v v' : Option Want} (h : WantChange g targets e v v') (hv : v ≠ none) :
    v' ≠ none := by
  rcases h with rfl | ⟨rfl, -⟩ | ⟨rfl, -⟩
  · exact hv
  · exact absurd rfl hv
  · simp

lemma WantChange.toStart {v' : Option Want} (h : WantChange g targets e (some .toStart) v') :
    v' = some .toStart := by
  rcases h with rfl | ⟨h, -⟩ | ⟨rfl, -⟩
  · rfl
  · cases h
  · rfl

lemma Handled.mono (h : Handled g w n)
    (hchange : ∀ e, WantChange g targets e (w.want e) (w'.want e)) : Handled g w' n where
  there := h.there
  planned e he := (hchange e).ne_none (h.planned e he)
  wanted e he hdirty := by
    have := hchange e
    rw [h.wanted e he hdirty] at this
    exact this.toStart

lemma PlanAdds.refl (h : PlanOf g w) : PlanAdds g targets [] w w :=
  ⟨h, fun _ => .inl rfl, fun _ hn => absurd hn List.not_mem_nil,
    fun _ hnone hsome => absurd hnone hsome⟩

lemma PlanAdds.append (h₁ : PlanAdds g targets ns w w') (h₂ : PlanAdds g targets ms w' w'') :
    PlanAdds g targets (ns ++ ms) w w'' where
  plan := h₂.plan
  change e := (h₁.change e).trans (h₂.change e)
  handled n hn := by
    rcases List.mem_append.mp hn with hn | hn
    · exact (h₁.handled n hn).mono h₂.change
    · exact h₂.handled n hn
  complete e hnone hsome i hi := by
    by_cases h : w'.want e = none
    · exact h₂.complete e h hsome i hi
    · exact (h₁.complete e hnone h i hi).mono h₂.change

lemma PlanAdds.of_not_makes (h : PlanOf g w) (hthere : ¬ g.Missing n) (hnone : ∀ e, ¬ g.Makes e n) :
    PlanAdds g targets [n] w w where
  plan := h
  change _ := .inl rfl
  handled m hm := by
    obtain rfl := List.mem_singleton.mp hm
    exact ⟨hthere, fun e he => absurd he (hnone e), fun e he => absurd he (hnone e)⟩
  complete _ hnone hsome := absurd hnone hsome

lemma PlanAdds.entered (h : PlanAdds g targets (g.edges e).inputs w' w'') (hwant : w.want e = none)
    (hhandled : Handled g w' n) (hothers : ∀ f, f ≠ e → w'.want f = w.want f)
    (hchange : ∀ f, WantChange g targets f (w.want f) (w'.want f)) :
    PlanAdds g targets [n] w w'' where
  plan := h.plan
  change f := (hchange f).trans (h.change f)
  handled m hm := by
    obtain rfl := List.mem_singleton.mp hm
    exact hhandled.mono h.change
  complete f hnone hsome := by
    by_cases hf : f = e
    · subst hf
      exact h.handled
    · exact h.complete f (by rw [hothers f hf, hnone]) hsome

lemma PlanAdds.unplanned_le (hplan : PlanOf g w) (h : PlanAdds g targets ns w w') :
    w'.unplanned ≤ w.unplanned := by
  refine Finset.card_le_card fun e he => ?_
  rw [Finset.mem_filter, h.plan.edgeCount, ← hplan.edgeCount] at he
  refine Finset.mem_filter.mpr ⟨he.1, ?_⟩
  by_contra hsome
  exact (h.change e).ne_none hsome he.2

/-- What adding nodes comes to: they have been added, and what is returned is as `Q` says, or a
needed file is missing. -/
def Outcome {α : Type} (Q : α → Prop) (g : World) (targets ns : List Path) (w : World) :
    EStateM.Result Failure World α → Prop
  | .ok a w' => Q a ∧ PlanAdds g targets ns w w'
  | .error f _ => (∃ msg, f = .error msg) ∧ ∃ n, Needs g targets n ∧ g.Missing n

lemma Outcome.bind {α β : Type} {Q : α → Prop} {Q' : β → Prop} {m : M α} {f : α → M β}
    (hm : Outcome Q g targets ns w (m w))
    (hf : ∀ a t, Q a → PlanAdds g targets ns w t → Outcome Q' g targets ms t (f a t)) :
    Outcome Q' g targets (ns ++ ms) w ((m >>= f) w) := by
  rw [bind_apply]
  cases hr : m w with
  | error e t =>
    rw [hr] at hm
    exact hm
  | ok a t =>
    rw [hr] at hm
    have hrest := hf a t hm.1 hm.2
    dsimp only
    cases hr' : f a t with
    | error e t' =>
      rw [hr'] at hrest
      exact hrest
    | ok b t' =>
      rw [hr'] at hrest
      exact ⟨hrest.1, hm.2.append hrest.2⟩

lemma Outcome.mono {α : Type} {Q : α → Prop} {r : EStateM.Result Failure World α} {w₁ : World}
    (h : Outcome Q g targets ns w₁ r)
    (hadds : ∀ t, PlanAdds g targets ns w₁ t → PlanAdds g targets ms w t) :
    Outcome Q g targets ms w r := by
  cases r with
  | ok a t => exact ⟨h.1, hadds t h.2⟩
  | error f t => exact h

lemma Outcome.map {α β : Type} {Q : α → Prop} {Q' : β → Prop} {m : M α} {f : α → β}
    (hm : Outcome Q g targets ns w (m w)) (hf : ∀ a, Q a → Q' (f a)) :
    Outcome Q' g targets ns w ((m >>= fun a => pure (f a)) w) := by
  rw [← List.append_nil ns]
  exact hm.bind fun a t ha ht => ⟨hf a ha, .refl ht.plan⟩

lemma addInputs_outcome {add : Path → Walk → M (Bool × Walk)} {is : List Path} {k : Nat}
    (hadd : ∀ i ∈ is, ∀ t, PlanOf g t → t.unplanned < k →
      Outcome (fun r => r.2 = none) g targets [i] t (add i none t))
    (hplan : PlanOf g w) (hk : w.unplanned < k) :
    Outcome (· = none) g targets is w (addInputs add none is w) := by
  induction is generalizing w with
  | nil => exact ⟨rfl, .refl hplan⟩
  | cons i is ih =>
    have hi := hadd i List.mem_cons_self w hplan hk
    change Outcome _ g targets ([i] ++ is) w _
    refine hi.bind fun r t hr ht => ?_
    rw [hr]
    exact ih (fun j hj => hadd j (List.mem_cons_of_mem _ hj)) ht.plan
      ((ht.unplanned_le hplan).trans_lt hk)

lemma planNode_wantChange (hplan : PlanOf g w) (hneeds : Needs g targets n) (h : g.Makes e n)
    (f : EdgeId) : WantChange g targets f (w.want f) ((w.planNode n e).want f) := by
  by_cases hf : f = e
  · subst hf
    rw [planNode_want_self, hplan.nodes]
    split
    next hdirty => exact .inr (.inr ⟨rfl, n, hneeds, h, hdirty.1⟩)
    next =>
      cases hw : w.want f with
      | none => exact .inr (.inl ⟨rfl, rfl, n, hneeds, h⟩)
      | some v => exact .inl rfl
  · rw [planNode_want_ne hf]
    exact .inl rfl

lemma planNode_planOf (hplan : PlanOf g w) : PlanOf g (w.planNode n e) where
  nodes := (w.planNode_graph n e).1.trans hplan.nodes
  edges := (w.planNode_graph n e).2.1.trans hplan.edges
  edgeCount := (w.planNode_graph n e).2.2.trans hplan.edgeCount
  notStarted f := by
    by_cases hf : f = e
    · subst hf
      rw [planNode_want_self]
      split
      next => simp
      next =>
        cases hw : w.want f with
        | none => simp
        | some v => simpa [hw] using hplan.notStarted f
    · rw [planNode_want_ne hf]
      exact hplan.notStarted f

lemma planNode_handled (hplan : PlanOf g w) (h : g.Makes e n) : Handled g (w.planNode n e) n where
  there hmissing := by
    have := hmissing.1
    rw [h.1] at this
    cases this
  planned f hf := by
    obtain rfl : f = e := Option.some.inj (hf.1.symm.trans h.1)
    rw [planNode_want_self]
    split <;> simp
  wanted f hf hdirty := by
    obtain rfl : f = e := Option.some.inj (hf.1.symm.trans h.1)
    rw [planNode_want_self, hplan.nodes]
    cases hw : w.want f with
    | none => simp [hdirty]
    | some v =>
      cases v with
      | nothing => simp [hdirty]
      | toStart => simp
      | toFinish => exact absurd hw (hplan.notStarted f)

lemma planNode_unplanned_lt (hedges : ∀ n e, g.producer n = some e → e < g.edgeCount)
    (hplan : PlanOf g w) (h : g.Makes e n) (hwant : w.want e = none) :
    (w.planNode n e).unplanned < w.unplanned := by
  refine Finset.card_lt_card (Finset.ssubset_iff_subset_ne.mpr ⟨fun f hf => ?_, fun heq => ?_⟩)
  · rw [Finset.mem_filter, (w.planNode_graph n e).2.2] at hf
    refine Finset.mem_filter.mpr ⟨hf.1, ?_⟩
    by_cases hfe : f = e
    · rw [hfe, hwant]
    · rw [← planNode_want_ne hfe, hf.2]
  · have he : e ∈ (Finset.range w.edgeCount).filter fun f => w.want f = none := by
      rw [Finset.mem_filter, Finset.mem_range, hplan.edgeCount]
      exact ⟨hedges n e h.1, hwant⟩
    rw [← heq, Finset.mem_filter] at he
    exact (planNode_handled hplan h).planned e h he.2

lemma addSubTarget_outcome (hedges : ∀ n e, g.producer n = some e → e < g.edgeCount) (fuel : Nat)
    (dependent : Option Path) (hplan : PlanOf g w) (hfuel : w.unplanned < fuel)
    (hneeds : Needs g targets n) :
    Outcome (fun r => r.2 = none) g targets [n] w (addSubTarget fuel n dependent none w) := by
  induction fuel generalizing w n dependent with
  | zero => exact absurd hfuel (Nat.not_lt_zero _)
  | succ fuel ih =>
    have hproducer : w.producer n = g.producer n := by rw [producer, producer, hplan.nodes]
    have hmissing : w.Missing n ↔ g.Missing n := by
      rw [World.Missing, World.Missing, hproducer, hplan.nodes]
    cases he : g.producer n with
    | none =>
      rw [he] at hproducer
      by_cases hm : g.Missing n
      · rw [addSubTarget_missing (hmissing.mpr hm)]
        exact ⟨⟨_, rfl⟩, n, hneeds, hm⟩
      · rw [addSubTarget_leaf hproducer fun h => hm (hmissing.mp h)]
        exact ⟨rfl, .of_not_makes hplan hm fun e h => by simp [World.Makes, he] at h⟩
    | some e =>
      rw [he] at hproducer
      have hm : ¬ g.Missing n := fun h => by simp [World.Missing, he] at h
      cases hready : (g.edges e).outputsReady with
      | true =>
        rw [addSubTarget_ready hproducer (by rw [hplan.edges, hready])]
        refine ⟨rfl, .of_not_makes hplan hm fun f h => ?_⟩
        obtain rfl : f = e := Option.some.inj (h.1.symm.trans he)
        exact Bool.noConfusion (h.2.symm.trans hready)
      | false =>
        have hmakes : g.Makes e n := ⟨he, hready⟩
        have hmakes' : w.Makes e n := ⟨hproducer, by rw [hplan.edges, hready]⟩
        have hplan₁ : PlanOf g (w.planNode n e) := planNode_planOf hplan
        have hhandled := planNode_handled hplan hmakes
        have hchange := planNode_wantChange hplan hneeds hmakes
        by_cases hwant : w.want e = none
        · rw [addSubTarget_enter hmakes' hwant, hplan.edges]
          have hlt := planNode_unplanned_lt hedges hplan hmakes hwant
          have hinputs := addInputs_outcome (k := fuel) (fun i hi t ht hk =>
            ih (n := i) (some n) ht hk (hneeds.input hmakes hi)) hplan₁ (by omega)
          refine (hinputs.map (f := fun walk => (true, walk)) fun _ h => h).mono fun t ht => ?_
          exact ht.entered hwant hhandled (fun f hf => planNode_want_ne hf) hchange
        · rw [addSubTarget_again hmakes' hwant]
          refine ⟨rfl, hplan₁, hchange, fun m hm => ?_, fun f hnone hsome => ?_⟩
          · obtain rfl := List.mem_singleton.mp hm
            exact hhandled
          · have hfe : f ≠ e := by
              rintro rfl
              exact hwant hnone
            rw [planNode_want_ne hfe] at hsome
            exact absurd hnone hsome

lemma addTarget_outcome (hedges : ∀ n e, g.producer n = some e → e < g.edgeCount) {fuel : Nat}
    (hneeds : Needs g targets n) (hplan : PlanOf g w) (hfuel : w.unplanned < fuel) :
    Outcome (fun _ => True) g targets [n] w (addTarget fuel n w) := by
  have hplan₁ : PlanOf g { w with targets := w.targets ++ [n] } :=
    ⟨hplan.nodes, hplan.edges, hplan.edgeCount, hplan.notStarted⟩
  have hone := addSubTarget_outcome hedges fuel none hplan₁ hfuel hneeds
  exact (hone.map (f := Prod.fst) fun _ _ => trivial).mono fun t ht =>
    ⟨ht.plan, ht.change, ht.handled, ht.complete⟩

lemma addTargets_outcome (hedges : ∀ n e, g.producer n = some e → e < g.edgeCount) {fuel : Nat}
    {ts : List Path} (hts : ∀ t ∈ ts, Needs g targets t) (hplan : PlanOf g w)
    (hfuel : w.unplanned < fuel) :
    Outcome (fun _ => True) g targets ts w (addTargets fuel ts w) := by
  induction ts generalizing w with
  | nil => exact ⟨trivial, .refl hplan⟩
  | cons t ts ih =>
    obtain ⟨ht, hts⟩ := List.forall_mem_cons.mp hts
    have hone : Outcome (fun _ => True) g targets [t] w
        ((do let _ ← addTarget fuel t : M Unit) w) :=
      (addTarget_outcome hedges ht hplan hfuel).map fun _ _ => trivial
    change Outcome _ g targets ([t] ++ ts) w _
    exact hone.bind fun _ w₁ _ h₁ => ih hts h₁.plan ((h₁.unplanned_le hplan).trans_lt hfuel)

lemma PlanAdds.handled_of_needs (h : PlanAdds g targets targets w w')
    (hempty : ∀ e, w.want e = none) (hneeds : Needs g targets n) : Handled g w' n := by
  induction hneeds with
  | target hn => exact h.handled _ hn
  | input _ hmakes hn ih => exact h.complete _ (hempty _) (ih.planned _ hmakes) _ hn

lemma PlanAdds.want_iff (h : PlanAdds g targets targets w w') (hempty : ∀ e, w.want e = none)
    (e : EdgeId) :
    (w'.want e ≠ none ↔ ∃ n, Needs g targets n ∧ g.Makes e n) ∧
    (w'.want e = some .toStart ↔
      ∃ n, Needs g targets n ∧ g.Makes e n ∧ (g.nodes n).dirty = true) ∧
    (w'.want e ≠ none → w'.want e ≠ some .toStart → w'.want e = some .nothing) := by
  have hplanned : ∀ n, Needs g targets n → g.Makes e n → w'.want e ≠ none := fun n hn hm =>
    (h.handled_of_needs hempty hn).planned e hm
  have hwanted : ∀ n, Needs g targets n → g.Makes e n → (g.nodes n).dirty = true →
      w'.want e = some .toStart := fun n hn hm =>
    (h.handled_of_needs hempty hn).wanted e hm
  have hchange := h.change e
  rw [hempty e] at hchange
  rcases hchange with hnone | ⟨-, hnothing, n, hn, hm⟩ | ⟨hstart, n, hn, hm, hdirty⟩
  · refine ⟨⟨fun hsome => absurd hnone hsome, fun ⟨n, hn, hm⟩ => hplanned n hn hm⟩,
      ⟨fun hsome => ?_, fun ⟨n, hn, hm, hd⟩ => hwanted n hn hm hd⟩, fun hsome => absurd hnone hsome⟩
    rw [hnone] at hsome
    cases hsome
  · refine ⟨⟨fun _ => ⟨n, hn, hm⟩, fun ⟨n, hn, hm⟩ => hplanned n hn hm⟩,
      ⟨fun hstart => ?_, fun ⟨n, hn, hm, hd⟩ => hwanted n hn hm hd⟩, fun _ _ => hnothing⟩
    rw [hnothing] at hstart
    cases hstart
  · exact ⟨⟨fun _ => ⟨n, hn, hm⟩, fun ⟨n, hn, hm⟩ => hplanned n hn hm⟩,
      ⟨fun _ => ⟨n, hn, hm, hdirty⟩, fun _ => hstart⟩, fun _ hnot => absurd hstart hnot⟩

lemma World.unplanned_le (w : World) : w.unplanned ≤ w.edgeCount := by
  rw [unplanned]
  exact (Finset.card_filter_le _ _).trans (Finset.card_range _).le

end PlanAdds

/-- **The plan of targets.** On an empty plan, adding targets one after the other fails exactly when
one of the files that they need is missing. Otherwise the plan has the edges that make needed files
and are not ready, and those of them are wanted that make a dirty one of these files. -/
theorem addTargets_plan (w : World) (targets : List Path) (fuel : Nat)
    (hedges : ∀ n e, w.producer n = some e → e < w.edgeCount) (hempty : ∀ e, w.want e = none)
    (hfuel : w.edgeCount < fuel) :
    ((∃ msg w', addTargets fuel targets w = .error (.error msg) w') ↔
      ∃ n, Needs w targets n ∧ w.Missing n) ∧
    ((∃ w', addTargets fuel targets w = .ok () w') ↔ ∀ n, Needs w targets n → ¬ w.Missing n) ∧
    ∀ w', addTargets fuel targets w = .ok () w' → ∀ e,
      (w'.want e ≠ none ↔ ∃ n, Needs w targets n ∧ w.Makes e n) ∧
      (w'.want e = some .toStart ↔
        ∃ n, Needs w targets n ∧ w.Makes e n ∧ (w.nodes n).dirty = true) ∧
      (w'.want e ≠ none → w'.want e ≠ some .toStart → w'.want e = some .nothing) := by
  have hplan : PlanOf w w := ⟨rfl, rfl, rfl, fun e => by simp [hempty e]⟩
  have houtcome : Outcome (fun _ => True) w targets targets w (addTargets fuel targets w) :=
    addTargets_outcome hedges (fun _ ht => .target ht) hplan (w.unplanned_le.trans_lt hfuel)
  cases hrun : addTargets fuel targets w with
  | error f t =>
    rw [hrun] at houtcome
    obtain ⟨⟨msg, rfl⟩, n, hneeds, hmissing⟩ := houtcome
    refine ⟨⟨fun _ => ⟨n, hneeds, hmissing⟩, fun _ => ⟨msg, t, rfl⟩⟩, ⟨fun h => ?_, fun h => ?_⟩,
      fun w' h => ?_⟩
    · obtain ⟨w', h⟩ := h
      cases h
    · exact absurd hmissing (h n hneeds)
    · cases h
  | ok u t =>
    rw [hrun] at houtcome
    have hadds : PlanAdds w targets targets w t := houtcome.2
    have hthere : ∀ n, Needs w targets n → ¬ w.Missing n := fun n hn =>
      (hadds.handled_of_needs hempty hn).there
    refine ⟨⟨fun h => ?_, fun ⟨n, hn, hm⟩ => absurd hm (hthere n hn)⟩,
      ⟨fun _ => hthere, fun _ => ⟨t, rfl⟩⟩, fun w' h e => ?_⟩
    · obtain ⟨msg, w', h⟩ := h
      cases h
    · cases h
      exact hadds.want_iff hempty e

/-- The dirty file `o` is made from `m` and `s`, and `m`, which is clean, from `s`. -/
def twoSteps : World where
  edgeCount := 2
  edges e := if e = 0 then { explicitInputs := [[109], [115]], outputs := [[111]] }
    else { explicitInputs := [[115]], outputs := [[109]] }
  nodes n := if n = [111] then { dirty := true, inEdge := some 0 }
    else if n = [109] then { inEdge := some 1 } else { generatedByDepLoader := false }

/-- Adding `o` succeeds; its edge is wanted, and the one that makes `m` is in the plan only. -/
theorem addTargets_plan_twoSteps :
    ∃ w', addTargets 3 [[111]] twoSteps = .ok () w' ∧ w'.want 0 = some .toStart ∧
      w'.want 1 = some .nothing := by
  have hedges : ∀ n e, twoSteps.producer n = some e → e < twoSteps.edgeCount := by
    intro n e h
    simp only [producer, twoSteps] at h ⊢
    grind
  have hclean : ∀ n, (twoSteps.nodes n).dirty = true → n = [111] := by
    intro n h
    simp only [twoSteps] at h
    grind
  obtain ⟨-, hok, hwant⟩ := addTargets_plan twoSteps [[111]] 3 hedges (fun _ => rfl) (by decide)
  have ho : Needs twoSteps [[111]] [111] := .target (by simp)
  have hm : Needs twoSteps [[111]] [109] :=
    ho.input (e := 0) ⟨rfl, rfl⟩ (by simp [twoSteps, Edge.inputs])
  obtain ⟨w', hrun⟩ := hok.mpr fun n _ hmissing => by
    have hnone := hmissing.1
    rw [hclean n hmissing.2.1] at hnone
    cases hnone
  refine ⟨w', hrun, (hwant w' hrun 0).2.1.mpr ⟨[111], ho, ⟨rfl, rfl⟩, rfl⟩,
    (hwant w' hrun 1).2.2 ((hwant w' hrun 1).1.mpr ⟨[109], hm, rfl, rfl⟩) fun hstart => ?_⟩
  obtain ⟨n, -, hmakes, hdirty⟩ := (hwant w' hrun 1).2.1.mp hstart
  have hone := hmakes.1
  rw [hclean n hdirty] at hone
  cases hone

end Reninja
