import Mathlib.Data.List.GetD
import Reninja.Library.Acyclic
import Reninja.Manifest.Links
import Reninja.Plan.Clean

/-!
# When `CleanNode` ends

`CleanNode` follows the out edges of a node and the outputs of those edges, and keeps no record of
where it has been. It goes on behind an edge only if the edge is phony or all of its outputs exist,
so it ends if there is no endless chain of such edges. A phony statement that names itself makes
one, since the node keeps the edge whose input was taken away.
-/

namespace Reninja

open Program Filter

lemma cleanNode_succ (env : Env) (fuel : Nat) (n : Path) (w : World) :
    cleanNode env (fuel + 1) n w = forEach (w.nodes n).outEdges (cleanEdge env (cleanNode env fuel))
      (w.setNode n fun m => { m with dirty := false }) := by
  have hout : ((w.setNode n fun m => { m with dirty := false }).nodes n).outEdges =
      (w.nodes n).outEdges := by
    rw [World.setNode_nodes_self]
  rw [← hout]
  rfl

lemma finishClean_false (clean : Path → M Unit) (e : EdgeId) (outputs : List Path) :
    finishClean clean e outputs false =
      (forEach outputs clean >>= fun _ => modify fun w => w.unwant e) :=
  rfl

/-- What lets `CleanNode` go on behind an edge and does not change meanwhile: the dependencies are
there, and the edge is a phony one with an input or a validation, or all of its outputs exist. The
outputs of an edge that no scan has come to are not known to exist. -/
def World.CanPass (w : World) (e : EdgeId) : Prop :=
  (w.edges e).depsMissing = false ∧
    ((w.edges e).phony = true ∧ ((w.edges e).inputs ≠ [] ∨ (w.edges e).validations ≠ []) ∨
      ∀ o ∈ (w.edges e).outputs, (w.nodes o).exists = true)

/-- Nothing but dirty flags, times and the plan has changed. -/
abbrev OnlyCleans (w w' : World) : Prop := Cleaned (fun _ => True) w w'

lemma onlyCleans_want (w : World) (want : EdgeId → Option Want) :
    OnlyCleans w { w with want := want } :=
  ⟨sameGround_of_nodes rfl rfl rfl rfl rfl fun _ => ⟨rfl, rfl⟩, rfl, fun _ => rfl, fun _ => rfl,
    fun _ h => h, fun _ _ => rfl, fun _ _ => rfl, List.prefix_rfl⟩

section Returns

variable {env : Env} {g w : World} {e : EdgeId} {newest : Option Path} {command : GoString}

lemma Cleaned.canPass_iff {S : Path → Prop} (h : Cleaned S g w) : w.CanPass e ↔ g.CanPass e := by
  simp only [World.CanPass, h.edges, Node.exists, h.existence]

/-- An edge can be passed if none of its outputs is found dirty. -/
lemma canPass_of_clean (hdeps : (w.edges e).depsMissing = false)
    (h : (w.edges e).outputs.any (outputDirty env w e newest command) = false) : w.CanPass e := by
  refine ⟨hdeps, ?_⟩
  rw [List.any_eq_false] at h
  by_cases hphony : (w.edges e).phony = true
  · by_cases hsome : (w.edges e).inputs ≠ [] ∨ (w.edges e).validations ≠ []
    · exact .inl ⟨hphony, hsome⟩
    · simp only [not_or, not_not] at hsome
      exact .inr fun o ho => by simpa [outputDirty, hphony, hsome] using h o ho
  · refine .inr fun o ho => ?_
    by_contra hmissing
    exact h o ho (by simp [outputDirty, hphony, hmissing])

def CleanReturns (env : Env) (g : World) (fuel : Nat) (n : Path) : Prop :=
  ∀ w, OnlyCleans g w → ∃ w', cleanNode env fuel n w = .ok () w' ∧ OnlyCleans g w'

lemma cleanEdge_returns {fuel : Nat}
    (houtputs : g.CanPass e → ∀ o ∈ (g.edges e).outputs, CleanReturns env g fuel o)
    (hg : OnlyCleans g w) :
    ∃ w', cleanEdge env (cleanNode env fuel) e w = .ok () w' ∧ OnlyCleans g w' := by
  rcases cleanEdge_apply env (cleanNode env fuel) w e with ⟨hseems, heq⟩ | ⟨-, heq⟩
  · obtain ⟨w₁, hdirty, hc, -⟩ := recomputeOutputsDirty_cleaned env w e (w.newestInput e)
    have hg₁ : OnlyCleans g w₁ := IsTrans.trans _ _ _ hg (hc.mono fun _ _ => trivial)
    rw [heq, bind_apply, hdirty]
    cases hany : (w.edges e).outputs.any _ with
    | true => exact ⟨w₁, rfl, hg₁⟩
    | false =>
      have hpass := hg.canPass_iff.mp (canPass_of_clean hseems.deps hany)
      obtain ⟨w₂, hforEach, hg₂⟩ := forEach_returns (houtputs hpass) hg₁
      refine ⟨w₂.unwant e, ?_, IsTrans.trans _ _ _ hg₂ (cleaned_unwant w₂ e)⟩
      dsimp only
      rw [finishClean_false, bind_apply, hg.edges, hforEach]
      rfl
  · exact ⟨w, heq, hg⟩

lemma cleanReturns_of_outEdges {n : Path} (h : ∀ e ∈ (g.nodes n).outEdges, g.CanPass e →
    ∀ᶠ fuel in atTop, ∀ o ∈ (g.edges e).outputs, CleanReturns env g fuel o) :
    ∀ᶠ fuel in atTop, CleanReturns env g fuel n := by
  have hall : ∀ᶠ fuel in atTop, ∀ e ∈ (g.nodes n).outEdges, g.CanPass e →
      ∀ o ∈ (g.edges e).outputs, CleanReturns env g fuel o :=
    Acyclic.eventually_forall_mem fun e he => eventually_imp_distrib_left.mpr (h e he)
  refine Acyclic.eventually_succ (hall.mono fun fuel hfuel w hg => ?_)
  have hg₁ : OnlyCleans g (w.setNode n fun m => { m with dirty := false }) :=
    IsTrans.trans _ _ _ hg (cleaned_setClean trivial)
  rw [cleanNode_succ, hg.outEdges n]
  exact forEach_returns (fun e he t ht => cleanEdge_returns (hfuel e he) ht) hg₁

/-- **Restat cleaning ends.** In every state, that after a scan included, `CleanNode` returns for
every node and with every plan, if there is no endless chain of edges that can be passed, each of
which makes a file that has the next one among its out edges. -/
theorem cleanNode_returns (env : Env) (w : World)
    (hchain : WellFounded fun f e => w.Feeds e f ∧ w.CanPass f) (want : EdgeId → Option Want)
    (n : Path) : ∃ fuel w', cleanNode env fuel n { w with want := want } = .ok () w' := by
  have hedge : ∀ e, ∀ᶠ fuel in atTop, ∀ o ∈ (w.edges e).outputs, CleanReturns env w fuel o := by
    intro e
    induction e using hchain.induction with
    | _ e ih =>
      refine Acyclic.eventually_forall_mem fun o ho => cleanReturns_of_outEdges fun f hf hpass => ?_
      exact ih f ⟨⟨o, ho, hf⟩, hpass⟩
  obtain ⟨fuel, hfuel⟩ := (cleanReturns_of_outEdges fun e _ _ => hedge e).exists
  obtain ⟨w', hok, -⟩ := hfuel _ (onlyCleans_want w want)
  exact ⟨fuel, w', hok⟩

end Returns

/-- The edges of `build a: cc b`, `build b: cc a` and `build t: cc x`, with the files `t` and
`x`. -/
def sideCycle : World where
  nodes n :=
    if n = [97] then { inEdge := some 0, outEdges := [1] }
    else if n = [98] then { inEdge := some 1, outEdges := [0] }
    else if n = [116] then { inEdge := some 2 }
    else if n = [120] then { outEdges := [2] }
    else {}
  edges e :=
    if e = 0 then { explicitInputs := [[98]], outputs := [[97]] }
    else if e = 1 then { explicitInputs := [[97]], outputs := [[98]] }
    else if e = 2 then { explicitInputs := [[120]], outputs := [[116]] }
    else {}
  edgeCount := 3
  disk := { entries := fun p => if p = [116] ∨ p = [120] then some (.file 1 [] false) else none }

/-- The scan of `t` does not come to the other two edges, whose cycle is harmless: it is not known
that their outputs exist. -/
theorem cleanNode_returns_sideCycle :
    ∃ w, recomputeDirty {} 3 [116] sideCycle = .ok [] w ∧ w.Feeds 0 1 ∧ w.Feeds 1 0 ∧
      ∀ want n, ∃ fuel w', cleanNode {} fuel n { w with want := want } = .ok () w' := by
  refine ⟨_, rfl, ⟨[97], ?_⟩, ⟨[98], ?_⟩, cleanNode_returns {} _ ⟨fun e => ⟨e, fun f h => ?_⟩⟩⟩
  · exact ⟨by decide, by decide⟩
  · exact ⟨by decide, by decide⟩
  · exfalso
    obtain ⟨⟨o, ho, hf⟩, -, hpass⟩ := h
    have hmade : o = [97] ∨ o = [98] ∨ o = [116] := by
      by_cases he : e = 2
      · subst he
        exact .inr (.inr (List.mem_singleton.mp ho))
      · simp only [World.setEdge_edges_ne _ he, World.setNode_edges, World.log_edges, sideCycle,
          if_neg he] at ho
        split_ifs at ho <;> simp_all
    rcases hmade with rfl | rfl | rfl
    · obtain rfl : f = 1 := List.mem_singleton.mp hf
      exact hpass.elim (fun h => Bool.false_ne_true h.1) fun h =>
        Bool.false_ne_true (h [98] (List.mem_singleton_self _))
    · obtain rfl : f = 0 := List.mem_singleton.mp hf
      exact hpass.elim (fun h => Bool.false_ne_true h.1) fun h =>
        Bool.false_ne_true (h [97] (List.mem_singleton_self _))
    · cases hf

/-! ### Along an endless chain -/

/-- Phony edges at which nothing holds cleaning up, each of which leads to another of them. -/
structure Endless (E : EdgeId → Prop) (g : World) : Prop where
  phony : ∀ e, E e → (g.edges e).phony = true
  passes : ∀ e, E e → g.CanPass e
  inputs : ∀ e, E e → ∀ i ∈ (g.edges e).nonOrderOnlyInputs, (g.nodes i).dirty = false
  leads : ∀ e, E e → ∃ f, E f ∧ g.Feeds e f

section Endless

variable {E : EdgeId → Prop} {g w : World} {e : EdgeId}

lemma Endless.seemsClean (h : Endless E g) (hg : OnlyCleans g w) (hwanted : e ∈ w.wantedSet)
    (he : E e) : SeemsClean w e where
  wanted := hwanted
  deps := (hg.canPass_iff.mpr (h.passes e he)).1
  inputs k hk := by
    rw [World.searched, hg.edges] at hk
    have hclean := h.inputs e he ((g.edges e).nonOrderOnlyInputs.getD k []) (by
      rw [List.getD_eq_getElem _ _ (Search.lt_of_mem_probesFrom hk)]
      exact List.getElem_mem _)
    by_contra hdirty
    rw [World.dirtyAt, hg.edges, Bool.not_eq_false] at hdirty
    rw [hg.dirty _ hdirty] at hclean
    cases hclean

/-- The test of a phony edge does not look at times. -/
lemma Endless.outputDirty (h : Endless E g) (hg : OnlyCleans g w) (he : E e) (env : Env)
    (newest : Option Path) (command : GoString) :
    (w.edges e).outputs.any (outputDirty env w e newest command) = false := by
  have hphony : (w.edges e).phony = true := hg.edges ▸ h.phony e he
  refine List.any_eq_false.mpr fun o ho => ?_
  rcases (hg.canPass_iff.mpr (h.passes e he)).2 with ⟨-, hsome | hsome⟩ | hexists
  · simp [Reninja.outputDirty, hphony, hsome]
  · simp [Reninja.outputDirty, hphony, hsome]
  · simp [Reninja.outputDirty, hphony, hexists o ho]

/-- When the edges of the chain are wanted, `CleanNode` of a node that leads to them uses up every
amount of fuel. -/
lemma Endless.cleanNode (h : Endless E g) (env : Env) (fuel : Nat) (n : Path)
    (hw : OnlyCleans g w ∧ ∀ e, e ∈ w.wantedSet ↔ E e) :
    (∃ w', cleanNode env fuel n w = .error .outOfFuel w') ∨
      ∃ w', cleanNode env fuel n w = .ok () w' ∧
        (OnlyCleans g w' ∧ ∀ e, e ∈ w'.wantedSet ↔ E e) ∧ ∀ e ∈ (g.nodes n).outEdges, ¬ E e := by
  induction fuel generalizing n w with
  | zero => exact .inl ⟨w, rfl⟩
  | succ fuel ih =>
    obtain ⟨hg, hwanted⟩ := hw
    rw [cleanNode_succ, hg.outEdges]
    refine forEach_fails_or (fun e _ t ht => ?_)
      ⟨IsTrans.trans _ _ _ hg (cleaned_setClean trivial), hwanted⟩
    by_cases he : E e
    · rcases cleanEdge_apply env (Reninja.cleanNode env fuel) t e with ⟨-, heq⟩ | ⟨hnot, -⟩
      · obtain ⟨t₁, hdirty, hc, -, hwant⟩ := recomputeOutputsDirty_cleaned env t e (t.newestInput e)
        rw [h.outputDirty ht.1 he] at hdirty
        have ht₁ : OnlyCleans g t₁ ∧ ∀ e, e ∈ t₁.wantedSet ↔ E e := by
          refine ⟨IsTrans.trans _ _ _ ht.1 (hc.mono fun _ _ => trivial), fun e => ?_⟩
          simp only [World.wantedSet, World.Wants, hwant]
          exact ht.2 e
        rw [heq, bind_apply, hdirty]
        dsimp only
        rw [finishClean_false, bind_apply]
        -- the first output from which an edge of the chain is reached exhausts the fuel
        rcases forEach_fails_or (fun o _ u hu => ih o hu) ht₁ with ⟨t', hfuel⟩ | ⟨-, -, -, hnone⟩
        · rw [hfuel]
          exact .inl ⟨t', rfl⟩
        · obtain ⟨f, hf, o, ho, hof⟩ := h.leads e he
          exact absurd hf (hnone o (ht.1.edges ▸ ho) f hof)
      · exact absurd (h.seemsClean ht.1 ((ht.2 e).mpr he) he) hnot
    · exact .inr ⟨t, cleanEdge_unwanted fun hmem => he ((ht.2 e).mp hmem), ht, he⟩

/-- With the edges of an endless chain in the plan, `CleanNode` does not return for a node that has
one of them among its out edges. -/
lemma Endless.cleanNode_ne_ok (h : Endless E g) {want : EdgeId → Option Want}
    (hwant : ∀ e, e ∈ World.wantedSet { g with want := want } ↔ E e) {n : Path}
    (hout : e ∈ (g.nodes n).outEdges) (he : E e) (env : Env) (fuel : Nat) (w' : World) :
    Reninja.cleanNode env fuel n { g with want := want } ≠ .ok () w' := by
  intro hok
  rcases h.cleanNode env fuel n ⟨onlyCleans_want g want, hwant⟩ with ⟨_, hfuel⟩ | ⟨_, -, -, hnone⟩
  · rw [hok] at hfuel
    cases hfuel
  · exact hnone e hout he

end Endless

/-- A phony edge without inputs that makes the file `a`, which has the edge among its out edges. -/
def namesItself (w : World) : Bool :=
  (w.edges 0).phony && (w.edges 0).nonOrderOnlyInputs = [] && (w.edges 0).outputs = [[97]] &&
    !(w.edges 0).depsMissing && (w.nodes [97]).exists && 0 ∈ (w.nodes [97]).outEdges

lemma endless_of_namesItself {w : World} (h : namesItself w = true) : Endless (· = 0) w := by
  simp only [namesItself, Bool.and_eq_true, decide_eq_true_eq, Bool.not_eq_true'] at h
  obtain ⟨⟨⟨⟨⟨hphony, hinputs⟩, houtputs⟩, hdeps⟩, hexists⟩, hout⟩ := h
  refine ⟨?_, ?_, ?_, ?_⟩
  · rintro _ rfl
    exact hphony
  · rintro _ rfl
    exact ⟨hdeps, .inr (by simp [houtputs, hexists])⟩
  · rintro _ rfl i hi
    simp [hinputs] at hi
  · rintro _ rfl
    exact ⟨0, rfl, [97], by simp [houtputs], hout⟩

/-- The statement `build a: phony a` is accepted, and if the file `a` exists then the scan of it
succeeds. With its edge in the plan, `CleanNode` does not return, however deep it may go. -/
theorem cleanNode_never_returns :
    ∃ disk filename st nodes w, Parses {} {} disk filename st ∧
      recomputeDirty {} 3 [97] st.world = .ok nodes w ∧
      ∀ fuel w', cleanNode {} fuel [97]
        { w with want := fun e => if e = 0 then some .toStart else none } ≠ .ok () w' := by
  have eval : (parsedState {} "build a: phony a\n" fun p =>
      if p = "a" then some (.file 1 [] false) else none).any (fun st =>
        match recomputeDirty {} 3 [97] st.world with
        | .ok _ w    => namesItself w
        | .error _ _ => false) = true := by
    decide +kernel
  obtain ⟨disk, filename, st, hst, facts⟩ := parses_of_parsedState eval
  split at facts
  next nodes w hscan =>
    refine ⟨disk, filename, st, nodes, w, hst, hscan, ?_⟩
    have hout : 0 ∈ (w.nodes [97]).outEdges := by
      simp only [namesItself, Bool.and_eq_true, decide_eq_true_eq] at facts
      exact facts.2
    refine (endless_of_namesItself facts).cleanNode_ne_ok (fun e => ?_) hout rfl {}
    by_cases he : e = 0 <;> simp [World.wantedSet, World.Wants, he]
  next => cases facts

end Reninja
