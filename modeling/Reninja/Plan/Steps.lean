import Reninja.Plan.Basic
import Reninja.Scan.Quiet

/-!
# What planning can do to a build

Every change that a call of the plan makes to the state of a build is quiet or one of the steps
listed here. The functions of the source take such steps and no others, whether they return or
fail; what all steps keep is kept by all of them.
-/

namespace Reninja

open Program World

variable {w w' : World}

/-! ### Steps -/

namespace World

variable (w : World)

def wantStart (e : EdgeId) : World :=
  let w := w.setWant e (some .toStart)
  let w := { w with wantedEdges := w.wantedEdges + 1 }
  let w := if (w.edges e).phony then w else { w with commandEdges := w.commandEdges + 1 }
  w.log (.wanted e)

/-- Put an edge into the queue or into the list of its pool. -/
def enqueue (e : EdgeId) : World :=
  let p := (w.edges e).pool
  if (w.pools p).shouldDelayEdge then
    (w.delayEdge e).retrieveReadyEdges p
  else
    { w.edgeScheduled e with ready := w.ready ++ [e] }

def schedule (e : EdgeId) : World :=
  ((w.log (.scheduled e)).setWant e (some .toFinish)).enqueue e

/-- Give back the place of an edge in its pool, and let the pool fill it. -/
def freePool (e : EdgeId) : World :=
  (if w.want e = some .nothing then w else w.poolEdgeFinished e).retrieveReadyEdges (w.edges e).pool

def logFinished (e : EdgeId) (r : EdgeResult) : World :=
  (if w.jobserver.isSome then w.log (.released (w.edges e).jobSlot) else w).log (.finished e r)

def giveBack (e : EdgeId) (r : EdgeResult) : World := (w.freePool e).logFinished e r

def leave (e : EdgeId) : World :=
  let w := if w.want e ≠ some .nothing then { w with wantedEdges := w.wantedEdges - 1 } else w
  (w.setWant e none).setEdge e fun x => { x with outputsReady := true }

def unwant (e : EdgeId) : World :=
  let w := w.log (.unwanted e w.snapshot)
  let w := { w.setWant e (some .nothing) with wantedEdges := w.wantedEdges - 1 }
  if (w.edges e).phony then w else { w with commandEdges := w.commandEdges - 1 }

end World

/-- What the surroundings of a call vouch for: when an edge that is wanted finishes, when an edge
is un-wanted, when an edge is delayed without being scheduled, and when weights change. -/
structure Licence where
  finish : World → EdgeId → EdgeResult → Prop
  unwant : World → EdgeId → Prop
  delay : World → EdgeId → Prop
  weigh : World → Prop

def Licence.any : Licence := ⟨fun _ _ _ => True, fun _ _ => True, fun _ _ => True, fun _ => True⟩

/-- One change to the state. The guards say when it is made. -/
inductive Step (L : Licence) : World → World → Prop
  | quiet (w w' : World) (h : Quiet none w w') : Step L w w'
  | weigh (w : World) (e : EdgeId) (c : Int) (h : L.weigh w) :
      Step L w (w.setEdge e fun x => { x with criticalPathWeight := c })
  | wantNothing (w : World) (e : EdgeId) (h : w.want e = none)
      (hready : (w.edges e).outputsReady = false) : Step L w (w.setWant e (some .nothing))
  | wantStart (w : World) (e : EdgeId) (h : w.want e = some .nothing)
      (hready : (w.edges e).outputsReady = false) : Step L w (w.wantStart e)
  | schedule (w : World) (e : EdgeId) (h : w.want e = some .toStart)
      (hready : w.allInputsReady e = true) : Step L w (w.schedule e)
  | delay (w : World) (e : EdgeId) (h : w.want e = some .toStart)
      (hready : w.allInputsReady e = true) (hpool : (w.pools (w.edges e).pool).depth ≠ 0)
      (hdelay : L.delay w e) : Step L w ((w.log (.delayed e)).delayEdge e)
  | retrieve (w : World) (p : PoolId) : Step L w (w.retrieveReadyEdges p)
  | fail (w : World) (e : EdgeId) (h : w.want e ≠ none)
      (hfinish : w.want e = some .nothing ∨ L.finish w e .failed) : Step L w (w.giveBack e .failed)
  | succeed (w : World) (e : EdgeId) (h : w.want e ≠ none)
      (hfinish : w.want e = some .nothing ∨ L.finish w e .succeeded) :
      Step L w ((w.giveBack e .succeeded).leave e)
  | unwant (w : World) (e : EdgeId) (h : L.unwant w e) : Step L w (w.unwant e)

abbrev Steps (L : Licence) := Relation.ReflTransGen (Step L)

/-! ### Equations -/

section Equations

variable (w : World) (e : EdgeId)

lemma World.wantStart_eq : w.wantStart e = { w with
    want := Function.update w.want e (some .toStart)
    wantedEdges := w.wantedEdges + 1
    commandEdges := if (w.edges e).phony then w.commandEdges else w.commandEdges + 1
    trace := w.trace ++ [.wanted e] } := by
  cases hp : (w.edges e).phony <;> simp [wantStart, setWant, log, hp]

lemma World.unwant_eq : w.unwant e = { w with
    want := Function.update w.want e (some .nothing)
    wantedEdges := w.wantedEdges - 1
    commandEdges := if (w.edges e).phony then w.commandEdges else w.commandEdges - 1
    trace := w.trace ++ [.unwanted e w.snapshot] } := by
  cases hp : (w.edges e).phony <;> simp [unwant, setWant, log, hp]

lemma World.leave_eq : w.leave e = { w with
    want := Function.update w.want e none
    wantedEdges := if w.want e = some .nothing then w.wantedEdges else w.wantedEdges - 1
    edges := Function.update w.edges e { w.edges e with outputsReady := true } } := by
  by_cases h : w.want e = some .nothing <;>
    simp [leave, setWant, setEdge, h]

def World.finishEvents (r : EdgeResult) : List Event :=
  (if w.jobserver.isSome then [.released (w.edges e).jobSlot] else []) ++ [.finished e r]

lemma World.logFinished_eq (r : EdgeResult) :
    w.logFinished e r = { w with trace := w.trace ++ w.finishEvents e r } := by
  cases h : w.jobserver.isSome <;> simp [logFinished, finishEvents, log, h]

end Equations

def World.SameButQueue (w w' : World) : Prop := w' = { w with pools := w'.pools, ready := w'.ready }

section Queue

variable (w : World) (e : EdgeId)

lemma World.SameButQueue.trans {w w' w'' : World} (h₁ : w.SameButQueue w')
    (h₂ : w'.SameButQueue w'') : w.SameButQueue w'' := by
  rw [World.SameButQueue] at h₁ h₂ ⊢
  rw [h₂, h₁]

lemma World.delayEdge_sameButQueue : w.SameButQueue (w.delayEdge e) := by
  unfold delayEdge
  simp only
  split <;> rfl

lemma World.retrieveReadyEdges_sameButQueue (p : PoolId) :
    w.SameButQueue (w.retrieveReadyEdges p) := rfl

lemma World.enqueue_sameButQueue : w.SameButQueue (w.enqueue e) := by
  unfold enqueue
  simp only
  split
  · exact (w.delayEdge_sameButQueue e).trans (retrieveReadyEdges_sameButQueue _ _)
  · rfl

lemma World.freePool_sameButQueue : w.SameButQueue (w.freePool e) := by
  unfold freePool
  split
  · rfl
  · rfl

lemma World.SameButQueue.grows (h : w.SameButQueue w') : Grows w w' := by
  rw [h]
  exact .of_eq rfl rfl ⟨[], by simp⟩ rfl rfl

lemma World.giveBack_grows (r : EdgeResult) : Grows w (w.giveBack e r) := by
  refine IsTrans.trans _ _ _ (w.freePool_sameButQueue e).grows ?_
  rw [giveBack, logFinished_eq]
  exact .of_eq rfl rfl ⟨_, rfl⟩ rfl rfl

lemma World.giveBack_want (r : EdgeResult) : (w.giveBack e r).want = w.want := by
  rw [giveBack, logFinished_eq]
  have h := w.freePool_sameButQueue e
  rw [World.SameButQueue] at h
  rw [h]

end Queue

section Steps

variable {L : Licence} {w : World} {e : EdgeId}
variable {want : Want} {w' : World}

lemma Steps.keep {R : World → World → Prop} [Std.Refl R] [IsTrans World R]
    (h : ∀ {a b}, Step L a b → R a b) (hs : Steps L w w') : R w w' := by
  induction hs with
  | refl => exact Std.Refl.refl w
  | tail _ hstep ih => exact IsTrans.trans _ _ _ ih (h hstep)

lemma Moves.step {f : World → World} (h : Step L w (f w)) :
    Moves (Steps L) w (modify f : M PUnit) := .single h

lemma Step.mono {L' : Licence} (hfinish : ∀ w e r, L.finish w e r → L'.finish w e r)
    (hunwant : ∀ w e, L.unwant w e → L'.unwant w e) (hdelay : ∀ w e, L.delay w e → L'.delay w e)
    (hweigh : ∀ w, L.weigh w → L'.weigh w) (h : Step L w w') : Step L' w w' := by
  cases h with
  | quiet _ hq => exact .quiet _ _ hq
  | weigh e c hc => exact .weigh w e c (hweigh w hc)
  | wantNothing e he hready => exact .wantNothing w e he hready
  | wantStart e he hready => exact .wantStart w e he hready
  | schedule e he hready => exact .schedule w e he hready
  | delay e he hready hpool hd => exact .delay w e he hready hpool (hdelay w e hd)
  | retrieve p => exact .retrieve w p
  | fail e he hf => exact .fail w e he (hf.imp id (hfinish w e _))
  | succeed e he hf => exact .succeed w e he (hf.imp id (hfinish w e _))
  | unwant e he => exact .unwant w e (hunwant w e he)

lemma steps_of_quiet {α : Type} {m : M α} (h : Moves (Quiet none) w m) : Moves (Steps L) w m :=
  .single (.quiet _ _ h)

lemma wantEdge_steps (h : w.want e = some .nothing) (hready : (w.edges e).outputsReady = false) :
    Moves (Steps L) w (wantEdge e) :=
  .single (.wantStart w e h hready)

lemma enterPlan_steps (hready : (w.edges e).outputsReady = false) :
    Moves (Steps L) w (enterPlan e) := by
  refine .modify ?_
  by_cases h : w.want e = none
  · rw [if_pos h]
    exact .single (.wantNothing w e h hready)
  · rw [if_neg h]

lemma enterPlan_edges {u : Unit} {t : World} (hok : enterPlan e w = .ok u t) :
    t.edges = w.edges := by
  rw [enterPlan, modify_ok] at hok
  rw [← hok]
  split <;> rfl

lemma wantIfDirty_steps (n : Path) (hready : (w.edges e).outputsReady = false) :
    Moves (Steps L) w (wantIfDirty n e) :=
  Moves.get_bind (.ite (fun h => wantEdge_steps h.2 hready) fun _ => .pure _)

lemma scheduleWork_steps (h : w.want e = some want) (hready : w.allInputsReady e = true) :
    Moves (Steps L) w (scheduleWork e want) := by
  cases want with
  | nothing => exact .throw _
  | toFinish => exact .pure _
  | toStart => exact .single (.schedule w e h hready)

lemma addInputs_moves {R : World → World → Prop} [Std.Refl R] [IsTrans World R]
    {add : Path → Walk → M (Bool × Walk)} (hadd : ∀ w n walk, Moves R w (add n walk)) (walk : Walk)
    (is : List Path) : Moves R w (addInputs add walk is) := by
  induction is generalizing w walk with
  | nil => exact .pure _
  | cons i is ih => exact .bind (hadd _ _ _) fun _ _ _ => ih _

lemma addSubTarget_steps (fuel : Nat) (n : Path) (dependent : Option Path) (walk : Walk) :
    Moves (Steps L) w (addSubTarget fuel n dependent walk) := by
  induction fuel generalizing w n dependent walk with
  | zero => exact .throw _
  | succ fuel ih =>
    refine .get_bind ?_
    cases w.producer n with
    | none => exact .ite (fun _ => .throw _) fun _ => .pure _
    | some e =>
      refine .ite (fun _ => .pure _) fun hready => ?_
      rw [Bool.not_eq_true] at hready
      refine .bind (enterPlan_steps hready) fun _ t ht => .ite (fun _ => .pure _)
        fun _ => ?_
      rw [← enterPlan_edges ht] at hready
      refine .bind (wantIfDirty_steps n hready) fun _ _ _ => .ite (fun _ => .pure _)
        fun _ => ?_
      exact .bind (addInputs_moves (fun _ i walk => ih i _ walk) _ _) fun _ _ _ => .pure _

lemma addTarget_steps (fuel : Nat) (n : Path) : Moves (Steps L) w (addTarget fuel n) := by
  have htarget : Moves (Quiet none) w
      (modify fun w => { w with targets := w.targets ++ [n] } : M _) :=
    Moves.modify (.of_eq rfl rfl rfl rfl rfl rfl rfl rfl rfl (List.append_nil _).symm (by simp))
  exact .bind (steps_of_quiet htarget) fun _ _ _ =>
    Moves.bind (addSubTarget_steps fuel n none none) fun _ _ _ => .pure _

lemma cleanNode_steps (hunwant : ∀ t f, L.unwant t f) (env : Env) (fuel : Nat) (n : Path) :
    Moves (Steps L) w (cleanNode env fuel n) := by
  induction fuel generalizing w n with
  | zero => exact .throw _
  | succ fuel ih =>
    refine .bind (steps_of_quiet (updNode_quiet rfl (List.Subset.refl _) id)) fun _ _ _ => ?_
    refine .bind (getNode_moves n) fun _ _ _ => .forEach fun e _ t => ?_
    refine .get_bind ?_
    split
    · exact .pure _
    · exact .pure _
    · refine .ite (fun _ => .pure _) fun _ => .ite (fun _ => ?_) fun _ => .pure _
      refine .bind (steps_of_quiet recomputeOutputsDirty_quiet) fun _ _ _ =>
        Moves.ite (fun _ => .pure _) fun _ => ?_
      exact .bind (.forEach fun o _ _ => ih o) fun _ t _ =>
        .single (.unwant t e (hunwant t e))

section Unmark

variable {unmark : Path → List Path → M (List Path)}
  (hunmark : ∀ w n l, Moves (Quiet none) w (unmark n l))

include hunmark

lemma visitOutputs_quiet (dependents os : List Path) :
    Moves (Quiet none) w (unmarkEdge.visitOutputs unmark dependents os) := by
  induction os generalizing w dependents with
  | nil => exact .pure _
  | cons o os ih =>
    exact .ite (fun _ => ih _) fun _ => .bind (hunmark _ _ _) fun _ _ _ => ih _

lemma unmarkEdges_quiet (dependents : List Path) (es : List EdgeId) :
    Moves (Quiet none) w (unmarkEdges unmark dependents es) := by
  induction es generalizing w dependents with
  | nil => exact .pure _
  | cons e es ih =>
    refine .bind (.get_bind (.ite (fun _ => ?_) fun _ => .pure _))
      fun _ _ _ => ih _
    exact .bind (.modify (.setEdge rfl rfl rfl rfl (List.Subset.refl _)
        (fun h => ⟨h, rfl⟩) rfl (.inr rfl)))
      fun _ _ _ => visitOutputs_quiet hunmark _ _

end Unmark

lemma unmarkDependents_quiet (fuel : Nat) (n : Path) (dependents : List Path) :
    Moves (Quiet none) w (unmarkDependents fuel n dependents) := by
  induction fuel generalizing w n dependents with
  | zero => exact .throw _
  | succ fuel ih =>
    exact .bind (getNode_moves n) fun m _ _ => unmarkEdges_quiet (fun _ _ _ => ih _ _) _ _

lemma addValidation_steps (fuel : Nat) (v : Path) : Moves (Steps L) w (addValidation fuel v) := by
  refine .get_bind ?_
  cases w.producer v with
  | none => exact .pure _
  | some e =>
    exact .ite (fun _ => .pure _) fun _ =>
      Moves.bind (steps_of_quiet (note_quiet trivial)) fun _ _ _ => addTarget_steps fuel v

lemma wantRefreshed_steps (n : Path) : Moves (Steps L) w (wantRefreshed n) := by
  refine .get_bind (.ite (fun _ => ?_) fun _ => .pure _)
  cases w.producer n with
  | none => exact .throw _
  | some e =>
    refine .ite (fun _ => .throw _) fun hready => ?_
    rw [Bool.not_eq_true] at hready
    split
    · exact .throw _
    · exact wantEdge_steps ‹_› hready
    · exact .pure _

lemma refreshDependent_steps (env : Env) (fuel : Nat) (n : Path) :
    Moves (Steps L) w (refreshDependent env fuel n) := by
  refine .bind (steps_of_quiet (recomputeDirty_quiet env fuel n)) fun _ _ _ => ?_
  refine .bind (.forAll fun v _ _ => addValidation_steps fuel v) fun _ _ _ => ?_
  exact .ite (fun _ => .bind (wantRefreshed_steps n) fun _ _ _ => .pure _)
    fun _ => .pure _

lemma refreshDyndepDependents_steps (env : Env) (fuel : Nat) (n : Path) :
    Moves (Steps L) w (refreshDyndepDependents env fuel n) :=
  Moves.bind (steps_of_quiet (unmarkDependents_quiet fuel n _)) fun _ _ _ =>
    Moves.bind (steps_of_quiet (rangeOver_quiet env _)) fun _ _ _ =>
      Moves.forAll fun m _ _ => refreshDependent_steps env fuel m

lemma walkDiscovered_steps (fuel : Nat) (walk : List EdgeId) (l : List (EdgeId × Path)) :
    Moves (Steps L) w (walkDiscovered fuel walk l) := by
  induction l generalizing w walk with
  | nil => exact .pure _
  | cons p rest ih =>
    refine .bind firstOutput_moves fun _ _ _ => ?_
    exact .bind (addSubTarget_steps fuel _ _ _) fun r _ _ =>
      Moves.ite (fun _ => ih _) fun _ => .pure _

/-! ### The end of an edge -/

section Finish

variable {env : Env} {fuel : Nat} {finish : EdgeId → EdgeResult → M Bool}
  (hfinish : ∀ w e, w.want e = some .nothing → Moves (Steps L) w (finish e .succeeded))

include hfinish

lemma maybeReady_steps : Moves (Steps L) w (maybeReady finish e) := by
  refine .get_bind ?_
  cases hw : w.want e with
  | none => exact .pure _
  | some want =>
    refine .get_bind (.ite (fun hready => .ite (fun _ => ?_) fun h => ?_) fun _ =>
      Moves.pure _)
    · exact .bind (scheduleWork_steps hw hready) fun _ _ _ => .pure _
    · simp only [ne_eq, not_not] at h
      exact hfinish w e (by rw [hw, h])

lemma dyndepsLoaded_steps (n : Path) (ddf : DyndepFile) :
    Moves (Steps L) w (dyndepsLoaded env fuel finish n ddf) := by
  refine .bind (refreshDyndepDependents_steps env fuel n) fun _ t _ =>
    Moves.ite (fun _ => ?_) fun _ => .pure _
  refine .get_bind (.bind (steps_of_quiet (rangeOver_quiet env ddf)) fun _ _ _ => ?_)
  refine .bind (steps_of_quiet (note_quiet trivial)) fun _ _ _ => ?_
  refine .bind (walkDiscovered_steps fuel _ _) fun walk t _ => ?_
  cases walk with
  | none => exact .pure _
  | some walk =>
    exact .get_bind (.bind (steps_of_quiet (rangeOver_quiet env _)) fun _ _ _ =>
      Moves.forAll fun e _ _ => maybeReady_steps hfinish)

lemma builderLoadDyndeps_steps (n : Path) :
    Moves (Steps L) w (builderLoadDyndeps env fuel finish n) :=
  Moves.bind (steps_of_quiet (loadDyndeps_quiet env n)) fun ddf _ _ =>
    Moves.bind (dyndepsLoaded_steps hfinish n ddf) fun _ _ _ => .pure _

lemma nodeFinished_steps (n : Path) : Moves (Steps L) w (nodeFinished env fuel finish n) := by
  refine .bind (getNode_moves n) fun _ _ _ => .ite (fun _ => ?_) fun _ => ?_
  · exact .bind (builderLoadDyndeps_steps hfinish n) fun _ _ _ => .pure _
  · exact .bind (getNode_moves n) fun m _ _ => .forAll fun e _ _ => maybeReady_steps hfinish

end Finish

lemma giveBack_apply (h : w.want e = some want) (r : EdgeResult) :
    Reninja.giveBack e (decide (want ≠ .nothing)) r w = .ok () (w.giveBack e r) := by
  simp only [Reninja.giveBack, release, record, bind_apply, modify_apply, World.giveBack,
    World.freePool, World.logFinished, h]
  cases want <;> rfl

lemma leavePlan_apply (h : w.want e = some want) :
    leavePlan e (decide (want ≠ .nothing)) w = .ok () (w.leave e) := by
  simp only [leavePlan, updEdge, bind_apply, modify_apply, leave, h]
  cases want <;> rfl

section Apply

variable (env : Env) (fuel : Nat)

/-- The three outcomes of `EdgeFinished`: the edge is not in the plan, it has failed, or it leaves
the plan and its outputs are looked at. -/
lemma edgeFinished_missing (h : w.want e = none) (r : EdgeResult) :
    edgeFinished env (fuel + 1) e r w = .error (.panic "edge not found") w := by
  simp only [edgeFinished, edgeFinishedBody, bind_apply, get_apply, h, throw_apply]

lemma edgeFinished_failed (h : w.want e ≠ none) :
    edgeFinished env (fuel + 1) e .failed w = .ok true (w.giveBack e .failed) := by
  obtain ⟨want, hw⟩ := Option.ne_none_iff_exists'.mp h
  simp only [edgeFinished, edgeFinishedBody, bind_apply, get_apply, hw, giveBack_apply hw,
    pure_apply]

lemma edgeFinished_succeeded (h : w.want e ≠ none) :
    edgeFinished env (fuel + 1) e .succeeded w = forAll (w.edges e).outputs
      (nodeFinished env fuel (edgeFinished env fuel)) ((w.giveBack e .succeeded).leave e) := by
  obtain ⟨want, hw⟩ := Option.ne_none_iff_exists'.mp h
  have hleave := leavePlan_apply ((congrFun (w.giveBack_want e .succeeded) e).trans hw)
  have houtputs : (((w.giveBack e .succeeded).leave e).edges e).outputs = (w.edges e).outputs := by
    rw [World.leave_eq, World.giveBack, World.logFinished_eq, w.freePool_sameButQueue e]
    simp
  simp only [edgeFinished, edgeFinishedBody, bind_apply, get_apply, hw, giveBack_apply hw, hleave,
    getEdge, pure_apply, houtputs]

end Apply

lemma edgeFinished_steps (env : Env) (fuel : Nat) (result : EdgeResult)
    (hfinish : w.want e = some .nothing ∨ L.finish w e result) :
    Moves (Steps L) w (edgeFinished env fuel e result) := by
  induction fuel generalizing w e result with
  | zero => exact .throw _
  | succ fuel ih =>
    rw [Moves]
    by_cases hw : w.want e = none
    · rw [edgeFinished_missing env fuel hw]
      exact .refl
    · cases result with
      | failed =>
        rw [edgeFinished_failed env fuel hw]
        exact .single (.fail w e hw hfinish)
      | succeeded =>
        rw [edgeFinished_succeeded env fuel hw]
        refine .head (.succeed w e hw hfinish) ?_
        exact Moves.forAll fun o _ _ => nodeFinished_steps (fun t f hf => ih .succeeded (.inl hf)) o

lemma edgeFinished_left {env : Env} {fuel : Nat} {b : Bool}
    (hok : edgeFinished env fuel e .succeeded w = .ok b w') :
    Steps L ((w.giveBack e .succeeded).leave e) w' := by
  cases fuel with
  | zero => exact absurd hok throw_ok
  | succ fuel =>
    by_cases hw : w.want e = none
    · rw [edgeFinished_missing env fuel hw] at hok
      cases hok
    · rw [edgeFinished_succeeded env fuel hw] at hok
      have hmoves : Moves (Steps L) ((w.giveBack e .succeeded).leave e) (forAll (w.edges e).outputs
          (nodeFinished env fuel (edgeFinished env fuel))) :=
        Moves.forAll fun o _ _ => nodeFinished_steps
          (fun _ _ hf => edgeFinished_steps env fuel .succeeded (.inl hf)) o
      exact hmoves.of_ok hok

/-! ### Before the build -/

lemma topoVisit_moves {R : World → World → Prop} [Std.Refl R] [IsTrans World R] {g : World}
    (fuel : Nat) (e : EdgeId) (s : TopoSort) : Moves R w (topoVisit g fuel e s) := by
  induction fuel generalizing w e s with
  | zero => exact .throw _
  | succ fuel ih =>
    refine .ite (fun _ => .pure _) fun _ => ?_
    exact .bind (visitAll_moves (fun _ _ _ => ih _ _) _ _) fun _ _ _ => .pure _
where
  visitAll_moves {R : World → World → Prop} [Std.Refl R] [IsTrans World R]
      {visit : EdgeId → TopoSort → M TopoSort} (hvisit : ∀ w e s, Moves R w (visit e s)) {w : World}
      (s : TopoSort) (es : List EdgeId) : Moves R w (topoVisit.visitAll visit s es) := by
    induction es generalizing w s with
    | nil => exact .pure _
    | cons e es ih => exact .bind (hvisit _ _ _) fun _ _ _ => ih _

/-- As long as weights may change, they change in steps. -/
def Weighs (L : Licence) (w w' : World) : Prop := L.weigh w → Steps L w w' ∧ L.weigh w'

instance : Std.Refl (Weighs L) := ⟨fun _ h => ⟨.refl, h⟩⟩

instance : IsTrans World (Weighs L) where
  trans _ _ _ h₁ h₂ h := by
    obtain ⟨hs₁, h⟩ := h₁ h
    obtain ⟨hs₂, h⟩ := h₂ h
    exact ⟨hs₁.trans hs₂, h⟩

section Prepare

variable (hkeep : ∀ w e c, L.weigh w →
  L.weigh (w.setEdge e fun x => { x with criticalPathWeight := c }))

include hkeep

lemma setWeight_weighs (g : Edge → Int) :
    Moves (Weighs L) w (updEdge e fun x => { x with criticalPathWeight := g x }) :=
  Moves.modify fun h => ⟨.single (.weigh w e (g (w.edges e)) h), hkeep w e _ h⟩

lemma computeCriticalPath_weighs (fuel : Nat) :
    Moves (Weighs L) w (computeCriticalPath fuel) := by
  refine .get_bind (.bind (topoVisit_moves.visitAll_moves (fun _ _ _ =>
    topoVisit_moves _ _ _) _ _) fun sorted _ _ => ?_)
  refine .bind (.forEach fun e _ _ => setWeight_weighs hkeep _) fun _ _ _ => ?_
  refine .forEach fun e _ _ => .bind (getEdge_moves e) fun x _ _ => ?_
  refine .forEach fun i _ t => .get_bind ?_
  cases t.producer i with
  | none => exact .pure _
  | some f => exact .ite (fun _ => setWeight_weighs hkeep _) fun _ => .pure _

end Prepare

section Initial

variable (hdelay : ∀ t f, L.delay t f)

include hdelay

lemma scheduleInitialEdge_steps (pools : List PoolId) :
    Moves (Steps L) w (scheduleInitialEdge e pools) := by
  refine .get_bind ?_
  split
  · rename_i hw
    refine .ite (fun hready => .ite (fun hpool => ?_) fun _ => ?_) fun _ => .pure _
    · exact .single (.delay w e hw hready (by simpa [Pool.shouldDelayEdge] using hpool)
        (hdelay w e))
    · exact .bind (scheduleWork_steps hw hready) fun _ _ _ => .pure _
  · exact .pure _

lemma scheduleAll_steps (pools : List PoolId) (es : List EdgeId) :
    Moves (Steps L) w (scheduleInitialEdges.scheduleAll pools es) := by
  induction es generalizing w pools with
  | nil => exact .pure _
  | cons e es ih => exact .bind (scheduleInitialEdge_steps hdelay _) fun _ _ _ => ih _

lemma scheduleInitialEdges_steps (env : Env) :
    Moves (Steps L) w (scheduleInitialEdges env) := by
  refine Moves.get_bind (Moves.ite (fun _ => Moves.throw _) fun _ => ?_)
  refine Moves.bind (steps_of_quiet (rangeOver_quiet env _)) fun es _ _ => ?_
  exact Moves.bind (scheduleAll_steps hdelay _ _) fun pools _ _ =>
    Moves.bind (steps_of_quiet (rangeOver_quiet env pools)) fun _ _ _ =>
      Moves.forEach fun p _ t => Moves.step (.retrieve t p)

lemma prepareQueue_steps (env : Env) (fuel : Nat) (hweigh : L.weigh w)
    (hkeep : ∀ w e c, L.weigh w →
      L.weigh (w.setEdge e fun x => { x with criticalPathWeight := c })) :
    Moves (Steps L) w (prepareQueue env fuel) :=
  Moves.bind (computeCriticalPath_weighs hkeep fuel hweigh).1 fun _ _ _ =>
    scheduleInitialEdges_steps hdelay env

end Initial

lemma addUnlessReady_steps (fuel : Nat) (n : Path) :
    Moves (Steps L) w (addUnlessReady fuel n) := by
  refine .get_bind ?_
  cases w.producer n with
  | none => exact addTarget_steps fuel n
  | some e => exact .ite (fun _ => .pure _) fun _ => addTarget_steps fuel n

lemma addUnreadyValidation_steps (fuel : Nat) (v : Path) :
    Moves (Steps L) w (addUnreadyValidation fuel v) := by
  refine .get_bind ?_
  cases w.producer v with
  | none => exact .pure _
  | some e => exact .ite (fun _ => .pure _) fun _ => addTarget_steps fuel v

lemma builderAddTarget_steps (env : Env) (fuel : Nat) (n : Path) :
    Moves (Steps L) w (builderAddTarget env fuel n) := by
  refine .bind (steps_of_quiet (recomputeDirty_quiet env fuel n)) fun _ _ _ => ?_
  exact .bind (addUnlessReady_steps fuel n) fun _ _ _ => .ite
    (fun _ => .forAll fun v _ _ => addUnreadyValidation_steps fuel v) fun _ => .pure _

lemma Step.grows (h : Step L w w') : Grows w w' := by
  cases h with
  | quiet _ hq => exact hq.grows
  | weigh e c _ =>
    exact .setEdge rfl rfl rfl (List.Subset.refl _) (List.Subset.refl _) fun h => ⟨h, rfl⟩
  | wantNothing e _ _ => exact .of_eq rfl rfl ⟨[], by simp [setWant]⟩ rfl rfl
  | wantStart e _ _ =>
    rw [wantStart_eq]
    exact .of_eq rfl rfl ⟨[.wanted e], rfl⟩ rfl rfl
  | schedule e _ _ =>
    refine IsTrans.trans _ _ _ ?_ (enqueue_sameButQueue _ e).grows
    exact .of_eq rfl rfl ⟨[.scheduled e], rfl⟩ rfl rfl
  | delay e _ _ _ _ =>
    refine IsTrans.trans _ _ _ ?_ (delayEdge_sameButQueue _ e).grows
    exact .of_eq rfl rfl ⟨[.delayed e], rfl⟩ rfl rfl
  | retrieve p => exact (w.retrieveReadyEdges_sameButQueue p).grows
  | fail e _ _ => exact w.giveBack_grows e _
  | succeed e _ _ =>
    have hset : ∀ t : World, Grows t (t.setEdge e fun x => { x with outputsReady := true }) :=
      fun t => .setEdge rfl rfl rfl (List.Subset.refl _) (List.Subset.refl _) fun h => ⟨h, rfl⟩
    refine IsTrans.trans _ _ _ (IsTrans.trans _ _ _ (w.giveBack_grows e .succeeded) (hset _)) ?_
    rw [leave_eq]
    exact .of_eq rfl rfl ⟨[], by simp [setEdge]⟩ rfl rfl
  | unwant e _ =>
    rw [unwant_eq]
    exact .of_eq rfl rfl ⟨[_], rfl⟩ rfl rfl

lemma Steps.grows (h : Steps L w w') : Grows w w' := h.keep Step.grows

end Steps

end Reninja
