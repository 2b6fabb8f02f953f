import Reninja.Plan.Initial

/-!
# Scheduling and the order of map iteration

`ScheduleInitialEdges` ranges over the want map and over a map of pools. The order of the two
ranges shows in the ready queue only, as a list, and neither `Peek` nor a pool can tell two
queues with the same edges apart. Without dyndep files nothing else ranges over a map.
-/

namespace Reninja

open Program World Agrees

/-- A call of the main loop to the plan. -/
inductive Op where
  | findWork
  | edgeFinished (e : EdgeId) (r : EdgeResult)

def Op.run (env : Env) (fuel : Nat) : Op → M (Option EdgeId)
  | .findWork => Reninja.findWork
  | .edgeFinished e r => do let _ ← Reninja.edgeFinished env fuel e r; pure none

/-- The edges that `FindWork` returns in a sequence of calls. -/
def runOps (env : Env) (fuel : Nat) : List Op → M (List EdgeId)
  | [] => pure []
  | op :: ops => do
    let found ← op.run env fuel
    let rest ← runOps env fuel ops
    pure (found.toList ++ rest)

def planAndRun (env : Env) (fuel : Nat) (targets : List Path) (ops : List Op) :
    M (List EdgeId) := do
  forEach targets fun t => do let _ ← builderAddTarget env fuel t
  prepareQueue env fuel
  runOps env fuel ops

/-- The edges that `FindWork` returns, or how the calls fail. -/
def taken (env : Env) (fuel : Nat) (targets : List Path) (ops : List Op) (w : World) :
    Except Failure (List EdgeId) :=
  match planAndRun env fuel targets ops w with
  | .ok l _ => .ok l
  | .error f _ => .error f

/-! ### States that cannot be told apart -/

/-- The states differ in the order of the queue and in what the program never reads; no dyndep
file is pending. -/
structure Alike (w₁ w₂ : World) : Prop where
  same : w₂ = { w₁ with ready := w₂.ready, ranges := w₂.ranges, trace := w₂.trace }
  ready : w₁.ready.Perm w₂.ready
  settled : ∀ n, (w₁.nodes n).dyndepPending = false

section Alike

variable {w w₁ w₂ : World} {e f : EdgeId}

lemma Alike.refl (h : ∀ n, (w.nodes n).dyndepPending = false) : Alike w w := ⟨rfl, .refl _, h⟩

lemma Alike.peek (h : Alike w₁ w₂) : w₁.peek = w₂.peek := by
  have hless : w₂.edgePriorityLess = w₁.edgePriorityLess := by
    rw [h.same]
    rfl
  cases h₁ : w₁.peek with
  | none =>
    rw [peek_eq_none] at h₁
    have hnil := h.ready
    rw [h₁] at hnil
    rw [eq_comm, peek_eq_none, List.nil_perm.mp hnil]
  | some a =>
    cases h₂ : w₂.peek with
    | none =>
      rw [peek_eq_none] at h₂
      have ha := h.ready.mem_iff.mp (w₁.peek_mem h₁)
      simp [h₂] at ha
    | some b =>
      by_contra hne
      have hab : a ≠ b := fun hab => hne (congrArg some hab)
      have hb := w₁.peek_greatest h₁ (h.ready.mem_iff.mpr (w₂.peek_mem h₂)) hab.symm
      have ha := w₂.peek_greatest h₂ (h.ready.mem_iff.mp (w₁.peek_mem h₁)) hab
      rw [hless] at ha
      have := IsTrans.trans (r := fun x y => w₁.edgePriorityLess x y = true) _ _ _ ha hb
      rw [edgePriorityLess_irrefl] at this
      cases this

/-- A change that appends to the queue and otherwise does not look at it. -/
lemma Alike.append {g : World → World} (h : Alike w₁ w₂) {l : List EdgeId}
    (hg : ∀ r k t, ∃ k' t', g { w₁ with ready := r, ranges := k, trace := t } =
      { g w₁ with ready := r ++ l, ranges := k', trace := t' })
    (hnodes : (g w₁).nodes = w₁.nodes) : Alike (g w₁) (g w₂) := by
  obtain ⟨_, _, h₁⟩ := hg w₁.ready w₁.ranges w₁.trace
  obtain ⟨_, _, h₂⟩ := hg w₂.ready w₂.ranges w₂.trace
  have hready : (g w₁).ready = w₁.ready ++ l := congrArg World.ready h₁
  rw [h.same]
  refine ⟨?_, ?_, by rw [hnodes]; exact h.settled⟩
  · rw [h₂]
  · rw [h₂, hready]
    exact h.ready.append_right l

lemma Alike.log (h : Alike w₁ w₂) (ev : World → Event) :
    Alike (w₁.log (ev w₁)) (w₂.log (ev w₂)) :=
  h.append (g := fun w => w.log (ev w)) (l := [])
    (fun r k t => ⟨k, _, by rw [List.append_nil]; rfl⟩) rfl

lemma Alike.setWant (h : Alike w₁ w₂) (v : Option Want) : Alike (w₁.setWant e v) (w₂.setWant e v) :=
  h.append (g := fun w => w.setWant e v) (l := [])
    (fun r k t => ⟨k, t, by rw [List.append_nil]; rfl⟩) rfl

lemma Alike.retrieveReadyEdges (h : Alike w₁ w₂) (p : PoolId) :
    Alike (w₁.retrieveReadyEdges p) (w₂.retrieveReadyEdges p) :=
  h.append (g := fun w => w.retrieveReadyEdges p) (l := (retrieveLoop (w₁.pools p).depth
    (w₁.pools p).currentUse (w₁.pools p).delayed).1) (fun _ k t => ⟨k, t, rfl⟩) rfl

lemma Alike.delayEdge (h : Alike w₁ w₂) (e : EdgeId) : Alike (w₁.delayEdge e) (w₂.delayEdge e) := by
  refine h.append (g := fun w => w.delayEdge e) (l := []) (fun r k t => ⟨k, t, ?_⟩) ?_
  · rw [List.append_nil, delayEdge_eq, delayEdge_eq]
    rfl
  · rw [delayEdge_eq]
    rfl

lemma Alike.enqueue (h : Alike w₁ w₂) (e : EdgeId) : Alike (w₁.enqueue e) (w₂.enqueue e) := by
  have hpool : (w₂.edges e).pool = (w₁.edges e).pool ∧ w₂.pools = w₁.pools := by
    rw [h.same]
    exact ⟨rfl, rfl⟩
  rw [World.enqueue, World.enqueue, hpool.1, hpool.2]
  split
  · exact (h.delayEdge e).retrieveReadyEdges _
  · exact h.append (g := fun w => { w.edgeScheduled e with ready := w.ready ++ [e] })
      (fun r k t => ⟨k, t, rfl⟩) rfl

lemma Alike.schedule (h : Alike w₁ w₂) (e : EdgeId) : Alike (w₁.schedule e) (w₂.schedule e) :=
  ((h.log fun _ => .scheduled e).setWant _).enqueue e

lemma Alike.giveBack (h : Alike w₁ w₂) (e : EdgeId) (r : EdgeResult) :
    Alike (w₁.giveBack e r) (w₂.giveBack e r) := by
  have hfree : Alike (w₁.freePool e) (w₂.freePool e) := by
    have hsame : w₂.want = w₁.want ∧ w₂.edges = w₁.edges := by
      rw [h.same]
      exact ⟨rfl, rfl⟩
    rw [freePool, freePool, hsame.1, hsame.2]
    refine Alike.retrieveReadyEdges ?_ _
    split
    · exact h
    · exact h.append (g := fun w => w.poolEdgeFinished e) (l := [])
        (fun r k t => ⟨k, t, by rw [List.append_nil]; rfl⟩) rfl
  have hjob : (w₂.freePool e).jobserver = (w₁.freePool e).jobserver ∧
      (w₂.freePool e).edges = (w₁.freePool e).edges := by
    rw [hfree.same]
    exact ⟨rfl, rfl⟩
  rw [World.giveBack, World.giveBack, World.logFinished, World.logFinished, hjob.1, hjob.2]
  split
  · exact (hfree.log fun _ => .released _).log fun _ => .finished e r
  · exact hfree.log fun _ => .finished e r

lemma Alike.leave (h : Alike w₁ w₂) (e : EdgeId) : Alike (w₁.leave e) (w₂.leave e) := by
  refine h.append (g := fun w => w.leave e) (l := []) (fun r k t => ⟨k, t, ?_⟩) ?_
  · rw [List.append_nil, leave_eq, leave_eq]
  · rw [leave_eq]

lemma findWork_agrees (h : Alike w₁ w₂) : Agrees Alike w₁ w₂ findWork findWork := by
  have hjob : w₂.jobserver = w₁.jobserver := by
    rw [h.same]
  have htake : ∀ {t₁ t₂ : World} (e : EdgeId), Alike t₁ t₂ → Alike (t₁.take e) (t₂.take e) := by
    intro t₁ t₂ e ht
    refine ⟨?_, ht.ready.erase e, ht.settled⟩
    rw [take, take, ht.same]
    rfl
  have hask : ∀ (e : EdgeId) (js : Jobserver), Alike (w₁.acquire e js) (w₂.acquire e js) :=
    fun e js => h.append (g := fun w => w.acquire e js) (l := [])
      (fun r k t => ⟨k, _, by rw [List.append_nil]; rfl⟩) rfl
  rw [Agrees, findWork_apply, findWork_apply, hjob, ← h.peek]
  cases w₁.peek with
  | none => exact ⟨rfl, h⟩
  | some e =>
    cases w₁.jobserver with
    | none => exact ⟨rfl, htake e h⟩
    | some js =>
      by_cases hv : (js.offers js.taken).valid = true
      · simp only [hv, if_true, true_and]
        exact htake e (hask e js)
      · simp only [hv, if_false, true_and, Bool.false_eq_true]
        exact hask e js

variable {env₁ env₂ : Env}

lemma scheduleWork_agrees (h : Alike w₁ w₂) (want : Want) :
    Agrees Alike w₁ w₂ (scheduleWork e want) (scheduleWork e want) := by
  cases want with
  | nothing => exact throw _ h
  | toFinish => exact pure _ h
  | toStart => exact ⟨rfl, h.schedule e⟩

lemma nodeFinished_settled {env : Env} {fuel : Nat} {finish : EdgeId → EdgeResult → M Bool}
    {n : Path} (h : (w.nodes n).dyndepPending = false) : nodeFinished env fuel finish n w =
      forAll (w.nodes n).outEdges (maybeReady finish) w := by
  simp only [nodeFinished, getNode, bind_apply, get_apply, pure_apply, h, Bool.false_eq_true,
    if_false]

/-- Without pending dyndep files `NodeFinished` only looks at the out edges. -/
lemma nodeFinished_agrees {finish₁ finish₂ : EdgeId → EdgeResult → M Bool} {fuel : Nat}
    (hfinish : ∀ t₁ t₂ e, Alike t₁ t₂ →
      Agrees Alike t₁ t₂ (finish₁ e .succeeded) (finish₂ e .succeeded))
    (h : Alike w₁ w₂) (n : Path) : Agrees Alike w₁ w₂ (nodeFinished env₁ fuel finish₁ n)
      (nodeFinished env₂ fuel finish₂ n) := by
  have hmaybe : ∀ (f : EdgeId) (t₁ t₂ : World), Alike t₁ t₂ →
      Agrees Alike t₁ t₂ (maybeReady finish₁ f) (maybeReady finish₂ f) := by
    intro f t₁ t₂ ht
    have hsame : t₂.want = t₁.want ∧ t₂.allInputsReady = t₁.allInputsReady := by
      rw [ht.same]
      exact ⟨rfl, rfl⟩
    refine get_bind ?_
    rw [hsame.1]
    cases t₁.want f with
    | none => exact pure _ ht
    | some want =>
      refine get_bind ?_
      rw [hsame.2]
      split
      · split
        · exact bind (scheduleWork_agrees ht want) fun _ _ _ ht' => pure _ ht'
        · exact hfinish t₁ t₂ f ht
      · exact pure _ ht
  have hnodes : w₂.nodes = w₁.nodes := by
    rw [h.same]
  have hlook : Agrees Alike w₁ w₂ (forAll (w₁.nodes n).outEdges (maybeReady finish₁))
      (forAll (w₂.nodes n).outEdges (maybeReady finish₂)) := by
    rw [hnodes]
    exact forAll h fun f _ => hmaybe f
  rw [Agrees, nodeFinished_settled (h.settled n),
    nodeFinished_settled (by rw [hnodes, h.settled n])]
  exact hlook

lemma edgeFinished_agrees (h : Alike w₁ w₂) (fuel : Nat) (result : EdgeResult) :
    Agrees Alike w₁ w₂ (edgeFinished env₁ fuel e result) (edgeFinished env₂ fuel e result) := by
  induction fuel generalizing w₁ w₂ e result with
  | zero => exact throw _ h
  | succ fuel ih =>
    have hsame : w₂.want = w₁.want ∧ w₂.edges = w₁.edges := by
      rw [h.same]
      exact ⟨rfl, rfl⟩
    rw [Agrees]
    by_cases hw : w₁.want e = none
    · rw [edgeFinished_missing env₁ fuel hw, edgeFinished_missing env₂ fuel (by rw [hsame.1, hw])]
      exact ⟨rfl, h⟩
    · have hw₂ : w₂.want e ≠ none := by rwa [hsame.1]
      cases result with
      | failed =>
        rw [edgeFinished_failed env₁ fuel hw, edgeFinished_failed env₂ fuel hw₂]
        exact ⟨rfl, h.giveBack e _⟩
      | succeeded =>
        rw [edgeFinished_succeeded env₁ fuel hw, edgeFinished_succeeded env₂ fuel hw₂, hsame.2]
        exact forAll ((h.giveBack e _).leave e) fun o _ t₁ t₂ ht =>
          nodeFinished_agrees (fun _ _ _ ht' => ih ht' _) ht o

lemma runOps_agrees (h : Alike w₁ w₂) (fuel : Nat) (ops : List Op) :
    Agrees Alike w₁ w₂ (runOps env₁ fuel ops) (runOps env₂ fuel ops) := by
  induction ops generalizing w₁ w₂ with
  | nil => exact pure _ h
  | cons op ops ih =>
    refine bind ?_ fun found t₁ t₂ ht =>
      bind (ih ht) fun rest _ _ ht' => pure _ ht'
    cases op with
    | findWork => exact findWork_agrees h
    | edgeFinished e r =>
      exact bind (edgeFinished_agrees h fuel r) fun _ _ _ ht => pure _ ht

end Alike

section Starts

variable {w w₁ w₂ : World} {es₁ es₂ : List EdgeId} {ps₁ ps₂ : List PoolId}

lemma Starts.alike (h₁ : Starts es₁ w w₁ [] ps₁) (h₂ : Starts es₂ w w₂ [] ps₂)
    (hes : es₁.Perm es₂) (hs : w.Sorted) (hd : ∀ n, (w.nodes n).dyndepPending = false) :
    Alike w₁ w₂ ∧ ps₁.Perm ps₂ := by
  have hwant : w₂.want = w₁.want := by
    funext e
    rw [h₁.want, h₂.want]
    simp only [hes.mem_iff]
  have hless : w₁.edgePriorityLess = w.edgePriorityLess ∧
      w₂.edgePriorityLess = w.edgePriorityLess := by
    rw [h₁.same, h₂.same]
    exact ⟨rfl, rfl⟩
  have hpools : w₂.pools = w₁.pools := by
    funext p
    -- two sorted lists with the same edges are the same
    have hs₁ := h₁.sorted hs p
    have hs₂ := h₂.sorted hs p
    rw [hless.1] at hs₁
    rw [hless.2] at hs₂
    have hne : ∀ a b : EdgeId, w.edgePriorityLess b a = true → a ≠ b := fun a b hab h => by
      rw [h, edgePriorityLess_irrefl] at hab
      cases hab
    have hperm : (w₂.pools p).delayed.Perm (w₁.pools p).delayed := by
      rw [List.perm_ext_iff_of_nodup (hs₂.imp fun h => hne _ _ h) (hs₁.imp fun h => hne _ _ h)]
      intro f
      rw [h₁.delayed, h₂.delayed, hes.mem_iff]
    have hdelayed : (w₂.pools p).delayed = (w₁.pools p).delayed := by
      refine hperm.eq_of_pairwise (fun a b _ _ hab hba => ?_) hs₂ hs₁
      have := IsTrans.trans (r := fun a b => w.edgePriorityLess a b = true) _ _ _ hab hba
      rw [edgePriorityLess_irrefl] at this
      cases this
    rw [h₁.pools, h₂.pools, hdelayed]
  refine ⟨⟨?_, ?_, ?_⟩, ?_⟩
  · rw [h₂.same, h₁.same, hwant, hpools]
  · rw [h₁.ready, h₂.ready]
    exact (hes.filter _).append_left _
  · rw [h₁.same]
    exact hd
  · rw [List.perm_ext_iff_of_nodup (h₁.nodup List.nodup_nil) (h₂.nodup List.nodup_nil)]
    intro p
    rw [h₁.mem, h₂.mem]
    simp only [hes.mem_iff]

end Starts

section Retrieve

variable {w w₁ w₂ w₃ : World} {ps ps₁ ps₂ : List PoolId}

lemma Alike.trans (h₁ : Alike w₁ w₂) (h₂ : Alike w₂ w₃) : Alike w₁ w₃ :=
  ⟨by rw [h₂.same, h₁.same], h₁.ready.trans h₂.ready, h₁.settled⟩

lemma Alike.retrieveAll (h : Alike w₁ w₂) (ps : List PoolId) :
    Alike (w₁.retrieveAll ps) (w₂.retrieveAll ps) := by
  induction ps generalizing w₁ w₂ with
  | nil => exact h
  | cons p ps ih => exact ih (h.retrieveReadyEdges p)

lemma World.retrieve_comm {p q : PoolId} (hpq : p ≠ q)
    (hd : ∀ n, (w.nodes n).dyndepPending = false) :
    Alike ((w.retrieveReadyEdges p).retrieveReadyEdges q)
      ((w.retrieveReadyEdges q).retrieveReadyEdges p) := by
  have hq := w.retrieveReadyEdges_pools_ne hpq.symm
  have hp := w.retrieveReadyEdges_pools_ne hpq
  rw [retrieveReadyEdges_eq (w.retrieveReadyEdges p) q, hq,
    retrieveReadyEdges_eq (w.retrieveReadyEdges q) p, hp]
  refine ⟨?_, ?_, hd⟩
  · simp only [retrieveReadyEdges_eq, Function.update_comm hpq]
  · simp only [retrieveReadyEdges_eq, List.append_assoc]
    exact List.perm_append_comm.append_left _

lemma retrieveAll_perm (hps : ps₁.Perm ps₂) (hnodup : ps₁.Nodup)
    (hd : ∀ n, (w.nodes n).dyndepPending = false) :
    Alike (w.retrieveAll ps₁) (w.retrieveAll ps₂) := by
  induction hps generalizing w with
  | nil => exact .refl hd
  | cons p hps ih => exact ih (List.nodup_cons.mp hnodup).2 hd
  | swap p q ps =>
    have hne : q ≠ p := fun h => (List.nodup_cons.mp hnodup).1 (h ▸ List.mem_cons_self ..)
    exact (retrieve_comm hne hd).retrieveAll ps
  | trans h₁ h₂ ih₁ ih₂ => exact (ih₁ hnodup hd).trans (ih₂ (h₁.nodup_iff.mp hnodup) hd)

end Retrieve

section Scan

variable (env : Env) (o : MapOrder)

lemma anyDirty_order (e : EdgeId) (newest : Option Path) (command : GoString) (os : List Path) :
    recomputeOutputsDirty.anyDirty { env with order := o } e newest command os =
      recomputeOutputsDirty.anyDirty env e newest command os := by
  induction os with
  | nil => rfl
  | cons n os ih => simp only [recomputeOutputsDirty.anyDirty, ih]; rfl

lemma closeEdge_order (e : EdgeId) (v : Visit) :
    closeEdge { env with order := o } e v = closeEdge env e v := by
  simp only [closeEdge, checkOutputs, recomputeOutputsDirty, anyDirty_order]

lemma openEdge_order (visit : Path → List Path → M (List Path)) (e : EdgeId) (vs : List Path) :
    openEdge { env with order := o } visit e vs = openEdge env visit e vs := rfl

lemma recomputeEdgeDirty_order (visit : Path → List Path → M (List Path)) (e : EdgeId)
    (vs : List Path) :
    recomputeEdgeDirty { env with order := o } visit e vs = recomputeEdgeDirty env visit e vs := by
  simp only [recomputeEdgeDirty, closeEdge_order, openEdge_order]

lemma recomputeNodeDirty_order (fuel : Nat) :
    recomputeNodeDirty { env with order := o } fuel = recomputeNodeDirty env fuel := by
  induction fuel with
  | zero => rfl
  | succ fuel ih =>
    funext n stack vs
    simp only [recomputeNodeDirty, ih, recomputeEdgeDirty_order]

lemma recomputeQueue_order (fuel : Nat) (nodes vs : List Path) :
    recomputeQueue { env with order := o } fuel nodes vs = recomputeQueue env fuel nodes vs := by
  induction fuel generalizing nodes vs with
  | zero => cases nodes <;> rfl
  | succ fuel ih =>
    cases nodes with
    | nil => rfl
    | cons n nodes => simp only [recomputeQueue, recomputeNodeDirty_order, ih]

lemma builderAddTarget_order (fuel : Nat) (n : Path) :
    builderAddTarget { env with order := o } fuel n = builderAddTarget env fuel n := by
  simp only [builderAddTarget, recomputeDirty, recomputeQueue_order]

end Scan

section Order

variable {w w₁ : World} {env₁ env₂ : Env}

lemma scheduleInitialEdges_agrees (hs : w.Sorted) (hd : ∀ n, (w.nodes n).dyndepPending = false) :
    Agrees Alike w w (scheduleInitialEdges env₁) (scheduleInitialEdges env₂) := by
  by_cases hready : w.ready = []
  · obtain ⟨es₁, ps₁, w₁, hes₁, hnodup₁, hstarts₁, qs₁, hqs₁, hok₁⟩ :=
      scheduleInitialEdges_apply env₁ hready
    obtain ⟨es₂, ps₂, w₂, hes₂, hnodup₂, hstarts₂, qs₂, hqs₂, hok₂⟩ :=
      scheduleInitialEdges_apply env₂ hready
    obtain ⟨halike, hps⟩ := hstarts₁.alike hstarts₂ (hes₁.trans hes₂.symm) hs hd
    rw [Agrees, hok₁, hok₂]
    have halike' : Alike { w₁ with ranges := w₁.ranges + 1 } { w₂ with ranges := w₂.ranges + 1 } :=
      ⟨by rw [halike.same], halike.ready, halike.settled⟩
    exact ⟨rfl, (retrieveAll_perm (hqs₁.trans (hps.trans hqs₂.symm)) (hqs₁.nodup_iff.mpr hnodup₁)
      halike'.settled).trans (halike'.retrieveAll qs₂)⟩
  · refine get_bind ?_
    rw [if_pos hready, if_pos hready]
    exact throw _ (Alike.refl hd)

lemma addTargets_order (env : Env) (o : MapOrder) (fuel : Nat) (targets : List Path) :
    (forEach targets fun t => do let _ ← builderAddTarget { env with order := o } fuel t) =
      (forEach targets fun t => do let _ ← builderAddTarget env fuel t : M Unit) := by
  simp only [builderAddTarget_order]

lemma planAndRun_agrees (env : Env) (o₁ o₂ : MapOrder) (hw : w.Unplanned)
    (hd : ∀ n, (w.nodes n).dyndepPending = false) (fuel : Nat) (targets : List Path)
    (ops : List Op) : Agrees Alike w w (planAndRun { env with order := o₁ } fuel targets ops)
      (planAndRun { env with order := o₂ } fuel targets ops) := by
  have hwaits : Moves Waits w (forEach targets fun t => do let _ ← builderAddTarget env fuel t) :=
    Moves.forEach fun t _ _ => .bind (builderAddTarget_waits env fuel t) fun _ _ _ => .pure _
  have hsettled : ∀ {t : World}, Waits w t → ∀ n, (t.nodes n).dyndepPending = false := by
    intro t ht n
    rw [Bool.eq_false_iff]
    intro hp
    have hpending := ht.pending n hp
    rw [hd n] at hpending
    cases hpending
  rw [planAndRun, planAndRun, addTargets_order env o₁, addTargets_order env o₂]
  -- until the queue is prepared, both runs are in the same state
  refine bind_same (Alike.refl (hsettled hwaits)) fun _ t ht => ?_
  refine bind (bind_same (Alike.refl ?_) fun _ t' ht' => ?_) fun _ t₁ t₂ h =>
    runOps_agrees h fuel ops
  · exact hsettled (IsTrans.trans _ _ _ (hwaits.of_ok ht) (computeCriticalPath_waits fuel))
  · have hw' : Waits w t' :=
      IsTrans.trans _ _ _ (hwaits.of_ok ht) ((computeCriticalPath_waits fuel).of_ok ht')
    refine scheduleInitialEdges_agrees (fun p => ?_) (hsettled hw')
    rw [hw'.pools, hw.delayed]
    exact List.Pairwise.nil

/-- **Scheduling does not depend on the order of map iteration.** Without dyndep files, the edges
that a sequence of calls takes from the plan are the same for every order of the ranges over the
want map and over the pools. Each edge that `FindWork` returns has the largest critical path
weight in the queue, and the smallest id among those. -/
theorem findWork_order_independent (env : Env) (o₁ o₂ : MapOrder) (hw : w.Unplanned)
    (hd : ∀ n, (w.nodes n).dyndepPending = false) (fuel : Nat) (targets : List Path)
    (ops : List Op) :
    taken { env with order := o₁ } fuel targets ops w =
      taken { env with order := o₂ } fuel targets ops w ∧
    ∀ t e t', findWork t = .ok (some e) t' → e ∈ t.ready ∧ ∀ f ∈ t.ready, f ≠ e →
      (t.edges f).weight < (t.edges e).weight ∨
        (t.edges f).weight = (t.edges e).weight ∧ e < f := by
  refine ⟨?_, fun t e t' hok => ?_⟩
  · have h := planAndRun_agrees env o₁ o₂ hw hd fuel targets ops
    rw [Agrees] at h
    rw [taken, taken]
    split at h
    · rename_i h₁ h₂
      rw [h₁, h₂, h.1]
    · rename_i h₁ h₂
      rw [h₁, h₂, h.1]
    · exact h.elim
  · have hpeek : t.peek = some e := by
      rcases findWork_cases t with ⟨-, h⟩ | ⟨f, _, hp, -, h | h⟩ <;> rw [h] at hok <;> cases hok
      exact hp
    exact ⟨t.peek_mem hpeek,
      fun f hf hne => t.edgePriorityLess_iff.mp (t.peek_greatest hpeek hf hne)⟩

/-- Two commands of a pool that lets them run one at a time. -/
def pooledCommands : World where
  edges := fun e => if e = 0 then { outputs := [[97]], pool := 1 }
    else if e = 1 then { outputs := [[98]], pool := 1 } else {}
  nodes := fun n => if n = [97] then { inEdge := some 0 }
    else if n = [98] then { inEdge := some 1 } else {}
  pools := fun p => if p = 1 then { depth := 1 } else {}
  edgeCount := 2

def MapOrder.backwards : MapOrder :=
  ⟨fun _ n => (List.range n).reverse, fun _ _ => List.reverse_perm _⟩

/-- The command with the smaller id runs first, also when the map is met backwards. -/
theorem order_independent_backwards : taken { order := .backwards } 9 [[97], [98]]
    [.findWork, .edgeFinished 0 .succeeded, .findWork] pooledCommands = .ok [0, 1] := by
  have hunused : ∀ p, (pooledCommands.pools p).currentUse = 0 ∧
      (pooledCommands.pools p).delayed = [] := by
    intro p
    unfold pooledCommands
    dsimp only
    split <;> exact ⟨rfl, rfl⟩
  have hplan : pooledCommands.Unplanned :=
    ⟨rfl, rfl, fun p => (hunused p).1, fun p => (hunused p).2, rfl, rfl, rfl⟩
  have hdyndep : ∀ n, (pooledCommands.nodes n).dyndepPending = false := by
    intro n
    unfold pooledCommands
    dsimp only
    split
    · rfl
    · split <;> rfl
  have h := (findWork_order_independent {} .inOrder .backwards hplan hdyndep 9 [[97], [98]]
    [.findWork, .edgeFinished 0 .succeeded, .findWork]).1
  exact h.symm.trans rfl

end Order

end Reninja
