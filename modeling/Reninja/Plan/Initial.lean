import Reninja.Plan.Queue

/-!
# Preparing the queue

What `AddTarget` and `PrepareQueue` do to the queue: nothing is queued before the queue is
prepared, and `ScheduleInitialEdges` looks at each edge of the plan once and then lets the pools
hand over what they can.
-/

namespace Reninja

open Program World List

/-! ### Before the queue is prepared -/

/-- Nothing is queued, and no dyndep file becomes pending. -/
structure Waits (w w' : World) : Prop where
  ready : w'.ready = w.ready
  pools : w'.pools = w.pools
  puts : w'.puts = w.puts
  founds : w'.founds = w.founds
  pending : ∀ n, (w'.nodes n).dyndepPending = true → (w.nodes n).dyndepPending = true

instance : Std.Refl Waits := ⟨fun _ => ⟨rfl, rfl, rfl, rfl, fun _ h => h⟩⟩

instance : IsTrans World Waits where
  trans _ _ _ h₁ h₂ := ⟨h₂.ready.trans h₁.ready, h₂.pools.trans h₁.pools, h₂.puts.trans h₁.puts,
    h₂.founds.trans h₁.founds, fun n h => h₁.pending n (h₂.pending n h)⟩

section Waits

variable {w : World} {e : EdgeId}

lemma Quiet.waits {x : Option EdgeId} {w' : World} (h : Quiet x w w') : Waits w w' := by
  obtain ⟨l, ht, hl, -⟩ := h.events
  exact ⟨h.ready, h.pools, puts_of_trace ht fun ev hev => (hl ev hev).put,
    founds_of_trace ht fun ev hev => (hl ev hev).taken, h.pending⟩

lemma enterPlan_waits : Moves Waits w (enterPlan e) := by
  refine .modify ?_
  split
  · exact ⟨rfl, rfl, rfl, rfl, fun _ h => h⟩
  · exact Std.Refl.refl w

lemma wantIfDirty_waits {n : Path} : Moves Waits w (wantIfDirty n e) := by
  refine .get_bind (.ite (fun _ => ?_) fun _ => .pure _)
  have h : wantEdge e w = .ok () (w.wantStart e) := rfl
  rw [Moves, h, wantStart_eq]
  exact ⟨rfl, rfl, puts_of_trace rfl (l := [.wanted e]) (by simp [Event.put]),
    founds_of_trace rfl (l := [.wanted e]) (by simp [Event.taken]), fun _ h => h⟩

lemma addSubTarget_waits (fuel : Nat) (n : Path) (dependent : Option Path) (walk : Walk) :
    Moves Waits w (addSubTarget fuel n dependent walk) := by
  induction fuel generalizing w n dependent walk with
  | zero => exact .throw _
  | succ fuel ih =>
    refine .get_bind ?_
    cases w.producer n with
    | none => exact .ite (fun _ => .throw _) fun _ => .pure _
    | some e =>
      refine .ite (fun _ => .pure _) fun _ => ?_
      refine .bind enterPlan_waits fun _ _ _ => .ite (fun _ => .pure _) fun _ => ?_
      refine .bind wantIfDirty_waits fun _ _ _ => .ite (fun _ => .pure _) fun _ => ?_
      exact .bind (addInputs_moves (fun _ i walk => ih i _ walk) _ _) fun _ _ _ => .pure _

lemma addTarget_waits (fuel : Nat) (n : Path) : Moves Waits w (addTarget fuel n) :=
  Moves.bind (.modify ⟨rfl, rfl, rfl, rfl, fun _ h => h⟩) fun _ _ _ =>
    Moves.bind (addSubTarget_waits fuel n none none) fun _ _ _ => .pure _

lemma builderAddTarget_waits (env : Env) (fuel : Nat) (n : Path) :
    Moves Waits w (builderAddTarget env fuel n) := by
  refine .bind (Quiet.waits (recomputeDirty_quiet env fuel n)) fun _ _ _ =>
    Moves.bind (.get_bind ?_) fun _ _ _ => .ite (fun _ => ?_) fun _ => .pure _
  · split
    · exact addTarget_waits fuel n
    · exact .ite (fun _ => .pure _) fun _ => addTarget_waits fuel n
  · refine .forAll fun v _ _ => .get_bind ?_
    split
    · exact .pure _
    · exact .ite (fun _ => .pure _) fun _ => addTarget_waits fuel v

lemma updEdge_waits {g : Edge → Edge} : Moves Waits w (updEdge e g) :=
  Moves.modify ⟨rfl, rfl, rfl, rfl, fun _ h => h⟩

lemma computeCriticalPath_waits (fuel : Nat) : Moves Waits w (computeCriticalPath fuel) := by
  refine .get_bind (.bind (topoVisit_moves.visitAll_moves (fun _ _ _ =>
    topoVisit_moves _ _ _) _ _) fun sorted _ _ => ?_)
  refine .bind (.forEach fun e _ _ => updEdge_waits) fun _ _ _ => ?_
  refine .forEach fun e _ _ => .bind (getEdge_moves e) fun x _ _ => ?_
  refine .forEach fun i _ t => .get_bind ?_
  split
  · exact .pure _
  · exact .ite (fun _ => updEdge_waits) fun _ => .pure _

end Waits

/-! ### The first loop of `ScheduleInitialEdges` -/

namespace World

variable (w : World)

def startable (e : EdgeId) : Bool := decide (w.want e = some .toStart) && w.allInputsReady e

def delays (e : EdgeId) : Bool := (w.pools (w.edges e).pool).shouldDelayEdge

def Sorted : Prop := ∀ p, (w.pools p).delayed.Pairwise fun a b => w.edgePriorityLess b a = true

def startEvent (e : EdgeId) : Event := if w.delays e then .delayed e else .scheduled e

lemma sorted_setPool {p : PoolId} {g : Pool → Pool} (h : w.Sorted)
    (hg : (g (w.pools p)).delayed.Pairwise fun a b => w.edgePriorityLess b a = true) :
    (w.setPool p g).Sorted := by
  intro q
  by_cases hq : q = p
  · subst hq
    rw [setPool_pools_self]
    exact hg
  · rw [w.setPool_pools_ne _ hq]
    exact h q

lemma sorted_delayEdge {e : EdgeId} (h : w.Sorted) : (w.delayEdge e).Sorted := by
  rw [delayEdge_eq]
  exact w.sorted_setPool h (Search.insert_sorted (fun _ _ => w.eq_of_not_less) (h _))

end World

lemma scheduleInitialEdge_apply (w : World) (e : EdgeId) (pools : List PoolId) :
    scheduleInitialEdge e pools w =
      if w.startable e then
        if w.delays e then
          .ok (if (w.edges e).pool ∈ pools then pools else pools ++ [(w.edges e).pool])
            ((w.log (.delayed e)).delayEdge e)
        else
          .ok pools (w.schedule e)
      else
        .ok pools w := by
  rw [scheduleInitialEdge, bind_apply, get_apply]
  dsimp only
  cases hw : w.want e with
  | none => simp [startable, hw, pure_apply]
  | some want =>
    cases want with
    | nothing => simp [startable, hw, pure_apply]
    | toFinish => simp [startable, hw, pure_apply]
    | toStart =>
      by_cases hr : w.allInputsReady e = true
      · by_cases hd : w.delays e = true
        · have hd' := hd
          rw [delays] at hd'
          simp only [startable, hw, hr, hd, hd', decide_true, Bool.and_self, if_true]
          rfl
        · have hd' := hd
          rw [delays] at hd'
          simp only [startable, hw, hr, hd, hd', decide_true, Bool.and_self, if_true]
          rfl
      · simp [startable, hr, pure_apply]

/-- What the first loop does to a list of edges, up to the order of the queue. -/
structure Starts (es : List EdgeId) (w w' : World) (ps ps' : List PoolId) : Prop where
  same : w' = { w with want := w'.want, ready := w'.ready, pools := w'.pools, trace := w'.trace }
  want : ∀ e, w'.want e = if e ∈ es ∧ w.startable e ∧ w.delays e = false then some .toFinish
    else w.want e
  ready : w'.ready = w.ready ++ es.filter fun e => w.startable e && !w.delays e
  trace : w'.trace = w.trace ++ (es.filter w.startable).map w.startEvent
  pools : ∀ p, w'.pools p = { w.pools p with delayed := (w'.pools p).delayed }
  delayed : ∀ p f, f ∈ (w'.pools p).delayed ↔ f ∈ (w.pools p).delayed ∨
    f ∈ es ∧ w.startable f ∧ w.delays f ∧ (w.edges f).pool = p
  sorted : w.Sorted → w'.Sorted
  nodup : ps.Nodup → ps'.Nodup
  mem : ∀ p, p ∈ ps' ↔ p ∈ ps ∨ ∃ e ∈ es, w.startable e ∧ w.delays e ∧ (w.edges e).pool = p

section Starts

variable {w w' w₁ w₂ : World} {e : EdgeId} {es es₁ es₂ : List EdgeId} {ps ps' ps₁ ps₂ : List PoolId}

lemma World.schedule_eq (h : w.delays e = false) : w.schedule e = { w with
    want := Function.update w.want e (some .toFinish)
    ready := w.ready ++ [e]
    trace := w.trace ++ [.scheduled e] } := by
  rw [schedule, enqueue]
  have hd : ((w.pools (w.edges e).pool).shouldDelayEdge) = false := h
  have hdepth : (w.pools (w.edges e).pool).depth = 0 := by simpa [Pool.shouldDelayEdge] using hd
  have hpools : (w.edgeScheduled e).pools = w.pools := by
    rw [edgeScheduled, setPool, hdepth]
    simp only [ne_eq, not_true_eq_false, if_false]
    rw [show ({ w.pools (w.edges e).pool with depth := 0 } : Pool) = w.pools (w.edges e).pool by
      rw [← hdepth]]
    exact Function.update_eq_self _ _
  simp only [log, setWant, hd, Bool.false_eq_true, if_false]
  change ({ w with
    pools := (w.edgeScheduled e).pools
    want := Function.update w.want e (some .toFinish)
    ready := w.ready ++ [e]
    trace := w.trace ++ [.scheduled e] } : World) = _
  rw [hpools]

lemma scheduleInitialEdge_starts (w : World) (e : EdgeId) (ps : List PoolId) :
    ∃ ps' w', scheduleInitialEdge e ps w = .ok ps' w' ∧ Starts [e] w w' ps ps' := by
  rw [scheduleInitialEdge_apply]
  by_cases hs : w.startable e = true
  · by_cases hd : w.delays e = true
    · rw [if_pos hs, if_pos hd]
      refine ⟨_, _, rfl, ?_⟩
      rw [log_delayEdge]
      have hsame := w.delayEdge_sameButQueue e
      have hready : (w.delayEdge e).ready = w.ready := by
        rw [delayEdge_eq]
        rfl
      refine ⟨?_, fun f => ?_, ?_, ?_, fun p => ?_, fun p f => ?_, w.sorted_delayEdge,
        fun hps => ?_, fun p => ?_⟩
      · rw [log, hsame]
      · rw [log, hsame, if_neg]
        rintro ⟨hf, -, hdf⟩
        rw [mem_singleton.mp hf, hd] at hdf
        cases hdf
      · simp [log, hready, hd]
      · rw [log, hsame]
        simp [hs, hd, startEvent]
      · rw [log, w.delayEdge_pools]
        split <;> rfl
      · rw [log, w.delayEdge_pools]
        by_cases hp : p = (w.edges e).pool
        · subst hp
          rw [if_pos rfl, Search.mem_insert, mem_singleton, or_comm]
          refine or_congr_right ⟨fun h => ?_, fun h => h.1⟩
          subst h
          exact ⟨rfl, hs, hd, rfl⟩
        · rw [if_neg hp]
          refine ⟨.inl, fun h => h.resolve_right ?_⟩
          rintro ⟨hf, -, -, hpool⟩
          rw [mem_singleton.mp hf] at hpool
          exact hp hpool.symm
      · split
        · exact hps
        · rename_i hmem
          exact nodup_append.mpr ⟨hps, by simp, by
            intro a ha b hb
            rw [mem_singleton.mp hb]
            exact fun hab => hmem (hab ▸ ha)⟩
      · simp only [mem_singleton, exists_eq_left, hs, hd, true_and]
        split
        · rename_i hmem
          exact ⟨.inl, fun h => h.elim id fun hp => hp ▸ hmem⟩
        · rw [mem_append, mem_singleton, eq_comm (a := p)]
    · rw [if_pos hs, if_neg hd]
      rw [Bool.not_eq_true] at hd
      refine ⟨_, _, rfl, ?_⟩
      rw [schedule_eq hd]
      refine ⟨rfl, fun f => ?_, ?_, ?_, fun _ => rfl, fun p f => ?_, id, id, fun p => ?_⟩
      · by_cases hf : f = e
        · subst hf
          simp [hs, hd]
        · simp [hf]
      · simp [hs, hd]
      · simp [hs, hd, startEvent]
      · refine ⟨.inl, fun h => h.resolve_right ?_⟩
        rintro ⟨hf, -, hdf, -⟩
        rw [mem_singleton.mp hf, hd] at hdf
        cases hdf
      · simp [hd]
  · rw [if_neg hs]
    rw [Bool.not_eq_true] at hs
    refine ⟨_, _, rfl, rfl, fun f => ?_, ?_, ?_, fun _ => rfl, fun p f => ?_, id, id, fun p => ?_⟩
    · rw [if_neg]
      rintro ⟨hf, hsf, -⟩
      rw [mem_singleton.mp hf, hs] at hsf
      cases hsf
    · simp [hs]
    · simp [hs]
    · refine ⟨.inl, fun h => h.resolve_right ?_⟩
      rintro ⟨hf, hsf, -, -⟩
      rw [mem_singleton.mp hf, hs] at hsf
      cases hsf
    · simp [hs]

lemma Starts.others (h : Starts es w w' ps ps') {f : EdgeId} (hf : f ∉ es) :
    w'.startable f = w.startable f ∧ w'.delays f = w.delays f := by
  have hwant : w'.want f = w.want f := by
    rw [h.want, if_neg fun hc => hf hc.1]
  have hedges : w'.edges = w.edges ∧ w'.nodes = w.nodes := by
    rw [h.same]
    exact ⟨rfl, rfl⟩
  refine ⟨?_, ?_⟩
  · rw [startable, startable, hwant, allInputsReady, allInputsReady]
    simp only [producer, hedges.1, hedges.2]
  · rw [delays, delays, hedges.1, h.pools]
    rfl

lemma Starts.cons (h₁ : Starts [e] w w₁ ps ps₁) (h₂ : Starts es w₁ w' ps₁ ps') (he : e ∉ es) :
    Starts (e :: es) w w' ps ps' := by
  have hothers : ∀ f ∈ es, w₁.startable f = w.startable f ∧ w₁.delays f = w.delays f :=
    fun f hf => h₁.others fun hfe => he (mem_singleton.mp hfe ▸ hf)
  have hedges : w₁.edges = w.edges := by
    rw [h₁.same]
  refine ⟨?_, fun f => ?_, ?_, ?_, fun p => ?_, fun p f => ?_, fun hs => h₂.sorted (h₁.sorted hs),
    fun hps => h₂.nodup (h₁.nodup hps), fun p => ?_⟩
  · rw [h₂.same, h₁.same]
  · rw [h₂.want, h₁.want]
    by_cases hf : f ∈ es
    · rw [(hothers f hf).1, (hothers f hf).2]
      have hfe : f ≠ e := fun h => he (h ▸ hf)
      simp [hf, hfe]
    · simp [hf]
  · have hrest : es.filter (fun f => w₁.startable f && !w₁.delays f) =
        es.filter fun f => w.startable f && !w.delays f :=
      filter_congr fun f hf => by rw [(hothers f hf).1, (hothers f hf).2]
    rw [h₂.ready, h₁.ready, hrest, append_assoc, filter_cons, filter_cons]
    cases (w.startable e && !w.delays e) <;> rfl
  · have hfilter : es.filter w₁.startable = es.filter w.startable :=
      filter_congr fun f hf => (hothers f hf).1
    have hevents : (es.filter w.startable).map w₁.startEvent =
        (es.filter w.startable).map w.startEvent :=
      map_congr_left fun f hf => by
        rw [startEvent, startEvent, (hothers f (mem_of_mem_filter hf)).2]
    rw [h₂.trace, h₁.trace, hfilter, hevents, append_assoc, ← map_append,
      filter_cons, filter_cons]
    cases w.startable e <;> rfl
  · rw [h₂.pools, h₁.pools]
  · rw [h₂.delayed, h₁.delayed, hedges]
    by_cases hf : f ∈ es
    · rw [(hothers f hf).1, (hothers f hf).2]
      have hfe : f ≠ e := fun h => he (h ▸ hf)
      simp [hf, hfe]
    · simp [hf]
  · rw [h₂.mem, h₁.mem, hedges]
    have hsame : (∃ f ∈ es, w₁.startable f ∧ w₁.delays f ∧ (w.edges f).pool = p) ↔
        ∃ f ∈ es, w.startable f ∧ w.delays f ∧ (w.edges f).pool = p :=
      exists_congr fun f => and_congr_right fun hf => by rw [(hothers f hf).1, (hothers f hf).2]
    rw [hsame]
    simp [or_assoc]

lemma scheduleAll_starts (hes : es.Nodup) (w : World) (ps : List PoolId) :
    ∃ ps' w', scheduleInitialEdges.scheduleAll ps es w = .ok ps' w' ∧ Starts es w w' ps ps' := by
  induction es generalizing w ps with
  | nil =>
    exact ⟨ps, w, rfl, rfl, fun _ => by simp, by simp, by simp, fun _ => rfl, fun _ _ => by simp,
      id, id, fun _ => by simp⟩
  | cons e es ih =>
    obtain ⟨he, hes⟩ := nodup_cons.mp hes
    obtain ⟨ps₁, w₁, hok₁, h₁⟩ := scheduleInitialEdge_starts w e ps
    obtain ⟨ps', w', hok, h⟩ := ih hes w₁ ps₁
    exact ⟨ps', w', bind_ok.mpr ⟨ps₁, w₁, hok₁, hok⟩, h₁.cons h he⟩

end Starts

/-- Let some pools hand over the edges that they can. -/
def World.retrieveAll (w : World) (ps : List PoolId) : World := ps.foldl retrieveReadyEdges w

lemma retrieveAll_apply (ps : List PoolId) (w : World) :
    (forEach ps fun p => modify fun w => w.retrieveReadyEdges p : M Unit) w =
      .ok () (w.retrieveAll ps) := by
  induction ps generalizing w with
  | nil => rfl
  | cons p ps ih => exact ih _

section Initial

variable {w : World}

lemma World.wantKeys_nodup : w.wantKeys.Nodup := (nodup_range).filter _

lemma rangeOver_apply {α : Type} (env : Env) (l : List α) (w : World) :
    rangeOver env l w = .ok (env.order.arrange w.ranges l) { w with ranges := w.ranges + 1 } := rfl

lemma scheduleInitialEdges_apply (env : Env) (hready : w.ready = []) :
    ∃ es ps w', es.Perm w.wantKeys ∧ ps.Nodup ∧
      Starts es { w with ranges := w.ranges + 1 } w' [] ps ∧
      ∃ ps', ps'.Perm ps ∧ scheduleInitialEdges env w =
        .ok () ({ w' with ranges := w'.ranges + 1 }.retrieveAll ps') := by
  have hes := env.order.arrange_perm w.ranges w.wantKeys
  obtain ⟨ps, w', hok, hstarts⟩ := scheduleAll_starts
    (hes.nodup_iff.mpr wantKeys_nodup) { w with ranges := w.ranges + 1 } []
  refine ⟨_, ps, w', hes, hstarts.nodup nodup_nil, hstarts, _,
    env.order.arrange_perm w'.ranges ps, ?_⟩
  have hempty : ¬ w.ready ≠ [] := not_not.mpr hready
  simp only [scheduleInitialEdges, bind_apply, get_apply, if_neg hempty, rangeOver_apply, hok,
    retrieveAll_apply]

end Initial

end Reninja
