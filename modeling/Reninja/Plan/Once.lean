import Reninja.Plan.Counters
import Reninja.Plan.Pools

/-!
# Each edge is started once, and not before its inputs are ready

An edge is scheduled when all its inputs are ready. What can undo that later is a dyndep file: it
may give a queued edge a new input, give one of its inputs a producer, or have the producer of an
input scanned again.
-/

namespace Reninja

open Program World

def Snapshot.Queued (s : Snapshot) (e : EdgeId) : Prop :=
  e ∈ s.ready ∨ ∃ p, e ∈ (s.pools p).delayed

/-- A calm run in which nothing unsettles the inputs of a queued edge: it gets no new inputs, no
input of it gets a producer, and no producer of its inputs that is ready is scanned again. -/
structure Steady (t : List Event) : Prop extends Calm t where
  linked : ∀ e s, .linked e s ∈ t → ¬ s.Queued e
  produced : ∀ n s, .produced n s ∈ t → ∀ f, s.Queued f → n ∉ (s.edges f).inputs
  scanned : ∀ e s, .scanned e s ∈ t → (s.edges e).outputsReady = true →
    ∀ f, s.Queued f → ∀ i ∈ (s.edges f).inputs, (s.nodes i).inEdge ≠ some e

lemma Steady.of_append {t l : List Event} (h : Steady (t ++ l)) : Steady t where
  toCalm := h.toCalm.of_append
  linked e s he := h.linked e s (List.mem_append_left l he)
  produced n s hn := h.produced n s (List.mem_append_left l hn)
  scanned e s he := h.scanned e s (List.mem_append_left l he)

def World.Readied (w : World) : Prop := ∀ e, w.Queued e → w.allInputsReady e = true

section Readied

variable {w w' : World} {e : EdgeId} {L : Licence} {env : Env} {r : Run}

lemma World.allInputsReady_iff : w.allInputsReady e = true ↔
    ∀ i ∈ (w.edges e).inputs, ∀ f, w.producer i = some f → (w.edges f).outputsReady = true := by
  rw [allInputsReady, List.all_eq_true]
  refine forall_congr' fun i => forall_congr' fun _ => ?_
  cases w.producer i with
  | none => simp
  | some f => simp

lemma World.allInputsReady_mono (hin : (w'.edges e).inputs = (w.edges e).inputs)
    (hnodes : w'.nodes = w.nodes)
    (hready : ∀ f, (w.edges f).outputsReady = true → (w'.edges f).outputsReady = true)
    (h : w.allInputsReady e = true) : w'.allInputsReady e = true := by
  rw [allInputsReady_iff] at h ⊢
  intro i hi f hf
  rw [hin] at hi
  rw [producer, hnodes] at hf
  exact hready f (h i hi f hf)

lemma Snapshot.Since.queued {s : Snapshot} (h : s.Since w) : s.Queued e ↔ w.Queued e := by
  rw [Snapshot.Queued, World.Queued, h.ready, h.pools]

/-- A quiet change that is steady leaves the inputs of a queued edge ready. -/
lemma Quiet.readied (h : Quiet none w w') (hs : Steady w'.trace) (hw : w.Readied) : w'.Readied := by
  obtain ⟨t, ht, hquiet, haccounts⟩ := h.events
  have htold : ∀ ev ∈ t, ev ∈ w'.trace := fun ev hev => by
    rw [ht]
    exact List.mem_append_right _ hev
  intro e he
  have hqueued : w.Queued e := by
    rwa [World.Queued, h.ready, h.pools] at he
  have hin : (w'.edges e).inputs = (w.edges e).inputs := by
    refine (haccounts.inputs e).resolve_right ?_
    rintro ⟨s, hlinked⟩
    have hsince : s.Since w := hquiet _ hlinked
    exact hs.linked e s (htold _ hlinked) (hsince.queued.mpr hqueued)
  have hall := allInputsReady_iff.mp (hw e hqueued)
  rw [allInputsReady_iff]
  intro i hi f hf
  rw [hin] at hi
  have hproducer : w'.producer i = w.producer i := by
    refine (haccounts.producer i).resolve_right ?_
    rintro ⟨s, hproduced⟩
    have hsince : s.Since w := hquiet _ hproduced
    exact hs.produced i s (htold _ hproduced) e (hsince.queued.mpr hqueued) (hsince.inputs e hi)
  rw [hproducer] at hf
  rcases haccounts.ready f (by simp) with heq | ⟨s, hscanned, heq⟩
  · rw [heq]
    exact hall i hi f hf
  · have hsince : s.Since w := hquiet _ hscanned
    exact absurd (hsince.producer i f hf) (hs.scanned f s (htold _ hscanned)
      (heq.trans (hall i hi f hf)) e (hsince.queued.mpr hqueued) i (hsince.inputs e hi))

/-- A step that neither queues an edge nor touches the graph. -/
lemma World.Readied.of_same (hw : w.Readied) (hq : ∀ f, w'.Queued f → w.Queued f)
    (hnodes : w'.nodes = w.nodes) (hin : ∀ f, (w'.edges f).inputs = (w.edges f).inputs)
    (hready : ∀ f, (w.edges f).outputsReady = true → (w'.edges f).outputsReady = true) :
    w'.Readied := fun f hf => allInputsReady_mono (hin f) hnodes hready (hw f (hq f hf))

lemma World.Readied.enqueue (hw : w.Readied) (he : w.allInputsReady e = true)
    (hq : ∀ f, w'.Queued f → f = e ∨ w.Queued f) (hnodes : w'.nodes = w.nodes)
    (hedges : w'.edges = w.edges) : w'.Readied := by
  intro f hf
  have hfw : w.allInputsReady f = true := by
    rcases hq f hf with rfl | hf
    · exact he
    · exact hw f hf
  exact allInputsReady_mono (by rw [hedges]) hnodes (fun g hg => by rwa [hedges]) hfw

lemma World.leave_edges (f : EdgeId) : ((w.leave e).edges f).inputs = (w.edges f).inputs ∧
    ((w.edges f).outputsReady = true → ((w.leave e).edges f).outputsReady = true) := by
  rw [leave_eq]
  by_cases hf : f = e
  · subst hf
    simp [Edge.inputs]
  · simp [hf]

lemma World.giveBack_same (res : EdgeResult) :
    (w.giveBack e res).nodes = w.nodes ∧ (w.giveBack e res).edges = w.edges ∧
      ∀ f, (w.giveBack e res).Queued f → w.Queued f := by
  refine ⟨?_, ?_, fun f hf => ?_⟩
  · rw [giveBack, logFinished_eq, w.freePool_sameButQueue e]
  · rw [giveBack, logFinished_eq, w.freePool_sameButQueue e]
  · rw [giveBack, logFinished_eq] at hf
    exact w.queued_freePool.mp hf

lemma Step.readied (h : Step L w w') (hs : Steady w'.trace) (hw : w.Readied) : w'.Readied := by
  cases h with
  | quiet _ hq => exact hq.readied hs hw
  | weigh e c _ =>
    refine hw.of_same (fun f hf => hf) rfl (setEdge_forall
      (P := fun a b => b.inputs = a.inputs) (fun _ => rfl) rfl) ?_
    exact setEdge_forall (P := fun a b => a.outputsReady = true → b.outputsReady = true)
      (fun _ h => h) id
  | wantNothing e _ _ => exact hw.of_same (fun f hf => hf) rfl (fun _ => rfl) fun _ h => h
  | wantStart e _ _ =>
    rw [wantStart_eq]
    exact hw.of_same (fun f hf => hf) rfl (fun _ => rfl) fun _ h => h
  | schedule e _ hready =>
    refine hw.enqueue hready (fun f hf => ?_) ?_ ?_
    · rw [World.schedule, World.queued_enqueue] at hf
      exact hf
    · rw [World.schedule, World.enqueue_sameButQueue]
      rfl
    · rw [World.schedule, World.enqueue_sameButQueue]
      rfl
  | delay e _ hready _ _ =>
    refine hw.enqueue hready (fun f hf => ?_) ?_ ?_
    · rw [queued_delayEdge] at hf
      exact hf
    · rw [delayEdge_eq]
      rfl
    · rw [delayEdge_eq]
      rfl
  | retrieve p =>
    exact hw.of_same (fun f hf => (w.queued_retrieveReadyEdges p).mp hf) rfl (fun _ => rfl)
      fun _ h => h
  | fail e _ _ =>
    obtain ⟨hnodes, hedges, hq⟩ := w.giveBack_same (e := e) .failed
    exact hw.of_same hq hnodes (fun f => by rw [hedges]) fun f h => by rwa [hedges]
  | succeed e _ _ =>
    obtain ⟨hnodes, hedges, hq⟩ := w.giveBack_same (e := e) .succeeded
    refine hw.of_same (fun f hf => hq f ?_) ?_ (fun f => ?_) fun f hf => ?_
    · rw [leave_eq] at hf
      exact hf
    · rw [leave_eq]
      exact hnodes
    · rw [(leave_edges f).1, hedges]
    · exact (leave_edges f).2 (by rwa [hedges])
  | unwant e _ =>
    rw [unwant_eq]
    exact hw.of_same (fun f hf => hf) rfl (fun _ => rfl) fun _ h => h

lemma Steps.readied (h : Steps L w w') (hs : Steady w'.trace) (hw : w.Readied) : w'.Readied := by
  induction h with
  | refl => exact hw
  | tail _ hstep ih =>
    refine hstep.readied hs (ih ?_)
    obtain ⟨t, ht⟩ := hstep.grows.trace
    rw [ht] at hs
    exact hs.of_append

/-! ### All calls -/

lemma World.Asks.readied {t : World} (h : w.Asks e t) (hw : w.Readied) : t.Readied := by
  cases h with
  | free _ => exact hw
  | slot js _ =>
    refine hw.of_same (fun f hf => hf) rfl (fun f => ?_) fun f hf => ?_
    all_goals
      obtain ⟨slot, hslot⟩ := w.acquire_edges e js f
      rw [hslot]
    · rfl
    · exact hf

/-- A call keeps the inputs of queued edges ready, whether it returns or fails. -/
lemma Call.run_readied (c : Call) (env : Env) (fuel : Nat)
    (hs : Steady (finalState (c.run env fuel w)).trace) (hw : w.Readied) :
    (finalState (c.run env fuel w)).Readied := by
  by_cases hc : c = .findWork
  · subst hc
    rw [Call.run] at hs ⊢
    rcases findWork_cases w with ⟨-, hok⟩ | ⟨e, t, -, hasks, hok⟩
    · rw [hok]
      exact hw
    · have ht := hasks.readied hw
      rcases hok with hok | hok
      · rw [hok]
        exact ht
      · rw [hok]
        exact ht.of_same (fun f hf => hf.imp List.mem_of_mem_erase id) rfl (fun _ => rfl)
          fun _ h => h
  · exact (Call.run_steps hc env fuel w).readied hs hw

lemma Reached.readied (h : Reached env r w) (hs : Steady w.trace) : w.Readied := by
  induction h with
  | start w hw =>
    rintro e (he | ⟨p, he⟩)
    · rw [hw.ready] at he
      cases he
    · rw [hw.delayed] at he
      cases he
  | call r w w' c fuel found _ _ _ hok ih =>
    have hfinal : finalState (c.run env fuel w) = w' := by rw [hok]; rfl
    obtain ⟨t, ht⟩ := (c.run_frames env fuel (w := w)).trace
    rw [← hfinal] at hs ⊢
    refine c.run_readied env fuel hs (ih ?_)
    rw [ht] at hs
    exact hs.of_append
  | elsewhere r w w' _ hw ih =>
    obtain ⟨start, reaped, hw⟩ := hw
    rw [hw] at hs ⊢
    exact (ih hs.of_append).of_same (fun f hf => hf) rfl (fun _ => rfl) fun _ h => h

lemma Seen.readied (h : Seen env r w) (hs : Steady w.trace) : w.Readied := by
  cases h with
  | between _ _ h => exact h.readied hs
  | failed r w₀ _ c fuel f h _ _ hfail _ =>
    have hfinal : finalState (c.run env fuel w₀) = w := by rw [hfail]; rfl
    obtain ⟨t, ht⟩ := (c.run_frames env fuel (w := w₀)).trace
    rw [← hfinal] at hs ⊢
    refine c.run_readied env fuel hs (h.readied ?_)
    rw [ht] at hs
    exact hs.of_append

lemma peek_of_findWork (hok : findWork w = .ok (some e) w') : w.peek = some e := by
  rcases findWork_cases w with ⟨-, hnone⟩ | ⟨f, t, hp, -, hnone | hsome⟩
  · rw [hnone] at hok
    cases hok
  · rw [hnone] at hok
    cases hok
  · rw [hsome] at hok
    cases hok
    exact hp

/-- **Each edge is started once.** In every state that a builder of an acyclic graph comes to in a
steady run, `FindWork` has returned no edge twice, it returns an edge only when all its inputs are
ready, and no edge that it has returned is in the ready queue or delayed. -/
theorem Seen.started_once (h : Seen env r w) (hs : Steady w.trace) :
    w.founds.Nodup ∧
    (∀ e w', findWork w = .ok (some e) w' → w.allInputsReady e = true ∧ e ∉ w.founds) ∧
    (∀ e ∈ w.founds, ¬ w.Queued e) ∧ ∀ e ∈ r.running, e ∈ w.founds := by
  have hpooled := h.pooled hs.toCalm
  refine ⟨hpooled.founds_nodup, fun e w' hok => ?_, fun e => hpooled.not_queued,
    fun e he => hpooled.running.subset he⟩
  have hqueued : w.Queued e := .inl (w.peek_mem (peek_of_findWork hok))
  exact ⟨h.readied hs e hqueued, fun hfound => hpooled.not_queued hfound hqueued⟩

/-- Events with nothing to check in a steady run: no dyndep file gives an edge an input or an
output, and no edge is scanned that is ready. -/
def Event.plain : Event → Bool
  | .linked .. | .produced .. => false
  | .scanned e s => !(s.edges e).outputsReady
  | _ => true

lemma Calm.steady {t : List Event} (h : Calm t) (hplain : t.all Event.plain = true) :
    Steady t := by
  rw [List.all_eq_true] at hplain
  refine ⟨h, fun e s he => absurd (hplain _ he) (by simp [Event.plain]),
    fun n s hn => absurd (hplain _ hn) (by simp [Event.plain]), fun e s he hready => ?_⟩
  have hnot := hplain _ he
  simp [Event.plain, hready] at hnot

/-- The second of two commands is returned when the first one has ended. -/
theorem started_once_chained : ∃ r w w', Reached {} r w ∧ Steady w.trace ∧ w.founds = [0] ∧
    findWork w = .ok (some 1) w' ∧ w.allInputsReady 1 = true ∧ 1 ∉ w.founds ∧ ¬ w.Queued 0 := by
  obtain ⟨r, w, h, hcalm, hplain, hfounds, hwork⟩ : ∃ r w, Reached {} r w ∧ Calm w.trace ∧
      w.trace.all Event.plain = true ∧ w.founds = [0] ∧ findWork.run' w = some (some 1) :=
    exists_of_runActs 9 finishFirst chained_unplanned chained_bounded (by decide)
  obtain ⟨-, honce, hqueued, -⟩ := Seen.started_once (.between r w h) (hcalm.steady hplain)
  delta EStateM.run' EStateM.run at hwork
  cases hok : findWork w with
  | error f w' => simp [hok] at hwork
  | ok found w' =>
    obtain rfl : found = some 1 := by simpa [hok] using hwork
    obtain ⟨hready, hnew⟩ := honce 1 w' hok
    exact ⟨r, w, w', h, hcalm.steady hplain, hfounds, hok, hready, hnew,
      hqueued 0 (by simp [hfounds])⟩

/-- A command that waits in a pool when the queue is prepared is returned twice: it stays in
`WantToStart` while it runs, and the walk over a dyndep file schedules it again. -/
theorem started_once_fails : ∃ r w, Reached dependsOnPooled r w ∧ w.founds = [1, 0, 0] := by
  refine exists_of_runActs 9 (startBoth ++ [.write [100] [],
    .call (.edgeFinished 1 .succeeded), .call (.edgeFinished 0 .succeeded), .call .findWork])
    dyndepOnPooled_unplanned dyndepOnPooled_bounded ?_
  decide +kernel

end Readied

end Reninja
