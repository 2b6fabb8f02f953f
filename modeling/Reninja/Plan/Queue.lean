import Reninja.Plan.Calls

/-!
# The ready queue and the pools

Priorities are a strict total order, and `Peek` gives the greatest edge of the queue. A pool keeps
its delayed edges sorted by priority and hands them to the queue from the front.
-/

namespace Reninja

open Program World List

namespace World

variable (w : World) {a b e f : EdgeId} {p : PoolId}

/-! ### Priorities -/

lemma edgePriorityLess_iff : w.edgePriorityLess a b = true ↔
    (w.edges a).weight < (w.edges b).weight ∨
      (w.edges a).weight = (w.edges b).weight ∧ b < a := by
  rw [edgePriorityLess]
  by_cases h : (w.edges a).weight = (w.edges b).weight
  · simp [h]
  · simp [h]

instance : IsTrans EdgeId fun a b => w.edgePriorityLess a b = true where
  trans a b c hab hbc := by
    rw [edgePriorityLess_iff] at hab hbc ⊢
    rcases hab with hab | ⟨hab, hba⟩ <;> rcases hbc with hbc | ⟨hbc, hcb⟩
    · exact .inl (Int.lt_trans hab hbc)
    · exact .inl (hbc ▸ hab)
    · exact .inl (hab ▸ hbc)
    · exact .inr ⟨hab.trans hbc, Nat.lt_trans hcb hba⟩

lemma edgePriorityLess_irrefl (a : EdgeId) : w.edgePriorityLess a a = false := by
  simp [edgePriorityLess]

lemma eq_of_not_less (hab : w.edgePriorityLess a b = false) (hba : w.edgePriorityLess b a = false) :
    a = b := by
  rw [← Bool.not_eq_true, edgePriorityLess_iff, not_or, not_and, Int.not_lt] at hab hba
  have hw : (w.edges a).weight = (w.edges b).weight := Int.le_antisymm hba.1 hab.1
  exact Nat.le_antisymm (Nat.not_lt.mp (hab.2 hw)) (Nat.not_lt.mp (hba.2 hw.symm))

lemma not_less_trans {c : EdgeId} (hab : w.edgePriorityLess a b = false)
    (hbc : w.edgePriorityLess b c = false) : w.edgePriorityLess a c = false := by
  by_contra hac
  rw [Bool.not_eq_false] at hac
  by_cases hcb : w.edgePriorityLess c b = true
  · rw [IsTrans.trans (r := fun a b => w.edgePriorityLess a b = true) a c b hac hcb] at hab
    cases hab
  · rw [w.eq_of_not_less hbc (by simpa using hcb), hac] at hab
    cases hab

def greater (a b : EdgeId) : EdgeId := if w.edgePriorityLess a b then b else a

lemma greater_not_less (a b : EdgeId) : w.edgePriorityLess (w.greater a b) a = false ∧
    w.edgePriorityLess (w.greater a b) b = false := by
  rw [greater]
  split
  · rename_i h
    refine ⟨?_, w.edgePriorityLess_irrefl b⟩
    by_contra hba
    rw [Bool.not_eq_false] at hba
    have hbb := IsTrans.trans (r := fun a b => w.edgePriorityLess a b = true) b a b hba h
    rw [edgePriorityLess_irrefl] at hbb
    cases hbb
  · rename_i h
    exact ⟨w.edgePriorityLess_irrefl a, by simpa using h⟩

lemma greater_eq (a b : EdgeId) : w.greater a b = a ∨ w.greater a b = b := by
  rw [greater]
  split
  · exact .inr rfl
  · exact .inl rfl

lemma foldl_greater (es : List EdgeId) (e : EdgeId) :
    es.foldl w.greater e ∈ e :: es ∧
      ∀ f ∈ e :: es, w.edgePriorityLess (es.foldl w.greater e) f = false := by
  induction es generalizing e with
  | nil => simp [edgePriorityLess_irrefl]
  | cons x es ih =>
    obtain ⟨hmem, hmax⟩ := ih (w.greater e x)
    rw [foldl_cons]
    obtain ⟨hge, hgx⟩ := w.greater_not_less e x
    have hself := hmax (w.greater e x) (mem_cons_self ..)
    refine ⟨?_, fun f hf => ?_⟩
    · rcases mem_cons.mp hmem with h | h
      · rw [h]
        rcases w.greater_eq e x with hp | hp <;> simp [hp]
      · exact mem_cons_of_mem _ (mem_cons_of_mem _ h)
    · simp only [mem_cons] at hf
      rcases hf with rfl | rfl | hf
      · exact w.not_less_trans hself hge
      · exact w.not_less_trans hself hgx
      · exact hmax f (mem_cons_of_mem _ hf)

lemma peek_mem (h : w.peek = some e) : e ∈ w.ready := by
  rw [peek] at h
  split at h
  · cases h
  · rename_i x es hready
    rw [hready, ← Option.some.inj h]
    exact (w.foldl_greater es x).1

lemma peek_greatest (h : w.peek = some e) (hf : f ∈ w.ready) (hne : f ≠ e) :
    w.edgePriorityLess f e = true := by
  rw [peek] at h
  split at h
  · cases h
  · rename_i x es hready
    rw [hready] at hf
    have hmax := (w.foldl_greater es x).2 f hf
    rw [show es.foldl w.greater x = e from Option.some.inj h] at hmax
    by_contra hn
    exact hne (w.eq_of_not_less (by simpa using hn) hmax)

lemma peek_eq_none : w.peek = none ↔ w.ready = [] := by
  rw [peek]
  split <;> simp_all

/-! ### Delayed edges -/

@[simp] lemma setPool_pools_self (g : Pool → Pool) : (w.setPool p g).pools p = g (w.pools p) :=
  Function.update_self ..

lemma setPool_pools_ne {q : PoolId} (g : Pool → Pool) (h : q ≠ p) :
    (w.setPool p g).pools q = w.pools q := Function.update_of_ne h ..

lemma delayEdge_eq (e : EdgeId) : w.delayEdge e = w.setPool (w.edges e).pool fun q =>
    { q with delayed := Search.insert w.edgePriorityLess 0 q.delayed e } := by
  rw [delayEdge]
  split
  · rename_i h
    rw [setPool, Search.insert, if_pos h, Function.update_eq_self]
  · rename_i h
    rw [setPool, setPool, Search.insert, if_neg h]

lemma delayEdge_pools (e : EdgeId) (p : PoolId) : (w.delayEdge e).pools p =
    if p = (w.edges e).pool then
      { w.pools p with delayed := Search.insert w.edgePriorityLess 0 (w.pools p).delayed e }
    else w.pools p := by
  rw [delayEdge_eq]
  split
  · rename_i h
    subst h
    exact w.setPool_pools_self _
  · exact w.setPool_pools_ne _ ‹_›

lemma log_delayEdge (ev : Event) : (w.log ev).delayEdge e = (w.delayEdge e).log ev := by
  rw [delayEdge_eq, delayEdge_eq]
  rfl

lemma retrieveLoop_append (depth : Nat) (use : Int) (l : List EdgeId) :
    (retrieveLoop depth use l).1 ++ (retrieveLoop depth use l).2.1 = l := by
  induction l generalizing use with
  | nil => rfl
  | cons x l ih =>
    rw [retrieveLoop]
    split
    · rfl
    · simp [ih]

/-- A pool after it has handed over the edges that it can. -/
def retrievedPool (q : Pool) : Pool :=
  let r := retrieveLoop q.depth q.currentUse q.delayed
  { q with delayed := r.2.1, currentUse := r.2.2 }

def retrievedEdges (q : Pool) : List EdgeId := (retrieveLoop q.depth q.currentUse q.delayed).1

lemma retrieveReadyEdges_eq (p : PoolId) : w.retrieveReadyEdges p = { w with
    pools := Function.update w.pools p (retrievedPool (w.pools p))
    ready := w.ready ++ retrievedEdges (w.pools p) } := rfl

lemma retrieveReadyEdges_pools_ne {q : PoolId} (h : q ≠ p) :
    (w.retrieveReadyEdges p).pools q = w.pools q := Function.update_of_ne h ..

def Queued (e : EdgeId) : Prop := e ∈ w.ready ∨ ∃ p, e ∈ (w.pools p).delayed

lemma queued_retrieveReadyEdges (p : PoolId) :
    (w.retrieveReadyEdges p).Queued f ↔ w.Queued f := by
  have happend := retrieveLoop_append (w.pools p).depth (w.pools p).currentUse (w.pools p).delayed
  rw [Queued, Queued, retrieveReadyEdges]
  generalize
    retrieveLoop (w.pools p).depth (w.pools p).currentUse (w.pools p).delayed = r at happend ⊢
  have hmem : f ∈ (w.pools p).delayed ↔ f ∈ r.1 ∨ f ∈ r.2.1 := by rw [← happend, mem_append]
  rw [mem_append]
  constructor
  · rintro ((h | h) | ⟨q, hq⟩)
    · exact .inl h
    · exact .inr ⟨p, hmem.mpr (.inl h)⟩
    · by_cases hqp : q = p
      · subst hqp
        simp only [setPool_pools_self] at hq
        exact .inr ⟨q, hmem.mpr (.inr hq)⟩
      · simp only [w.setPool_pools_ne _ hqp] at hq
        exact .inr ⟨q, hq⟩
  · rintro (h | ⟨q, hq⟩)
    · exact .inl (.inl h)
    · by_cases hqp : q = p
      · subst hqp
        rcases hmem.mp hq with h | h
        · exact .inl (.inr h)
        · exact .inr ⟨q, by simpa only [setPool_pools_self] using h⟩
      · exact .inr ⟨q, by simpa only [w.setPool_pools_ne _ hqp] using hq⟩

lemma queued_delayEdge : (w.delayEdge e).Queued f ↔ f = e ∨ w.Queued f := by
  rw [delayEdge_eq, Queued, Queued]
  constructor
  · rintro (h | ⟨q, hq⟩)
    · exact .inr (.inl h)
    · by_cases hqp : q = (w.edges e).pool
      · rw [hqp, setPool_pools_self, Search.mem_insert] at hq
        exact hq.imp id fun h => .inr ⟨_, h⟩
      · rw [w.setPool_pools_ne _ hqp] at hq
        exact .inr (.inr ⟨q, hq⟩)
  · rintro (rfl | h | ⟨q, hq⟩)
    · exact .inr ⟨(w.edges f).pool, by rw [setPool_pools_self, Search.mem_insert]; exact .inl rfl⟩
    · exact .inl h
    · refine .inr ⟨q, ?_⟩
      by_cases hqp : q = (w.edges e).pool
      · rw [hqp] at hq ⊢
        rw [setPool_pools_self, Search.mem_insert]
        exact .inr hq
      · rwa [w.setPool_pools_ne _ hqp]

lemma queued_setPool {g : Pool → Pool} (h : (g (w.pools p)).delayed = (w.pools p).delayed) :
    (w.setPool p g).Queued f ↔ w.Queued f := by
  have hd : ∀ q, ((w.setPool p g).pools q).delayed = (w.pools q).delayed := by
    intro q
    by_cases hq : q = p
    · subst hq
      rw [setPool_pools_self, h]
    · rw [w.setPool_pools_ne _ hq]
  simp only [Queued, hd]
  rfl

lemma queued_enqueue : (w.enqueue e).Queued f ↔ f = e ∨ w.Queued f := by
  rw [enqueue]
  split
  · rw [queued_retrieveReadyEdges, queued_delayEdge]
  · have h : (w.edgeScheduled e).Queued f ↔ w.Queued f := w.queued_setPool rfl
    simp only [Queued] at h ⊢
    rw [mem_append, mem_singleton, or_assoc, or_left_comm]
    exact or_congr_right h

lemma queued_freePool : (w.freePool e).Queued f ↔ w.Queued f := by
  rw [freePool, queued_retrieveReadyEdges]
  split
  · rfl
  · exact w.queued_setPool rfl

end World

def Event.put : Event → Option EdgeId
  | .scheduled e | .delayed e => some e
  | _ => none

def Event.taken : Event → Option EdgeId
  | .found e => some e
  | _ => none

/-- The edges that were put into the queue or into the list of a pool. -/
def World.puts (w : World) : List EdgeId := w.trace.filterMap Event.put

/-- The edges that `FindWork` has returned. -/
def World.founds (w : World) : List EdgeId := w.trace.filterMap Event.taken

section History

variable {w w' : World} {e : EdgeId} {l : List Event}

lemma Event.Quiet.put {ev : Event} (h : ev.Quiet w) : ev.put = none := by
  cases ev <;> first | rfl | exact absurd h id

lemma Event.Quiet.taken {ev : Event} (h : ev.Quiet w) : ev.taken = none := by
  cases ev <;> first | rfl | exact absurd h id

lemma World.puts_of_trace (h : w'.trace = w.trace ++ l) (hl : ∀ ev ∈ l, ev.put = none) :
    w'.puts = w.puts := by
  rw [puts, puts, h, filterMap_append, filterMap_eq_nil_iff.mpr hl,
    append_nil]

lemma World.founds_of_trace (h : w'.trace = w.trace ++ l) (hl : ∀ ev ∈ l, ev.taken = none) :
    w'.founds = w.founds := by
  rw [founds, founds, h, filterMap_append, filterMap_eq_nil_iff.mpr hl,
    append_nil]

end History

lemma Step.queued {L : Licence} {w w' : World} {f : EdgeId} (h : Step L w w') (hf : w'.Queued f) :
    w.Queued f ∨ w.want f = some .toStart := by
  have hsame : w'.ready = w.ready → w'.pools = w.pools → w.Queued f := fun hr hp => by
    rwa [World.Queued, hr, hp] at hf
  cases h with
  | quiet _ hq => exact .inl (hsame hq.ready hq.pools)
  | weigh e c _ => exact .inl (hsame rfl rfl)
  | wantNothing e _ _ => exact .inl (hsame rfl rfl)
  | wantStart e _ _ => exact .inl (hsame (by rw [wantStart_eq]) (by rw [wantStart_eq]))
  | schedule e he _ =>
    rw [World.schedule, World.queued_enqueue] at hf
    rcases hf with rfl | hf
    · exact .inr he
    · exact .inl hf
  | delay e he _ _ _ =>
    rw [queued_delayEdge] at hf
    rcases hf with rfl | hf
    · exact .inr he
    · exact .inl hf
  | retrieve p => exact .inl ((w.queued_retrieveReadyEdges p).mp hf)
  | fail e _ _ =>
    rw [World.giveBack, World.logFinished_eq] at hf
    exact .inl (w.queued_freePool.mp hf)
  | succeed e _ _ =>
    rw [World.leave_eq, World.giveBack, World.logFinished_eq] at hf
    exact .inl (w.queued_freePool.mp hf)
  | unwant e _ => exact .inl (hsame (by rw [unwant_eq]) (by rw [unwant_eq]))

end Reninja
