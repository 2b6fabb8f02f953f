import Mathlib.Data.List.Nodup
import Mathlib.Data.List.Perm.Subperm
import Reninja.Plan.Initial

/-!
# Pools over a whole run

Where each edge is that was put into the queue: still delayed, in the ready queue, or taken. The
use of a pool is the number of its edges in the queue and among those that run. This holds as
long as no edge is put into the queue a second time.
-/

namespace Reninja

open Program World List

variable {t : List Event} {e : EdgeId}

/-- Nothing in the run unsettles an edge that is queued, that runs or that has finished. An edge
that `ScheduleInitialEdges` has delayed, and left in `WantToStart`, is not scheduled again;
`CleanNode` un-wants only edges that were neither delayed nor scheduled; and an edge that is ready
is scanned again only while it is in the plan. -/
structure Calm (t : List Event) : Prop where
  once : ∀ e, .delayed e ∈ t → .scheduled e ∉ t
  unwanted : ∀ e s, .unwanted e s ∈ t → s.want e = some .toStart ∧ .delayed e ∉ t
  kept : ∀ e s, .scanned e s ∈ t → (s.edges e).outputsReady = true → s.want e ≠ none

lemma Calm.of_append {t l : List Event} (h : Calm (t ++ l)) : Calm t where
  once e hd hs := h.once e (mem_append_left l hd) (mem_append_left l hs)
  unwanted e s he := by
    obtain ⟨hw, hd⟩ := h.unwanted e s (mem_append_left l he)
    exact ⟨hw, fun hmem => hd (mem_append_left l hmem)⟩
  kept e s he := h.kept e s (mem_append_left l he)

lemma Calm.of_grows {w w' : World} (h : Calm w'.trace) (hg : Grows w w') : Calm w.trace := by
  obtain ⟨l, hl⟩ := hg.trace
  rw [hl] at h
  exact h.of_append

def Event.delayedEdge : Event → Option EdgeId
  | .delayed e => some e
  | _ => none

def Event.scheduledEdge : Event → Option EdgeId
  | .scheduled e => some e
  | _ => none

def Event.CalmAmong (ds : List EdgeId) : Event → Prop
  | .unwanted e s => s.want e = some .toStart ∧ e ∉ ds
  | .scanned e s => (s.edges e).outputsReady = true → s.want e ≠ none
  | _ => True

instance (ds : List EdgeId) (ev : Event) : Decidable (ev.CalmAmong ds) := by
  cases ev <;> unfold Event.CalmAmong <;> infer_instance

lemma mem_filterMap_event {f : Event → Option EdgeId} {mk : EdgeId → Event}
    (hf : ∀ ev e, f ev = some e ↔ ev = mk e) : e ∈ t.filterMap f ↔ mk e ∈ t := by
  simp [mem_filterMap, hf]

lemma mem_delayedEdges : e ∈ t.filterMap Event.delayedEdge ↔ .delayed e ∈ t :=
  mem_filterMap_event fun ev e => by cases ev <;> simp [Event.delayedEdge]

lemma mem_scheduledEdges : e ∈ t.filterMap Event.scheduledEdge ↔ .scheduled e ∈ t :=
  mem_filterMap_event fun ev e => by cases ev <;> simp [Event.scheduledEdge]

lemma calm_iff : Calm t ↔
    (∀ e ∈ t.filterMap Event.delayedEdge, e ∉ t.filterMap Event.scheduledEdge) ∧
      ∀ ev ∈ t, ev.CalmAmong (t.filterMap Event.delayedEdge) := by
  constructor
  · intro h
    refine ⟨fun e hd => ?_, fun ev hev => ?_⟩
    · rw [mem_scheduledEdges]
      exact h.once e (mem_delayedEdges.mp hd)
    · cases ev with
      | unwanted e s =>
        obtain ⟨hw, hd⟩ := h.unwanted e s hev
        exact ⟨hw, fun hmem => hd (mem_delayedEdges.mp hmem)⟩
      | scanned e s => exact h.kept e s hev
      | _ => trivial
  · rintro ⟨honce, hall⟩
    refine ⟨fun e hd hs => ?_, fun e s he => ?_, fun e s he => hall _ he⟩
    · exact honce e (mem_delayedEdges.mpr hd) (mem_scheduledEdges.mpr hs)
    · obtain ⟨hw, hd⟩ := hall _ he
      exact ⟨hw, fun hmem => hd (mem_delayedEdges.mpr hmem)⟩

instance (t : List Event) : Decidable (Calm t) := decidable_of_iff _ calm_iff.symm

/-- An edge that was put into the queue is in the plan until it has succeeded; then it is ready. -/
def World.Placed (l : List EdgeId) (w : World) (e : EdgeId) : Prop :=
  w.want e = some .toFinish ∨ (w.want e = some .toStart ∧ .delayed e ∈ w.trace) ∨
    (w.want e = none ∧ (w.edges e).outputsReady = true ∧ e ∈ w.founds ∧ e ∉ l)

/-- The state of the queue and of the pools while the edges of `l` run. -/
structure Pooled (l : List EdgeId) (w : World) : Prop where
  once : w.puts.Nodup
  conserved : ∀ e, w.ready.count e + w.founds.count e +
    (w.pools (w.edges e).pool).delayed.count e = w.puts.count e
  running : l.Subperm w.founds
  placed : ∀ e ∈ w.puts, w.Placed l e
  delayed : ∀ p, ∀ e ∈ (w.pools p).delayed, (w.edges e).pool = p ∧ (w.pools p).depth ≠ 0
  sorted : w.Sorted
  use : ∀ p, (w.pools p).depth ≠ 0 →
    (w.pools p).currentUse = (w.ready ++ l).countP fun e => (w.edges e).pool = p
  bound : ∀ p, (w.pools p).depth ≠ 0 → (w.pools p).currentUse ≤ (w.pools p).depth

section Pooled

variable {l : List EdgeId} {w w' : World} {e : EdgeId}

lemma Pooled.mem_puts_of_found (h : Pooled l w) (he : e ∈ w.founds) : e ∈ w.puts := by
  have := h.conserved e
  have := count_pos_iff.mpr he
  exact count_pos_iff.mp (by omega)

lemma Pooled.mem_puts_of_delayed {p : PoolId} (h : Pooled l w) (he : e ∈ (w.pools p).delayed) :
    e ∈ w.puts := by
  have := h.conserved e
  rw [(h.delayed p e he).1] at this
  have := count_pos_iff.mpr he
  exact count_pos_iff.mp (by omega)

lemma Pooled.not_queued (h : Pooled l w) (he : e ∈ w.founds) : ¬ w.Queued e := by
  have hone := nodup_iff_count_le_one.mp h.once e
  have hsum := h.conserved e
  have hfound := count_pos_iff.mpr he
  rintro (hr | ⟨p, hd⟩)
  · have := count_pos_iff.mpr hr
    omega
  · rw [(h.delayed p e hd).1] at hsum
    have := count_pos_iff.mpr hd
    omega

lemma Pooled.founds_nodup (h : Pooled l w) : w.founds.Nodup := by
  refine nodup_iff_count_le_one.mpr fun e => ?_
  have := nodup_iff_count_le_one.mp h.once e
  have := h.conserved e
  omega

lemma Pooled.running_nodup (h : Pooled l w) : l.Nodup := by
  refine nodup_iff_count_le_one.mpr fun e => ?_
  have := nodup_iff_count_le_one.mp h.founds_nodup e
  have := h.running.count_le e
  omega

lemma Pooled.wanted_of_running (h : Pooled l w) (he : e ∈ l) :
    w.want e = some .toFinish ∨ w.want e = some .toStart := by
  rcases h.placed e (h.mem_puts_of_found (h.running.subset he)) with h | ⟨h, -⟩ | ⟨-, -, -, hl⟩
  · exact .inl h
  · exact .inr h
  · exact absurd he hl

lemma Pooled.not_mem_puts_of_nothing (h : Pooled l w) (he : w.want e = some .nothing) :
    e ∉ w.puts := by
  intro hput
  rcases h.placed e hput with h | ⟨h, -⟩ | ⟨h, -⟩ <;> rw [he] at h <;> cases h

/-- A change that leaves the queue and the edges that were put into it as they are. -/
structure Rests (w w' : World) : Prop where
  ready : w'.ready = w.ready
  pools : w'.pools = w.pools
  puts : w'.puts = w.puts
  founds : w'.founds = w.founds
  pool : ∀ e, (w'.edges e).pool = (w.edges e).pool
  weight : ∀ e, (w'.edges e).criticalPathWeight = (w.edges e).criticalPathWeight
  told : ∀ e, .delayed e ∈ w.trace → .delayed e ∈ w'.trace
  want : ∀ e ∈ w.puts, w'.want e = w.want e
  outputsReady : ∀ e ∈ w.puts, w.want e = none → (w.edges e).outputsReady = true →
    (w'.edges e).outputsReady = true

lemma World.edgePriorityLess_congr
    (h : ∀ e, (w'.edges e).criticalPathWeight = (w.edges e).criticalPathWeight) :
    w'.edgePriorityLess = w.edgePriorityLess := by
  funext a b
  rw [Bool.eq_iff_iff, edgePriorityLess_iff, edgePriorityLess_iff]
  simp only [Edge.weight, h]

lemma Pooled.rests (h : Pooled l w) (hr : Rests w w') : Pooled l w' where
  once := by rw [hr.puts]; exact h.once
  conserved e := by rw [hr.ready, hr.founds, hr.pools, hr.pool, hr.puts]; exact h.conserved e
  running := by rw [hr.founds]; exact h.running
  placed e he := by
    rw [hr.puts] at he
    rw [World.Placed, hr.want e he, hr.founds]
    exact (h.placed e he).imp_right (Or.imp (fun ⟨hw, hd⟩ => ⟨hw, hr.told e hd⟩)
      fun ⟨hw, ho, hf⟩ => ⟨hw, hr.outputsReady e he hw ho, hf⟩)
  delayed p e he := by
    rw [hr.pools] at he ⊢
    rw [hr.pool]
    exact h.delayed p e he
  sorted p := by
    rw [hr.pools, edgePriorityLess_congr hr.weight]
    exact h.sorted p
  use p hp := by
    rw [hr.pools] at hp ⊢
    simp only [hr.ready, hr.pool]
    exact h.use p hp
  bound p hp := by
    rw [hr.pools] at hp ⊢
    exact h.bound p hp

/-- A change that only tells of something else, and leaves the wants of what is queued. -/
lemma Rests.of_trace (hready : w'.ready = w.ready) (hpools : w'.pools = w.pools)
    (hedges : w'.edges = w.edges) (hwant : ∀ e ∈ w.puts, w'.want e = w.want e)
    (htrace : w'.trace = w.trace ++ t) (hput : ∀ ev ∈ t, ev.put = none)
    (htaken : ∀ ev ∈ t, ev.taken = none) : Rests w w' where
  ready := hready
  pools := hpools
  puts := puts_of_trace htrace hput
  founds := founds_of_trace htrace htaken
  pool e := by rw [hedges]
  weight e := by rw [hedges]
  told e he := by rw [htrace]; exact mem_append_left _ he
  want := hwant
  outputsReady e _ _ he := by rwa [hedges]

lemma World.retrieveLoop_use {depth : Nat} (hdepth : depth ≠ 0) (use : Int) (es : List EdgeId) :
    (retrieveLoop depth use es).2.2 = use + (retrieveLoop depth use es).1.length ∧
      (use ≤ depth → (retrieveLoop depth use es).2.2 ≤ depth) := by
  induction es generalizing use with
  | nil => simp [retrieveLoop]
  | cons x es ih =>
    rw [retrieveLoop]
    split
    · simp
    · rename_i hfits
      obtain ⟨huse, hbound⟩ := ih (use + 1)
      simp only [length_cons]
      exact ⟨by omega, fun _ => hbound (by omega)⟩

lemma Pooled.retrieve (h : Pooled l w) (p : PoolId) : Pooled l (w.retrieveReadyEdges p) := by
  have happend := retrieveLoop_append (w.pools p).depth (w.pools p).currentUse
    (w.pools p).delayed
  have huse := fun (hp : (w.pools p).depth ≠ 0) => retrieveLoop_use hp
    (w.pools p).currentUse (w.pools p).delayed
  rw [retrieveReadyEdges_eq, retrievedPool, retrievedEdges]
  generalize retrieveLoop (w.pools p).depth (w.pools p).currentUse (w.pools p).delayed = r at *
  have hmem : ∀ e ∈ r.1, (w.edges e).pool = p ∧ (w.pools p).depth ≠ 0 := fun e he =>
    h.delayed p e (happend ▸ mem_append_left _ he)
  refine ⟨h.once, fun e => ?_, h.running, h.placed, fun q e he => ?_, fun q => ?_, fun q hq => ?_,
    fun q hq => ?_⟩
  · have hcount := h.conserved e
    dsimp only
    by_cases hq : (w.edges e).pool = p
    · rw [hq] at hcount ⊢
      rw [Function.update_self, count_append]
      rw [← happend, count_append] at hcount
      change w.ready.count e + r.1.count e + w.founds.count e + r.2.1.count e = w.puts.count e
      omega
    · rw [Function.update_of_ne hq, count_append,
        count_eq_zero.mpr fun he => hq (hmem e he).1]
      exact hcount
  · dsimp only at he ⊢
    by_cases hq : q = p
    · subst hq
      rw [Function.update_self] at he ⊢
      exact h.delayed q e (happend ▸ mem_append_right _ he)
    · rw [Function.update_of_ne hq] at he ⊢
      exact h.delayed q e he
  · dsimp only
    by_cases hq : q = p
    · subst hq
      rw [Function.update_self]
      have hs := h.sorted q
      rw [← happend] at hs
      exact (pairwise_append.mp hs).2.1
    · rw [Function.update_of_ne hq]
      exact h.sorted q
  · dsimp only at hq ⊢
    by_cases hqp : q = p
    · subst hqp
      rw [Function.update_self] at hq ⊢
      have hall : r.1.countP (fun e => (w.edges e).pool = q) = r.1.length :=
        countP_eq_length.mpr fun e he => by simpa using (hmem e he).1
      have := h.use q hq
      rw [countP_append] at this
      rw [countP_append, countP_append, hall]
      change r.2.2 = _
      have := (huse hq).1
      omega
    · rw [Function.update_of_ne hqp] at hq ⊢
      have hnone : r.1.countP (fun e => (w.edges e).pool = q) = 0 :=
        countP_eq_zero.mpr fun e he => by simpa using fun hc => hqp (hc.symm.trans (hmem e he).1)
      rw [countP_append, countP_append, hnone, Nat.add_zero, ← countP_append]
      exact h.use q hq
  · dsimp only at hq ⊢
    by_cases hqp : q = p
    · subst hqp
      rw [Function.update_self] at hq ⊢
      exact (huse hq).2 (h.bound q hq)
    · rw [Function.update_of_ne hqp] at hq ⊢
      exact h.bound q hq

lemma World.puts_log_put {ev : Event} (h : ev.put = some e) : (w.log ev).puts = w.puts ++ [e] := by
  rw [puts, log, filterMap_append, filterMap_cons_some h]
  rfl

lemma Search.count_insert_of_not_mem (less : EdgeId → EdgeId → Bool) {es : List EdgeId}
    (h : e ∉ es) (f : EdgeId) :
    (Search.insert less 0 es e).count f = es.count f + [e].count f := by
  have hnew : ∀ i, ¬ (i ≠ 0 ∧ es[i - 1]? = some e) := fun i hi => h (mem_of_getElem? hi.2)
  rw [Search.insert, if_neg (hnew _), Search.insertIdx_eq (Search.search_le _ _)]
  generalize Search.search es.length (fun k => less (es.getD k 0) e) = i
  rw [count_append, ← singleton_append, count_append]
  have hsplit := congrArg (count f) (take_append_drop i es)
  rw [count_append] at hsplit
  omega

/-- An edge that is new to the queue. -/
structure Puts (l : List EdgeId) (e : EdgeId) (w w' : World) : Prop where
  fresh : e ∉ w.puts
  edges : w'.edges = w.edges
  puts : w'.puts = w.puts ++ [e]
  founds : w'.founds = w.founds
  told : ∀ f, .delayed f ∈ w.trace → .delayed f ∈ w'.trace
  want : ∀ f, f ≠ e → w'.want f = w.want f
  placed : w'.Placed l e

lemma Puts.once (hp : Puts l e w w') (h : Pooled l w) : w'.puts.Nodup := by
  rw [hp.puts]
  refine nodup_append.mpr ⟨h.once, by simp, fun a ha b hb hab => hp.fresh ?_⟩
  rwa [hab, mem_singleton.mp hb] at ha

lemma Puts.placed_all (hp : Puts l e w w') (h : Pooled l w) (f : EdgeId) (hf : f ∈ w'.puts) :
    w'.Placed l f := by
  rw [hp.puts, mem_append, mem_singleton] at hf
  by_cases hfe : f = e
  · rw [hfe]
    exact hp.placed
  · rw [World.Placed, hp.want f hfe, hp.founds, hp.edges]
    exact (h.placed f (hf.resolve_right hfe)).imp_right
      (Or.imp_left fun ⟨hw, hd⟩ => ⟨hw, hp.told f hd⟩)

lemma Pooled.delay (h : Pooled l w) (hp : Puts l e w w') (hready : w'.ready = w.ready)
    (hdepth : (w.pools (w.edges e).pool).depth ≠ 0)
    (hpools : ∀ p, w'.pools p = if p = (w.edges e).pool then
      { w.pools p with delayed := Search.insert w.edgePriorityLess 0 (w.pools p).delayed e }
      else w.pools p) : Pooled l w' := by
  have hnew : e ∉ (w.pools (w.edges e).pool).delayed := fun hd =>
    hp.fresh (h.mem_puts_of_delayed hd)
  have hother : ∀ {q}, q ≠ (w.edges e).pool → w'.pools q = w.pools q := fun hq => by
    rw [hpools, if_neg hq]
  have hself := hpools (w.edges e).pool
  rw [if_pos rfl] at hself
  refine ⟨hp.once h, fun f => ?_, ?_, hp.placed_all h, fun q f hf => ?_, fun q => ?_,
    fun q hq => ?_, fun q hq => ?_⟩
  · have hcount := h.conserved f
    rw [hready, hp.founds, hp.puts, hp.edges, count_append, ← hcount]
    by_cases hq : (w.edges f).pool = (w.edges e).pool
    · rw [hq, hself]
      have hinsert := Search.count_insert_of_not_mem w.edgePriorityLess hnew f
      dsimp only
      omega
    · have hfe : f ≠ e := fun hfe => hq (by rw [hfe])
      rw [hother hq, count_singleton, if_neg (by simpa using hfe.symm)]
      rfl
  · rw [hp.founds]
    exact h.running
  · rw [hp.edges]
    by_cases hq : q = (w.edges e).pool
    · subst hq
      rw [hself] at hf ⊢
      rcases Search.mem_insert.mp hf with rfl | hf
      · exact ⟨rfl, hdepth⟩
      · exact h.delayed _ f hf
    · rw [hother hq] at hf ⊢
      exact h.delayed q f hf
  · rw [edgePriorityLess_congr (w := w) fun f => by rw [hp.edges]]
    by_cases hq : q = (w.edges e).pool
    · subst hq
      rw [hself]
      exact Search.insert_sorted (fun _ _ => w.eq_of_not_less) (h.sorted _)
    · rw [hother hq]
      exact h.sorted q
  · rw [hready, hp.edges]
    by_cases hqe : q = (w.edges e).pool
    · subst hqe
      rw [hself] at hq ⊢
      exact h.use _ hq
    · rw [hother hqe] at hq ⊢
      exact h.use q hq
  · by_cases hqe : q = (w.edges e).pool
    · subst hqe
      rw [hself] at hq ⊢
      exact h.bound _ hq
    · rw [hother hqe] at hq ⊢
      exact h.bound q hq

lemma Pooled.append (h : Pooled l w) (hp : Puts l e w w') (hready : w'.ready = w.ready ++ [e])
    (hdepth : (w.pools (w.edges e).pool).depth = 0) (hpools : w'.pools = w.pools) :
    Pooled l w' := by
  refine ⟨hp.once h, fun f => ?_, ?_, hp.placed_all h, fun q f hf => ?_, fun q => ?_,
    fun q hq => ?_, fun q hq => ?_⟩
  · have hcount := h.conserved f
    rw [hready, hp.founds, hp.puts, hp.edges, hpools, count_append, count_append]
    omega
  · rw [hp.founds]
    exact h.running
  · rw [hpools] at hf ⊢
    rw [hp.edges]
    exact h.delayed q f hf
  · rw [edgePriorityLess_congr (w := w) fun f => by rw [hp.edges], hpools]
    exact h.sorted q
  · rw [hpools] at hq ⊢
    have hqe : (w.edges e).pool ≠ q := fun hqe => hq (hqe ▸ hdepth)
    have huse := h.use q hq
    rw [hready, hp.edges, countP_append, countP_append,
      countP_singleton, if_neg (by simpa using hqe), Nat.add_zero, ← countP_append]
    exact huse
  · rw [hpools] at hq ⊢
    exact h.bound q hq

lemma Pooled.schedule (h : Pooled l w) (he : e ∉ w.puts) : Pooled l (w.schedule e) := by
  have hputs : Puts l e w ((w.log (.scheduled e)).setWant e (some .toFinish)) :=
    { fresh := he
      edges := rfl
      puts := puts_log_put rfl
      founds := founds_of_trace rfl (l := [.scheduled e]) (by simp [Event.taken])
      told := fun f hf => mem_append_left _ hf
      want := fun f hf => Function.update_of_ne hf ..
      placed := .inl (Function.update_self ..) }
  by_cases hd : w.delays e = true
  · have hdepth : (w.pools (w.edges e).pool).depth ≠ 0 := by
      simpa [delays, Pool.shouldDelayEdge] using hd
    have hd' : ((w.pools (w.edges e).pool).shouldDelayEdge) = true := hd
    rw [World.schedule, World.enqueue]
    change Pooled l (if (w.pools (w.edges e).pool).shouldDelayEdge then _ else _)
    rw [if_pos hd']
    have hpools := delayEdge_pools ((w.log (.scheduled e)).setWant e (some .toFinish)) e
    refine Pooled.retrieve (h.delay ?_ ?_ hdepth hpools) _
    · rw [delayEdge_eq]
      exact ⟨hputs.fresh, hputs.edges, hputs.puts, hputs.founds, hputs.told, hputs.want,
        hputs.placed⟩
    · rw [delayEdge_eq]
      rfl
  · rw [Bool.not_eq_true] at hd
    have hdepth : (w.pools (w.edges e).pool).depth = 0 := by
      simpa [delays, Pool.shouldDelayEdge] using hd
    rw [schedule_eq hd]
    exact h.append ⟨hputs.fresh, hputs.edges, hputs.puts, hputs.founds, hputs.told, hputs.want,
      hputs.placed⟩ rfl hdepth rfl

lemma World.founds_take : (w.take e).founds = w.founds ++ [e] := by
  rw [founds, take, log, filterMap_append]
  rfl

lemma World.puts_take : (w.take e).puts = w.puts :=
  puts_of_trace rfl (l := [.found e]) (by simp [Event.put])

lemma Pooled.take (h : Pooled l w) (he : e ∈ w.ready) : Pooled (l ++ [e]) (w.take e) := by
  have hready : w.ready.Perm (e :: w.ready.erase e) := perm_cons_erase he
  refine ⟨?_, fun f => ?_, ?_, fun f hf => ?_, h.delayed, h.sorted, fun p hp => ?_, h.bound⟩
  · rw [puts_take]
    exact h.once
  · have hcount := h.conserved f
    rw [hready.count_eq, ← singleton_append, count_append] at hcount
    rw [founds_take, puts_take, count_append]
    change (w.ready.erase e).count f + _ + (w.pools (w.edges f).pool).delayed.count f = _
    omega
  · rw [founds_take]
    exact (subperm_append_right [e]).mpr h.running
  · rw [puts_take] at hf
    have hplaced := h.placed f hf
    rw [World.Placed, founds_take]
    refine hplaced.imp_right (Or.imp (fun ⟨hw, hd⟩ => ⟨hw, mem_append_left _ hd⟩) ?_)
    rintro ⟨hw, hout, hfound, hfl⟩
    refine ⟨hw, hout, mem_append_left _ hfound, fun hmem => ?_⟩
    rcases mem_append.mp hmem with hmem | hmem
    · exact hfl hmem
    · rw [mem_singleton.mp hmem] at hfound
      exact h.not_queued hfound (.inl he)
  · have huse := h.use p hp
    rw [(hready.append_right l).countP_eq] at huse
    have hperm : (w.ready.erase e ++ (l ++ [e])).Perm (e :: w.ready.erase e ++ l) := by
      rw [← append_assoc]
      exact perm_append_singleton e _
    change (w.pools p).currentUse = ((w.ready.erase e ++ (l ++ [e])).countP _ : Int)
    rw [huse, hperm.countP_eq]
    rfl

lemma Pooled.free (h : Pooled l w) (he : e ∈ l) : Pooled (l.erase e) (w.poolEdgeFinished e) := by
  have hpools : ∀ q, ((w.poolEdgeFinished e).pools q).delayed = (w.pools q).delayed ∧
      ((w.poolEdgeFinished e).pools q).depth = (w.pools q).depth ∧
      ((w.pools q).depth ≠ 0 → ((w.poolEdgeFinished e).pools q).currentUse =
        (w.pools q).currentUse - if (w.edges e).pool = q then 1 else 0) := by
    intro q
    rw [poolEdgeFinished]
    by_cases hq : q = (w.edges e).pool
    · subst hq
      rw [setPool_pools_self]
      exact ⟨rfl, rfl, fun hd => by simp [hd]⟩
    · rw [setPool_pools_ne _ _ hq]
      exact ⟨rfl, rfl, fun _ => by simp [Ne.symm hq]⟩
  refine ⟨h.once, fun f => ?_, (erase_sublist.subperm).trans h.running, fun f hf => ?_,
    fun q f hf => ?_, fun q => ?_, fun q hq => ?_, fun q hq => ?_⟩
  · have hcount := h.conserved f
    rw [← (hpools _).1] at hcount
    exact hcount
  · exact (h.placed f hf).imp_right (Or.imp_right fun ⟨hw, ho, hfound, hfl⟩ =>
      ⟨hw, ho, hfound, fun hmem => hfl (mem_of_mem_erase hmem)⟩)
  · rw [(hpools q).1] at hf
    rw [(hpools q).2.1]
    exact h.delayed q f hf
  · rw [(hpools q).1]
    exact h.sorted q
  · rw [(hpools q).2.1] at hq
    have huse := h.use q hq
    rw [((perm_cons_erase he).append_left w.ready).countP_eq, countP_append,
      countP_cons] at huse
    rw [(hpools q).2.2 hq, huse]
    change _ = ((w.ready ++ l.erase e).countP (fun f => (w.edges f).pool = q) : Int)
    rw [countP_append]
    by_cases hpe : (w.edges e).pool = q
    · simp only [hpe, decide_true, if_true]
      omega
    · simp only [hpe, decide_false, Bool.false_eq_true, if_false]
      omega
  · rw [(hpools q).2.1] at hq ⊢
    have hbound := h.bound q hq
    rw [(hpools q).2.2 hq]
    split <;> omega

lemma World.finishEvents_rest (r : EdgeResult) {ev : Event} (h : ev ∈ w.finishEvents e r) :
    ev.put = none ∧ ev.taken = none := by
  rcases mem_append.mp h with h | h
  · split at h
    · rw [mem_singleton.mp h]
      exact ⟨rfl, rfl⟩
    · cases h
  · rw [mem_singleton.mp h]
    exact ⟨rfl, rfl⟩

lemma Pooled.logFinished (h : Pooled l w) (e : EdgeId) (r : EdgeResult) :
    Pooled l (w.logFinished e r) := by
  rw [logFinished_eq]
  exact h.rests (.of_trace rfl rfl rfl (fun _ _ => rfl) rfl
    (fun ev hev => (finishEvents_rest r hev).1) fun ev hev => (finishEvents_rest r hev).2)

lemma Pooled.giveBack (h : Pooled l w) (he : e ∈ l) (r : EdgeResult) :
    Pooled (l.erase e) (w.giveBack e r) := by
  have hwant : w.want e ≠ some .nothing := by
    rcases h.wanted_of_running he with hw | hw <;> rw [hw] <;> simp
  rw [World.giveBack, World.freePool, if_neg hwant]
  exact ((h.free he).retrieve _).logFinished e r

lemma Pooled.giveBack_nothing (h : Pooled l w) (he : w.want e = some .nothing) (r : EdgeResult) :
    Pooled l (w.giveBack e r) := by
  rw [World.giveBack, World.freePool, if_pos he]
  exact (h.retrieve _).logFinished e r

lemma Pooled.leave (h : Pooled l w) (he : e ∈ w.puts → e ∈ w.founds ∧ e ∉ l) :
    Pooled l (w.leave e) := by
  have hedge : ∀ f, ((w.leave e).edges f).pool = (w.edges f).pool ∧
      ((w.leave e).edges f).criticalPathWeight = (w.edges f).criticalPathWeight ∧
      ((w.edges f).outputsReady = true → ((w.leave e).edges f).outputsReady = true) := by
    intro f
    rw [leave_eq]
    by_cases hf : f = e
    · subst hf
      simp
    · simp [hf]
  have hwant : ∀ f, f ≠ e → (w.leave e).want f = w.want f := fun f hf => by
    rw [leave_eq]
    exact Function.update_of_ne hf ..
  have hself : (w.leave e).want e = none ∧ ((w.leave e).edges e).outputsReady = true := by
    rw [leave_eq]
    exact ⟨Function.update_self .., by simp⟩
  have hputs : (w.leave e).puts = w.puts := by
    rw [leave_eq]
    rfl
  have hfounds : (w.leave e).founds = w.founds := by
    rw [leave_eq]
    rfl
  have hqueue : (w.leave e).ready = w.ready ∧ (w.leave e).pools = w.pools ∧
      (w.leave e).trace = w.trace := by
    rw [leave_eq]
    exact ⟨rfl, rfl, rfl⟩
  have hless := edgePriorityLess_congr fun f => (hedge f).2.1
  refine ⟨?_, fun f => ?_, ?_, fun f hf => ?_, fun q f hf => ?_, fun q => ?_, fun q hq => ?_,
    fun q hq => ?_⟩
  · rw [hputs]
    exact h.once
  · rw [hqueue.1, hqueue.2.1, hputs, hfounds, (hedge f).1]
    exact h.conserved f
  · rw [hfounds]
    exact h.running
  · rw [hputs] at hf
    rw [World.Placed, hfounds, hqueue.2.2]
    by_cases hfe : f = e
    · subst hfe
      exact .inr (.inr ⟨hself.1, hself.2, he hf⟩)
    · rw [hwant f hfe]
      exact (h.placed f hf).imp_right (Or.imp_right fun ⟨hw, ho, hfl⟩ =>
        ⟨hw, (hedge f).2.2 ho, hfl⟩)
  · rw [hqueue.2.1] at hf ⊢
    rw [(hedge f).1]
    exact h.delayed q f hf
  · rw [hqueue.2.1, hless]
    exact h.sorted q
  · rw [hqueue.2.1] at hq ⊢
    simp only [hqueue.1, fun f => (hedge f).1]
    exact h.use q hq
  · rw [hqueue.2.1] at hq ⊢
    exact h.bound q hq

/-- Inside a call no edge that is wanted finishes, none is delayed without being scheduled, and no
weight changes. -/
def Licence.inner : Licence :=
  ⟨fun _ _ _ => False, fun _ _ => True, fun _ _ => False, fun _ => False⟩

lemma Quiet.rests (h : Quiet none w w') (hcalm : Calm w'.trace) : Rests w w' := by
  obtain ⟨t, ht, hquiet, haccounts⟩ := h.events
  refine ⟨h.ready, h.pools, puts_of_trace ht fun ev hev => (hquiet ev hev).put,
    founds_of_trace ht fun ev hev => (hquiet ev hev).taken, h.grows.pool, h.weight,
    fun f hf => ?_, fun f _ => by rw [h.want], fun f _ hw ho => ?_⟩
  · rw [ht]
    exact mem_append_left _ hf
  · rcases haccounts.ready f (by simp) with heq | ⟨s, hs, hready⟩
    · rwa [heq]
    · -- a finished edge is not scanned again
      have hsince : s.Since w := hquiet _ hs
      have hmem : .scanned f s ∈ w'.trace := by
        rw [ht]
        exact mem_append_right _ hs
      exact absurd ((congrFun hsince.want f).trans hw) (hcalm.kept f s hmem (hready.trans ho))

/-- A change to the plan that is about an edge that was never put into the queue. -/
lemma Rests.of_want (he : e ∉ w.puts) (hready : w'.ready = w.ready) (hpools : w'.pools = w.pools)
    (hedges : w'.edges = w.edges) (hwant : ∀ f, f ≠ e → w'.want f = w.want f)
    (htrace : w'.trace = w.trace ++ t) (hput : ∀ ev ∈ t, ev.put = none)
    (htaken : ∀ ev ∈ t, ev.taken = none) : Rests w w' :=
  .of_trace hready hpools hedges (fun f hf => hwant f fun hfe => he (hfe ▸ hf)) htrace hput htaken

lemma Step.pooled (h : Step .inner w w') (hcalm : Calm w'.trace) (hp : Pooled l w) :
    Pooled l w' := by
  cases h with
  | quiet _ hq => exact hp.rests (hq.rests hcalm)
  | weigh _ _ hw => exact absurd hw id
  | wantNothing e he hready =>
    have hnew : e ∉ w.puts := by
      intro hput
      rcases hp.placed e hput with h | ⟨h, -⟩ | ⟨-, h, -⟩
      · rw [he] at h
        cases h
      · rw [he] at h
        cases h
      · rw [hready] at h
        cases h
    exact hp.rests (.of_want hnew rfl rfl rfl (fun f hf => Function.update_of_ne hf ..)
      (append_nil _).symm (by simp) (by simp))
  | wantStart e he _ =>
    refine hp.rests (.of_want (e := e) (t := [.wanted e]) (hp.not_mem_puts_of_nothing he) ?_ ?_ ?_
      (fun f hf => ?_) ?_ (by simp [Event.put]) (by simp [Event.taken])) <;> rw [wantStart_eq]
    exact Function.update_of_ne hf ..
  | schedule e he _ =>
    refine hp.schedule fun hput => ?_
    -- only an edge that was delayed is still in `WantToStart`
    rcases hp.placed e hput with h | ⟨-, hd⟩ | ⟨h, -⟩
    · rw [he] at h
      cases h
    · have htrace : (w.schedule e).trace = w.trace ++ [.scheduled e] := by
        rw [World.schedule, World.enqueue_sameButQueue]
        rfl
      rw [htrace] at hcalm
      exact hcalm.once e (mem_append_left _ hd) (by simp)
    · rw [he] at h
      cases h
  | delay _ _ _ _ hd => exact absurd hd id
  | retrieve p => exact hp.retrieve p
  | fail e _ hf =>
    exact hp.giveBack_nothing (hf.resolve_right id) _
  | succeed e _ hf =>
    have hnothing := hf.resolve_right id
    have hp' := hp.giveBack_nothing hnothing .succeeded
    refine hp'.leave fun hput => absurd hput (hp'.not_mem_puts_of_nothing ?_)
    rw [giveBack_want]
    exact hnothing
  | unwant e _ =>
    have htrace : (w.unwant e).trace = w.trace ++ [.unwanted e w.snapshot] := by
      rw [unwant_eq]
    rw [htrace] at hcalm
    obtain ⟨hstart, hd⟩ := hcalm.unwanted e w.snapshot (by simp)
    have hnew : e ∉ w.puts := by
      intro hput
      have hw : w.want e = some .toStart := hstart
      rcases hp.placed e hput with h | ⟨-, h⟩ | ⟨h, -⟩
      · rw [hw] at h
        cases h
      · exact hd (mem_append_left _ h)
      · rw [hw] at h
        cases h
    refine hp.rests (.of_want (e := e) (t := [.unwanted e w.snapshot]) hnew ?_ ?_ ?_
      (fun f hf => ?_) ?_ (by simp [Event.put]) (by simp [Event.taken])) <;> rw [unwant_eq]
    exact Function.update_of_ne hf ..

lemma Steps.pooled (h : Steps .inner w w') (hcalm : Calm w'.trace) (hp : Pooled l w) :
    Pooled l w' := by
  induction h with
  | refl => exact hp
  | tail hs hstep ih => exact hstep.pooled hcalm (ih (hcalm.of_grows hstep.grows))

/-- Nothing was ever put into the queue. -/
structure World.Unqueued (w : World) : Prop where
  ready : w.ready = []
  delayed : ∀ p, (w.pools p).delayed = []
  unused : ∀ p, (w.pools p).currentUse = 0
  puts : w.puts = []
  founds : w.founds = []

lemma World.Unplanned.unqueued (h : w.Unplanned) : w.Unqueued :=
  ⟨h.ready, h.delayed, h.unused, by rw [puts, h.trace]; rfl, by rw [founds, h.trace]; rfl⟩

lemma World.Unqueued.waits (h : w.Unqueued) (hw : Waits w w') : w'.Unqueued where
  ready := hw.ready.trans h.ready
  delayed := by rw [hw.pools]; exact h.delayed
  unused := by rw [hw.pools]; exact h.unused
  puts := hw.puts.trans h.puts
  founds := hw.founds.trans h.founds

lemma World.Unqueued.pooled (h : w.Unqueued) : Pooled [] w where
  once := by rw [h.puts]; exact nodup_nil
  conserved e := by simp [h.ready, h.founds, h.delayed, h.puts]
  running := nil_subperm
  placed e he := by rw [h.puts] at he; cases he
  delayed p e he := by rw [h.delayed] at he; cases he
  sorted p := by rw [h.delayed]; exact List.Pairwise.nil
  use p _ := by rw [h.unused, h.ready]; rfl
  bound p _ := by rw [h.unused]; exact Int.natCast_nonneg _

lemma World.Sorted.nodup (h : w.Sorted) (p : PoolId) : (w.pools p).delayed.Nodup := by
  refine (h p).imp fun {a b} hab heq => ?_
  rw [heq, edgePriorityLess_irrefl] at hab
  cases hab

lemma World.puts_startEvents (es : List EdgeId) :
    (es.map w.startEvent).filterMap Event.put = es ∧
      (es.map w.startEvent).filterMap Event.taken = [] := by
  have hput : ∀ e, (w.startEvent e).put = some e ∧ (w.startEvent e).taken = none := fun e => by
    rw [startEvent]
    split <;> exact ⟨rfl, rfl⟩
  constructor
  · rw [filterMap_map]
    exact (filterMap_congr fun e _ => (hput e).1).trans filterMap_some
  · rw [filterMap_eq_nil_iff]
    intro ev hev
    obtain ⟨e, -, rfl⟩ := mem_map.mp hev
    exact (hput e).2

lemma Starts.pooled {es : List EdgeId} {ps ps' : List PoolId} (h : Starts es w w' ps ps')
    (hes : es.Nodup) (hw : w.Unqueued) : Pooled [] w' := by
  have hedges : w'.edges = w.edges := by
    rw [h.same]
  have hputs : w'.puts = es.filter w.startable := by
    rw [puts, h.trace, filterMap_append, (w.puts_startEvents _).1]
    rw [show w.trace.filterMap Event.put = [] from hw.puts, nil_append]
  have hfounds : w'.founds = [] := by
    rw [founds, h.trace, filterMap_append, (w.puts_startEvents _).2, append_nil]
    exact hw.founds
  have hready : w'.ready = es.filter fun e => w.startable e && !w.delays e := by
    rw [h.ready, hw.ready, nil_append]
  have hdelayed : ∀ p f, f ∈ (w'.pools p).delayed ↔
      f ∈ es ∧ w.startable f ∧ w.delays f ∧ (w.edges f).pool = p := fun p f => by
    rw [h.delayed, hw.delayed]
    simp
  have hsorted : w'.Sorted := h.sorted fun p => by
    rw [hw.delayed]
    exact List.Pairwise.nil
  have hdepth : ∀ p, (w'.pools p).depth = (w.pools p).depth := fun p => by rw [h.pools]
  have huse : ∀ p, (w'.pools p).currentUse = 0 := fun p => by
    rw [h.pools]
    exact hw.unused p
  refine ⟨?_, fun e => ?_, ?_, fun e he => ?_, fun p e he => ?_, hsorted, fun p hp => ?_,
    fun p _ => ?_⟩
  · rw [hputs]
    exact hes.filter _
  · rw [hfounds, count_nil, Nat.add_zero, hready, hputs, (hes.filter _).count,
      (hsorted.nodup _).count, (hes.filter _).count]
    simp only [mem_filter, hdelayed, hedges]
    cases w.startable e <;> cases w.delays e <;> simp
  · rw [hfounds]
  · rw [hputs, mem_filter] at he
    obtain ⟨hmem, hstart⟩ := he
    have hwant : w.want e = some .toStart := by
      simp only [startable, Bool.and_eq_true, decide_eq_true_eq] at hstart
      exact hstart.1
    rw [World.Placed, h.want]
    by_cases hd : w.delays e = true
    · refine .inr (.inl ⟨?_, ?_⟩)
      · rw [if_neg (by simp [hd]), hwant]
      · rw [h.trace]
        refine mem_append_right _ (mem_map.mpr ⟨e, mem_filter.mpr ⟨hmem, hstart⟩, ?_⟩)
        rw [startEvent, if_pos hd]
    · exact .inl (if_pos ⟨hmem, hstart, by simpa using hd⟩)
  · obtain ⟨-, -, hd, hpool⟩ := (hdelayed p e).mp he
    rw [hedges, hdepth]
    refine ⟨hpool, ?_⟩
    rw [delays, hpool] at hd
    simpa [Pool.shouldDelayEdge] using hd
  · rw [huse, append_nil, countP_eq_zero.mpr]
    · rfl
    · intro e he hpool
      rw [hready, mem_filter] at he
      rw [hedges] at hpool
      simp only [decide_eq_true_eq] at hpool
      simp only [Bool.and_eq_true, Bool.not_eq_true', delays, Pool.shouldDelayEdge, hpool,
        decide_eq_false_iff_not, not_not] at he
      rw [hdepth, he.2.2] at hp
      exact hp rfl
  · rw [huse]
    exact Int.natCast_nonneg _

lemma Pooled.retrieveAll (h : Pooled l w) (ps : List PoolId) : Pooled l (w.retrieveAll ps) := by
  induction ps generalizing w with
  | nil => exact h
  | cons p ps ih => exact ih (h.retrieve p)

lemma prepareQueue_pooled (env : Env) (fuel : Nat) (hw : w.Unqueued) :
    Pooled [] (finalState (prepareQueue env fuel w)) := by
  have hwaits : Waits w (finalState (computeCriticalPath fuel w)) := computeCriticalPath_waits fuel
  rw [prepareQueue, bind_apply]
  cases hc : computeCriticalPath fuel w with
  | error f t =>
    rw [hc] at hwaits
    exact (hw.waits hwaits).pooled
  | ok u t =>
    rw [hc] at hwaits
    have ht : t.Unqueued := hw.waits hwaits
    obtain ⟨es, ps, w', hperm, -, hstarts, ps', -, hok⟩ := scheduleInitialEdges_apply env ht.ready
    dsimp only
    rw [hok]
    have hes : es.Nodup := hperm.nodup_iff.mpr wantKeys_nodup
    have hpooled := hstarts.pooled hes ⟨ht.ready, ht.delayed, ht.unused, ht.puts, ht.founds⟩
    refine Pooled.retrieveAll (hpooled.rests ?_) ps'
    exact .of_trace rfl rfl rfl (fun _ _ => rfl) (append_nil _).symm (by simp) (by simp)

/-! ### All calls -/

/-- The queue and the pools between the calls of a builder. -/
def Run.Pools (r : Run) (w : World) : Prop :=
  Pooled r.running w ∧ (r.prepared = false → w.Unqueued ∧ r.running = [])

variable {r : Run} {env : Env}

lemma World.Asks.rests {t : World} (h : w.Asks e t) : Rests w t := by
  cases h with
  | free _ => exact .of_trace rfl rfl rfl (fun _ _ => rfl) (append_nil _).symm (by simp) (by simp)
  | slot js _ =>
    have hedge : ∀ f, ((w.acquire e js).edges f).pool = (w.edges f).pool ∧
        ((w.acquire e js).edges f).criticalPathWeight = (w.edges f).criticalPathWeight ∧
        ((w.acquire e js).edges f).outputsReady = (w.edges f).outputsReady := by
      intro f
      obtain ⟨slot, hslot⟩ := w.acquire_edges e js f
      rw [hslot]
      exact ⟨rfl, rfl, rfl⟩
    exact
      { ready := rfl
        pools := rfl
        puts := puts_of_trace rfl (l := [.acquired _]) (by simp [Event.put])
        founds := founds_of_trace rfl (l := [.acquired _]) (by simp [Event.taken])
        pool := fun f => (hedge f).1
        weight := fun f => (hedge f).2.1
        told := fun f hf => mem_append_left _ hf
        want := fun f _ => rfl
        outputsReady := fun f _ _ ho => (hedge f).2.2.trans ho }

lemma Pooled.findWork (h : Pooled l w) : ∃ found w', Reninja.findWork w = .ok found w' ∧
    Pooled (l ++ found.toList) w' := by
  rcases findWork_cases w with ⟨-, hok⟩ | ⟨e, t, hp, hasks, hok⟩
  · exact ⟨none, w, hok, by simpa using h⟩
  · have ht : Pooled l t := h.rests hasks.rests
    rcases hok with hok | hok
    · exact ⟨none, t, hok, by simpa using ht⟩
    · refine ⟨some e, t.take e, hok, ht.take ?_⟩
      rw [hasks.rests.ready]
      exact w.peek_mem hp

lemma Pooled.edgeFinished (h : Pooled l w) (he : e ∈ l) {fuel : Nat} {result : EdgeResult}
    (hfuel : fuel ≠ 0)
    (hcalm : Calm (finalState (Reninja.edgeFinished env fuel e result w)).trace) :
    Pooled (l.erase e) (finalState (Reninja.edgeFinished env fuel e result w)) := by
  obtain ⟨fuel, rfl⟩ := Nat.exists_eq_succ_of_ne_zero hfuel
  have hwant : w.want e ≠ none := by
    rcases h.wanted_of_running he with hw | hw <;> rw [hw] <;> simp
  have hback := h.giveBack he result
  cases result with
  | failed =>
    rw [edgeFinished_failed env fuel hwant]
    exact hback
  | succeeded =>
    have hleave : Pooled (l.erase e) ((w.giveBack e .succeeded).leave e) := by
      refine hback.leave fun hput => ?_
      have hfound : e ∈ w.founds := h.running.subset he
      rw [show (w.giveBack e .succeeded).founds = w.founds from ?_]
      · exact ⟨hfound, fun hmem => (List.Nodup.mem_erase_iff h.running_nodup).mp hmem |>.1 rfl⟩
      · rw [World.giveBack, World.logFinished_eq, w.freePool_sameButQueue e]
        exact founds_of_trace rfl fun ev hev => (finishEvents_rest _ hev).2
    rw [edgeFinished_succeeded env fuel hwant] at hcalm ⊢
    have hmoves : Moves (Steps .inner) ((w.giveBack e .succeeded).leave e)
        (forAll (w.edges e).outputs (nodeFinished env fuel (Reninja.edgeFinished env fuel))) :=
      Moves.forAll fun o _ _ => nodeFinished_steps
        (fun _ _ hf => edgeFinished_steps env fuel .succeeded (.inl hf)) o
    exact Steps.pooled hmoves hcalm hleave

lemma Run.Pools.call {c : Call} {fuel : Nat} (h : r.Pools w) (hallows : r.Allows w c)
    (hc : c ≠ .findWork) (hfuel : ∀ e result, c = .edgeFinished e result → fuel ≠ 0)
    (hcalm : Calm (finalState (c.run env fuel w)).trace) :
    (r.after c none).Pools (finalState (c.run env fuel w)) := by
  cases c with
  | addTarget n =>
    rw [Call.run, finalState_drop] at hcalm ⊢
    have hwaits : Waits w (finalState (builderAddTarget env fuel n w)) :=
      builderAddTarget_waits env fuel n
    obtain ⟨hunqueued, hrunning⟩ := h.2 hallows
    refine ⟨?_, fun _ => ⟨hunqueued.waits hwaits, hrunning⟩⟩
    change Pooled r.running _
    rw [hrunning]
    exact (hunqueued.waits hwaits).pooled
  | prepareQueue =>
    rw [Call.run, finalState_drop] at hcalm ⊢
    obtain ⟨hunqueued, hrunning⟩ := h.2 hallows
    refine ⟨?_, fun hprepared => by cases hprepared⟩
    change Pooled r.running _
    rw [hrunning]
    exact prepareQueue_pooled env fuel hunqueued
  | findWork => exact absurd rfl hc
  | edgeFinished e result =>
    rw [Call.run, finalState_drop] at hcalm ⊢
    refine ⟨h.1.edgeFinished hallows.1 (hfuel e result rfl) hcalm, fun hprepared => ?_⟩
    have hmem := hallows.1
    rw [(h.2 hprepared).2] at hmem
    cases hmem
  | cleanNode e n =>
    rw [Call.run, finalState_drop] at hcalm ⊢
    have hmoves : Moves (Steps .inner) w (Reninja.cleanNode env fuel n) :=
      cleanNode_steps (fun _ _ => trivial) env fuel n
    refine ⟨Steps.pooled hmoves hcalm h.1, fun hprepared => ?_⟩
    have hmem := hallows.1
    rw [(h.2 hprepared).2] at hmem
    cases hmem
  | loadDyndeps n =>
    rw [Call.run, finalState_drop] at hcalm ⊢
    have hmoves :
        Moves (Steps .inner) w (builderLoadDyndeps env fuel (Reninja.edgeFinished env fuel) n) :=
      builderLoadDyndeps_steps (fun t e he => edgeFinished_steps env fuel .succeeded (.inl he)) n
    refine ⟨Steps.pooled hmoves hcalm h.1, fun hprepared => ?_⟩
    have htrue : r.prepared = true := hallows.1
    exact absurd (htrue.symm.trans hprepared) (by simp)

lemma Run.after_eq {c : Call} (hc : c ≠ .findWork) (found : Option EdgeId) :
    r.after c found = r.after c none := by
  cases c with
  | findWork => exact absurd rfl hc
  | _ => rfl

lemma Reached.pools (h : Reached env r w) (hcalm : Calm w.trace) : r.Pools w := by
  induction h with
  | start w hw => exact ⟨hw.unqueued.pooled, fun _ => ⟨hw.unqueued, rfl⟩⟩
  | call r w w' c fuel found _ _ hallows hok ih =>
    have hfinal : finalState (c.run env fuel w) = w' := by rw [hok]; rfl
    obtain ⟨t, ht⟩ := (c.run_frames (w := w) env fuel).trace
    rw [hfinal] at ht
    rw [ht] at hcalm
    have h := ih hcalm.of_append
    rw [← ht, ← hfinal] at hcalm
    by_cases hc : c = .findWork
    · subst hc
      obtain ⟨found', w'', hok', hpooled⟩ := h.1.findWork
      rw [Call.run, hok'] at hok
      cases hok
      refine ⟨hpooled, fun hprepared => ?_⟩
      have htrue : r.prepared = true := hallows.1
      exact absurd (htrue.symm.trans hprepared) (by simp)
    · rw [Run.after_eq hc, ← hfinal]
      refine h.call hallows hc (fun e result he hzero => ?_) hcalm
      subst he hzero
      exact absurd (drop_ok hok).choose_spec throw_ok
  | elsewhere r w w' _ hw ih =>
    obtain ⟨start, reaped, hw⟩ := hw
    rw [hw] at hcalm ⊢
    have h := ih hcalm.of_append
    have hrest : ∀ ev ∈ reaped.map (fun p => Event.reaped p.1 p.2),
        ev.put = none ∧ ev.taken = none := by
      intro ev hev
      obtain ⟨p, -, rfl⟩ := mem_map.mp hev
      exact ⟨rfl, rfl⟩
    rw [← hw]
    have htrace : w'.trace = w.trace ++ reaped.map fun p => .reaped p.1 p.2 := by
      rw [hw]
    have hputs := puts_of_trace htrace fun ev hev => (hrest ev hev).1
    have hfounds := founds_of_trace htrace fun ev hev => (hrest ev hev).2
    rw [hw] at hputs hfounds ⊢
    refine ⟨h.1.rests ⟨rfl, rfl, hputs, hfounds, fun _ => rfl, fun _ => rfl,
      fun _ he => mem_append_left _ he, fun _ _ => rfl, fun _ _ _ ho => ho⟩, fun hprepared => ?_⟩
    obtain ⟨hq, hrunning⟩ := h.2 hprepared
    exact ⟨⟨hq.ready, hq.delayed, hq.unused, hputs.trans hq.puts, hfounds.trans hq.founds⟩,
      hrunning⟩

lemma Seen.pooled (h : Seen env r w) (hcalm : Calm w.trace) : Pooled r.running w := by
  cases h with
  | between _ _ h => exact (h.pools hcalm).1
  | failed r w₀ _ c fuel f h _ hallows hfail hf =>
    have hfinal : finalState (c.run env fuel w₀) = w := by rw [hfail]; rfl
    obtain ⟨t, ht⟩ := (c.run_frames (w := w₀) env fuel).trace
    rw [hfinal] at ht
    have hpools := h.pools (ht ▸ hcalm).of_append
    rw [← hfinal] at hcalm ⊢
    have hc : c ≠ .findWork := by
      rintro rfl
      obtain ⟨_, _, hok, -⟩ := hpools.1.findWork
      rw [Call.run, hok] at hfail
      cases hfail
    refine (hpools.call hallows hc (fun e result he hzero => hf ?_) hcalm).1
    subst he hzero
    cases hfail
    rfl

/-- How often an edge has come into the ready queue: it is there, or it was taken from there. -/
def World.handed (w : World) (e : EdgeId) : Nat := w.ready.count e + w.founds.count e

/-- **Pools keep count.** In every state that a builder of an acyclic graph comes to in a calm run,
the use of a pool with a limit is the number of its edges in the ready queue and among those that
run, and is within the limit; the delayed edges are sorted from the highest to the lowest priority
without duplicates; and an edge of the pool that was put into the list is still there or has come
into the ready queue once. -/
theorem Seen.pools_conserved (h : Seen env r w) (hcalm : Calm w.trace) (p : PoolId)
    (hp : (w.pools p).depth ≠ 0) :
    ((w.ready ++ r.running).Nodup ∧
      (w.pools p).currentUse = (w.ready ++ r.running).countP (fun e => (w.edges e).pool = p) ∧
      0 ≤ (w.pools p).currentUse ∧ (w.pools p).currentUse ≤ (w.pools p).depth) ∧
    ((w.pools p).delayed.Pairwise (fun a b => w.edgePriorityLess b a = true) ∧
      (w.pools p).delayed.Nodup) ∧
    ∀ e ∈ w.puts, (w.edges e).pool = p →
      (e ∈ (w.pools p).delayed ∧ w.handed e = 0) ∨ (e ∉ (w.pools p).delayed ∧ w.handed e = 1) := by
  have hpooled := h.pooled hcalm
  have huse := hpooled.use p hp
  refine ⟨⟨?_, huse, by omega, hpooled.bound p hp⟩, ⟨hpooled.sorted p, hpooled.sorted.nodup p⟩,
    fun e he hpool => ?_⟩
  · refine nodup_iff_count_le_one.mpr fun e => ?_
    have hone := nodup_iff_count_le_one.mp hpooled.once e
    have hsum := hpooled.conserved e
    have hrun := hpooled.running.count_le e
    rw [count_append]
    omega
  · have hone := nodup_iff_count_le_one.mp hpooled.once e
    have hput := count_pos_iff.mpr he
    have hsum := hpooled.conserved e
    rw [hpool] at hsum
    rw [handed]
    by_cases hd : e ∈ (w.pools p).delayed
    · have := count_pos_iff.mpr hd
      exact .inl ⟨hd, by omega⟩
    · rw [count_eq_zero.mpr hd] at hsum
      exact .inr ⟨hd, by omega⟩

/-- A command in a pool of depth one, a command that writes a dyndep file, and a command that is
told there to depend on the first one. -/
def dyndepOnPooled : World where
  edges := fun e =>
    if e = 0 then { outputs := [[101]], pool := 1 }
    else if e = 1 then { outputs := [[100]] }
    else if e = 2 then { outputs := [[103]], implicitInputs := [[100]], dyndep := some [100] }
    else {}
  nodes := fun n =>
    if n = [101] then { inEdge := some 0 }
    else if n = [100] then { inEdge := some 1, outEdges := [2], dyndepPending := true }
    else if n = [103] then { inEdge := some 2 }
    else {}
  pools := fun p => if p = 1 then { depth := 1 } else {}
  edgeCount := 3

/-- The dyndep file gives the third command the output of the first one. -/
def dependsOnPooled : Env where
  parseDyndep := fun _ => .ok [([103], { implicitInputs := [[101]] })]

/-- Both commands are started, and the one that writes the dyndep file ends first. -/
def startBoth : List Act :=
  [.call (.addTarget [101]), .call (.addTarget [103]), .call .prepareQueue, .call .findWork,
    .call .findWork]

lemma dyndepOnPooled_bounded : dyndepOnPooled.Bounded 3 := by
  intro e he
  have h0 : ¬ e = 0 := by rintro rfl; omega
  have h1 : ¬ e = 1 := by rintro rfl; omega
  have h2 : ¬ e = 2 := by rintro rfl; omega
  rw [show dyndepOnPooled.edges e = {} by
    simp only [dyndepOnPooled, if_neg h0, if_neg h1, if_neg h2]]
  exact ⟨rfl, rfl⟩

lemma dyndepOnPooled_unplanned : dyndepOnPooled.Unplanned := by
  refine ⟨rfl, rfl, fun p => ?_, fun p => ?_, rfl, rfl, rfl⟩
  · unfold dyndepOnPooled
    dsimp only
    split <;> rfl
  · unfold dyndepOnPooled
    dsimp only
    split <;> rfl

/-- While the first command runs, its pool is in use and nothing waits for it. -/
theorem pools_conserved_dyndepOnPooled : ∃ r w, Seen dependsOnPooled r w ∧ Calm w.trace ∧
    (w.pools 1).depth ≠ 0 ∧ r.running = [1, 0] ∧ (w.pools 1).currentUse = 1 ∧
    (w.pools 1).currentUse = (w.ready ++ r.running).countP (fun e => (w.edges e).pool = 1) := by
  obtain ⟨r, w, h, hcalm, hdepth, hrunning, huse⟩ : ∃ r w, Reached dependsOnPooled r w ∧
      Calm w.trace ∧ (w.pools 1).depth ≠ 0 ∧ r.running = [1, 0] ∧ (w.pools 1).currentUse = 1 :=
    exists_of_runActs 9 startBoth dyndepOnPooled_unplanned dyndepOnPooled_bounded
      (by decide)
  exact ⟨r, w, .between r w h, hcalm, hdepth, hrunning, huse,
    (Seen.pools_conserved (.between r w h) hcalm 1 hdepth).1.2.1⟩

/-- The command that writes the dyndep file ends first. The walk meets the first command, which
runs and is still in `WantToStart`, and its pool delays it again; when it has ended it comes into
the ready queue a second time. -/
theorem pools_conserved_fails : ∃ r w, Reached dependsOnPooled r w ∧ (w.pools 1).depth = 1 ∧
    0 ∈ w.puts ∧ (w.edges 0).pool = 1 ∧ w.handed 0 = 2 :=
  exists_of_runActs 9 (startBoth ++ [.write [100] [], .call (.edgeFinished 1 .succeeded),
    .call (.edgeFinished 0 .succeeded)]) dyndepOnPooled_unplanned dyndepOnPooled_bounded
    (by decide +kernel)

end Pooled

end Reninja
