import Mathlib.Data.Finset.Card
import Mathlib.Order.CompletePartialOrder
import Mathlib.Tactic.Linarith

/-!
# Lanes of a profile

`Flamegraph.Write` shows each target on a thread of its own as long as it takes. It goes through
the targets by descending end time and gives each the first thread on which the targets so far all
start after it. Times are counted in nanoseconds.
-/

namespace Reninja.Flamegraph

open List

/-- The `Start` and `End` of a `Target`. -/
structure Target where
  start : Int
  stop : Int
  deriving DecidableEq

/-- `ThreadTracker`: for each worker the start of the last target it was given. -/
structure ThreadTracker where
  workers : List Int := []

/-- `alloc`: the worker for a target, and whether it is a new one. -/
def ThreadTracker.alloc (t : ThreadTracker) (target : Target) : Nat × Bool × ThreadTracker :=
  match t.workers.findIdx? fun w => ¬ w < target.stop with
  | some worker => (worker, false, ⟨t.workers.set worker target.start⟩)
  | none => (t.workers.length, true, ⟨t.workers ++ [target.start]⟩)

/-- The targets that were given a worker. -/
structure Profile where
  tracker : ThreadTracker := {}
  lanes : List (Target × Nat) := []

def Profile.write (x : Profile) (target : Target) : Profile :=
  let (worker, _, tracker) := x.tracker.alloc target
  ⟨tracker, x.lanes ++ [(target, worker)]⟩

def threads (sorted : List Target) : List (Target × Nat) :=
  (sorted.foldl Profile.write {}).lanes.map fun (target, worker) => (target, worker + 2)

/-! ### The workers -/

def Target.Inside (p : ℚ) (target : Target) : Prop := (target.start : ℚ) < p ∧ p < target.stop

instance (p : ℚ) (target : Target) : Decidable (target.Inside p) := instDecidableAnd

lemma alloc_cases (t : ThreadTracker) (target : Target) :
    (∃ worker w, t.workers[worker]? = some w ∧ target.stop ≤ w ∧
      t.alloc target = (worker, false, ⟨t.workers.set worker target.start⟩)) ∨
    (∀ w ∈ t.workers, w < target.stop) ∧
      t.alloc target = (t.workers.length, true, ⟨t.workers ++ [target.start]⟩) := by
  rw [ThreadTracker.alloc]
  cases hfind : t.workers.findIdx? fun w => ¬ w < target.stop with
  | some worker =>
    obtain ⟨hlt, hw, -⟩ := findIdx?_eq_some_iff_getElem.mp hfind
    exact .inl ⟨worker, _, getElem?_eq_getElem hlt, by simpa using hw, rfl⟩
  | none =>
    refine .inr ⟨fun w hw => ?_, rfl⟩
    simpa using findIdx?_eq_none_iff.mp hfind w hw

/-- Each worker has the targets of its lane one after the other, the earliest of them last, and
there are no more workers than targets at some moment. -/
structure Profile.Fits (x : Profile) : Prop where
  start_le : ∀ e ∈ x.lanes, ∃ w, x.tracker.workers[e.2]? = some w ∧ w ≤ e.1.start
  last : ∀ worker w, x.tracker.workers[worker]? = some w → ∃ t, (t, worker) ∈ x.lanes ∧ t.start = w
  apart : x.lanes.Pairwise fun e f => e.2 = f.2 → f.1.stop ≤ e.1.start
  full : ∃ p, x.tracker.workers.length ≤ x.lanes.countP fun e => e.1.Inside p

namespace Profile.Fits

variable {x : Profile} {target : Target}

lemma reuse (h : x.Fits) (hvalid : target.start < target.stop) {worker : Nat} {w : Int}
    (hworker : x.tracker.workers[worker]? = some w) (hw : target.stop ≤ w) :
    Fits ⟨⟨x.tracker.workers.set worker target.start⟩, x.lanes ++ [(target, worker)]⟩ := by
  have hlt : worker < x.tracker.workers.length := (List.getElem?_eq_some_iff.mp hworker).1
  have hlane : ∀ e ∈ x.lanes, e.2 = worker → w ≤ e.1.start := by
    rintro e he rfl
    obtain ⟨w', hw', hle⟩ := h.start_le e he
    rw [hworker] at hw'
    exact Option.some.inj hw' ▸ hle
  refine ⟨fun e he => ?_, fun i v hv => ?_, ?_, ?_⟩
  · rcases mem_append.mp he with he | he
    · by_cases hsame : e.2 = worker
      · have hle := hlane e he hsame
        refine ⟨target.start, ?_, by omega⟩
        rw [hsame, getElem?_set_self hlt]
      · rw [getElem?_set_ne (Ne.symm hsame)]
        exact h.start_le e he
    · rw [mem_singleton.mp he]
      exact ⟨target.start, getElem?_set_self hlt, le_rfl⟩
  · by_cases hsame : worker = i
    · subst hsame
      rw [getElem?_set_self hlt] at hv
      exact ⟨target, by simp, Option.some.inj hv⟩
    · rw [getElem?_set_ne hsame] at hv
      obtain ⟨t, ht, hstart⟩ := h.last i v hv
      exact ⟨t, mem_append_left _ ht, hstart⟩
  · refine pairwise_append.mpr ⟨h.apart, pairwise_singleton .., fun e he f hf hsame => ?_⟩
    rw [mem_singleton.mp hf] at hsame ⊢
    exact hw.trans (hlane e he hsame)
  · obtain ⟨p, hp⟩ := h.full
    refine ⟨p, ?_⟩
    rw [length_set, countP_append]
    omega

lemma inside_of_lt {t : Target} {time : Int} (hstart : t.start < time) (hstop : time ≤ t.stop) :
    t.Inside (time - 1 / 2 : ℚ) := by
  have hstart' : (t.start : ℚ) + 1 ≤ time := by exact_mod_cast hstart
  have hstop' : (time : ℚ) ≤ t.stop := by exact_mod_cast hstop
  constructor <;> linarith

lemma length_le_countP (h : x.Fits) (hstop : ∀ e ∈ x.lanes, target.stop ≤ e.1.stop)
    (hbusy : ∀ w ∈ x.tracker.workers, w < target.stop) :
    x.tracker.workers.length ≤
      x.lanes.countP fun e => e.1.Inside (target.stop - 1 / 2 : ℚ) := by
  have hsub : range x.tracker.workers.length ⊆
      (x.lanes.filter fun e => e.1.Inside (target.stop - 1 / 2 : ℚ)).map Prod.snd := by
    intro worker hworker
    have hlt := mem_range.mp hworker
    obtain ⟨t, ht, hstart⟩ := h.last worker _ (getElem?_eq_getElem hlt)
    refine mem_map.mpr ⟨(t, worker), mem_filter.mpr ⟨ht, decide_eq_true ?_⟩, rfl⟩
    exact inside_of_lt (hstart ▸ hbusy _ (getElem_mem hlt)) (hstop _ ht)
  have hlength := (subperm_of_subset nodup_range hsub).length_le
  simpa [countP_eq_length_filter] using hlength

lemma extend (h : x.Fits) (hvalid : target.start < target.stop)
    (hstop : ∀ e ∈ x.lanes, target.stop ≤ e.1.stop)
    (hbusy : ∀ w ∈ x.tracker.workers, w < target.stop) :
    Fits ⟨⟨x.tracker.workers ++ [target.start]⟩,
      x.lanes ++ [(target, x.tracker.workers.length)]⟩ := by
  have hlt : ∀ e ∈ x.lanes, e.2 < x.tracker.workers.length := by
    intro e he
    obtain ⟨w, hw, -⟩ := h.start_le e he
    exact (List.getElem?_eq_some_iff.mp hw).1
  refine ⟨fun e he => ?_, fun i v hv => ?_, ?_, ?_⟩
  · rcases mem_append.mp he with he | he
    · rw [getElem?_append_left (hlt e he)]
      exact h.start_le e he
    · rw [mem_singleton.mp he]
      exact ⟨target.start, by simp, le_rfl⟩
  · by_cases hi : i < x.tracker.workers.length
    · rw [getElem?_append_left hi] at hv
      obtain ⟨t, ht, hstart⟩ := h.last i v hv
      exact ⟨t, mem_append_left _ ht, hstart⟩
    · obtain rfl : i = x.tracker.workers.length := by
        have hbound := (List.getElem?_eq_some_iff.mp hv).1
        rw [length_append, length_singleton] at hbound
        omega
      exact ⟨target, by simp, by simpa using hv⟩
  · refine pairwise_append.mpr ⟨h.apart, pairwise_singleton .., fun e he f hf hsame => ?_⟩
    rw [mem_singleton.mp hf] at hsame
    exact absurd hsame (hlt e he).ne
  · refine ⟨target.stop - 1 / 2, ?_⟩
    have hcount := h.length_le_countP hstop hbusy
    have hnew : target.Inside (target.stop - 1 / 2 : ℚ) := inside_of_lt hvalid le_rfl
    rw [length_append, countP_append, countP_singleton,
      if_pos (decide_eq_true hnew)]
    exact Nat.add_le_add_right hcount 1

lemma write (h : x.Fits) (hvalid : target.start < target.stop)
    (hstop : ∀ e ∈ x.lanes, target.stop ≤ e.1.stop) : (x.write target).Fits := by
  rw [Profile.write]
  rcases alloc_cases x.tracker target with ⟨worker, w, hworker, hw, halloc⟩ | ⟨hbusy, halloc⟩
  · rw [halloc]
    exact h.reuse hvalid hworker hw
  · rw [halloc]
    exact h.extend hvalid hstop hbusy

/-- The targets come by descending end time, so those that have a worker end last. -/
lemma run (h : x.Fits) {sorted : List Target} (hvalid : ∀ t ∈ sorted, t.start < t.stop)
    (hstop : ∀ e ∈ x.lanes, ∀ t ∈ sorted, t.stop ≤ e.1.stop)
    (hsorted : sorted.Pairwise fun a b => b.stop ≤ a.stop) :
    (sorted.foldl Profile.write x).Fits := by
  induction sorted generalizing x with
  | nil => exact h
  | cons target sorted ih =>
    obtain ⟨hfirst, hrest⟩ := pairwise_cons.mp hsorted
    refine ih (h.write (hvalid target (by simp)) fun e he => hstop e he target (by simp))
      (fun t ht => hvalid t (mem_cons_of_mem _ ht)) (fun e he t ht => ?_) hrest
    rcases mem_append.mp he with he | he
    · exact hstop e he t (mem_cons_of_mem _ ht)
    · rw [mem_singleton.mp he]
      exact hfirst t ht

lemma countP_le (h : x.Fits) (p : ℚ) :
    (x.lanes.countP fun e => e.1.Inside p) ≤ x.tracker.workers.length := by
  have hnodup : ((x.lanes.filter fun e => e.1.Inside p).map Prod.snd).Nodup := by
    refine pairwise_map.mpr ((h.apart.sublist filter_sublist).imp_of_mem ?_)
    intro e f he hf hapart hsame
    have he' : e.1.Inside p := by simpa using (mem_filter.mp he).2
    have hf' : f.1.Inside p := by simpa using (mem_filter.mp hf).2
    have hle : (f.1.stop : ℚ) ≤ e.1.start := by exact_mod_cast hapart hsame
    exact absurd (he'.1.trans hf'.2) hle.not_gt
  have hsub : (x.lanes.filter fun e => e.1.Inside p).map Prod.snd ⊆
      range x.tracker.workers.length := by
    intro worker hworker
    obtain ⟨e, he, rfl⟩ := mem_map.mp hworker
    obtain ⟨w, hw, -⟩ := h.start_le e (mem_filter.mp he).1
    exact List.mem_range.mpr (List.getElem?_eq_some_iff.mp hw).1
  have hlength := (subperm_of_subset hnodup hsub).length_le
  simpa [countP_eq_length_filter] using hlength

lemma toFinset_lanes (h : x.Fits) :
    (x.lanes.map Prod.snd).toFinset = Finset.range x.tracker.workers.length := by
  ext worker
  rw [mem_toFinset, Finset.mem_range]
  constructor
  · intro hworker
    obtain ⟨e, he, rfl⟩ := mem_map.mp hworker
    obtain ⟨w, hw, -⟩ := h.start_le e he
    exact (List.getElem?_eq_some_iff.mp hw).1
  · intro hlt
    obtain ⟨t, ht, -⟩ := h.last worker _ (getElem?_eq_getElem hlt)
    exact mem_map.mpr ⟨_, ht, rfl⟩

lemma card_threads (h : x.Fits) : ((x.lanes.map fun (target, worker) => (target, worker + 2)).map
    Prod.snd).toFinset.card = x.tracker.workers.length := by
  have himage : ((x.lanes.map fun (target, worker) => (target, worker + 2)).map
      Prod.snd).toFinset = (x.lanes.map Prod.snd).toFinset.image (· + 2) := by
    ext tid
    simp only [map_map, mem_toFinset, Finset.mem_image, mem_map,
      Function.comp_apply]
    constructor
    · rintro ⟨e, he, rfl⟩
      exact ⟨e.2, ⟨e, he, rfl⟩, rfl⟩
    · rintro ⟨_, ⟨e, he, rfl⟩, rfl⟩
      exact ⟨e, he, rfl⟩
  rw [himage, Finset.card_image_of_injective _ (add_left_injective 2), h.toFinset_lanes,
    Finset.card_range]

end Profile.Fits

lemma foldl_lanes (x : Profile) (sorted : List Target) :
    (sorted.foldl Profile.write x).lanes.map Prod.fst = x.lanes.map Prod.fst ++ sorted := by
  induction sorted generalizing x with
  | nil => simp
  | cons target sorted ih =>
    rw [foldl_cons, ih]
    simp [Profile.write]

/-- The number of targets that are being built at some moment. -/
def overlap (targets : List Target) (p : ℚ) : Nat := targets.countP fun t => t.Inside p

/-- However the sort orders targets that end at the same time, targets on one thread do not
overlap, and there are as many threads as targets at the busiest moment. -/
theorem threads_disjoint_optimal (targets sorted : List Target)
    (hvalid : ∀ t ∈ targets, t.start < t.stop) (hperm : sorted.Perm targets)
    (hsorted : sorted.Pairwise fun a b => b.stop ≤ a.stop) :
    (threads sorted).map Prod.fst = sorted ∧
      (threads sorted).Pairwise (fun e f => e.2 = f.2 → Disjoint
        (Set.Ioo (e.1.start : ℚ) e.1.stop) (Set.Ioo (f.1.start : ℚ) f.1.stop)) ∧
      IsGreatest (Set.range (overlap targets)) ((threads sorted).map Prod.snd).toFinset.card := by
  have hnew : Profile.Fits {} :=
    ⟨by simp, fun worker w hw => by simp at hw, .nil, 0, le_rfl⟩
  have h := hnew.run (fun t ht => hvalid t (hperm.subset ht)) (by simp) hsorted
  have hfst := foldl_lanes {} sorted
  rw [threads]
  obtain ⟨x, hx⟩ : ∃ x, x = sorted.foldl Profile.write {} := ⟨_, rfl⟩
  rw [← hx] at h hfst ⊢
  have hcount : ∀ p, overlap targets p = x.lanes.countP fun e => e.1.Inside p := by
    intro p
    rw [overlap, ← hperm.countP_eq, ← nil_append sorted]
    exact (congrArg _ hfst.symm).trans countP_map
  refine ⟨?_, ?_, ?_⟩
  · simpa [Function.comp_def] using hfst
  · refine pairwise_map.mpr (h.apart.imp fun {e f} hapart hsame => ?_)
    have hle : (f.1.stop : ℚ) ≤ e.1.start := by exact_mod_cast hapart (by simpa using hsame)
    refine Set.disjoint_left.mpr fun p he hf => ?_
    exact absurd (he.1.trans hf.2) hle.not_gt
  · rw [h.card_threads]
    obtain ⟨p, hp⟩ := h.full
    refine ⟨⟨p, (hcount p).trans (le_antisymm (h.countP_le p) hp)⟩, ?_⟩
    rintro _ ⟨q, rfl⟩
    exact (hcount q).trans_le (h.countP_le q)

/-- Three targets of which two end at the same time. -/
theorem threads_disjoint_optimal_three :
    threads [⟨3, 5⟩, ⟨1, 5⟩, ⟨0, 2⟩] = [(⟨3, 5⟩, 2), (⟨1, 5⟩, 3), (⟨0, 2⟩, 2)] ∧
      IsGreatest (Set.range (overlap [⟨0, 2⟩, ⟨1, 5⟩, ⟨3, 5⟩])) 2 := by
  have h := threads_disjoint_optimal [⟨0, 2⟩, ⟨1, 5⟩, ⟨3, 5⟩] [⟨3, 5⟩, ⟨1, 5⟩, ⟨0, 2⟩] (by decide)
    (by decide) (by decide)
  exact ⟨by decide, h.2.2⟩

end Reninja.Flamegraph
