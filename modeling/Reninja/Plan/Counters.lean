import Mathlib.Data.Set.Card
import Reninja.Plan.Queue

/-!
# The counters of the plan

`wantedEdges` and `commandEdges` are kept by hand in five functions. Here they are compared with
what they stand for: the entries of the want map, and the commands that became wanted and were
un-wanted again.
-/

namespace Reninja

open Program World List

def Event.commandWanted (phony : EdgeId → Bool) : Event → Option EdgeId
  | .wanted e => if phony e then none else some e
  | _ => none

/-- A command that `CleanNode` un-wants. -/
def Event.commandUnwanted (phony : EdgeId → Bool) : Event → Option EdgeId
  | .unwanted e _ => if phony e then none else some e
  | _ => none

namespace World

variable (w : World)

def phony (e : EdgeId) : Bool := (w.edges e).phony

def Wants (e : EdgeId) : Prop := w.want e ≠ none ∧ w.want e ≠ some .nothing

/-- The edges whose entry in the want map is not `WantNothing`. -/
def wantedSet : Set EdgeId := {e | w.Wants e}

/-- The commands that became wanted, once for each time. -/
def commandsWanted : List EdgeId := w.trace.filterMap (Event.commandWanted w.phony)

/-- The commands that `CleanNode` has un-wanted, once for each time. -/
def commandsUnwanted : List EdgeId := w.trace.filterMap (Event.commandUnwanted w.phony)

end World

/-- The counters are exact. -/
structure Counted (w : World) : Prop where
  finite : w.wantedSet.Finite
  wantedEdges : w.wantedEdges = w.wantedSet.ncard
  commandEdges : w.commandEdges = w.commandsWanted.length - w.commandsUnwanted.length

/-- The edge became wanted at least `k` times more often than it was un-wanted, and more often
still if it is a command that is wanted now. -/
def World.Owes (w : World) (k : Nat) (e : EdgeId) : Prop :=
  w.commandsUnwanted.count e + k ≤ w.commandsWanted.count e ∧
    (e ∈ w.wantedSet → w.phony e = false →
      w.commandsUnwanted.count e + k < w.commandsWanted.count e)

/-! ### How the lists grow -/

section Lists

variable {w w' : World} {e f : EdgeId} {l : List Event} {k : Nat}

lemma Grows.phony_eq (h : Grows w w') : w'.phony = w.phony := funext h.phony

lemma World.commandsWanted_append (hphony : w'.phony = w.phony) (ht : w'.trace = w.trace ++ l) :
    w'.commandsWanted = w.commandsWanted ++ l.filterMap (Event.commandWanted w.phony) := by
  rw [commandsWanted, hphony, ht, filterMap_append, commandsWanted]

lemma World.commandsUnwanted_append (hphony : w'.phony = w.phony) (ht : w'.trace = w.trace ++ l) :
    w'.commandsUnwanted = w.commandsUnwanted ++ l.filterMap (Event.commandUnwanted w.phony) := by
  rw [commandsUnwanted, hphony, ht, filterMap_append, commandsUnwanted]

def Event.Uncounted : Event → Prop
  | .wanted _ | .unwanted _ _ => False
  | _ => True

lemma Event.Quiet.uncounted {ev : Event} (h : ev.Quiet w) : ev.Uncounted := by
  cases ev <;> first | exact h.elim | trivial

/-- A change of which the counters know nothing. -/
structure Uncounting (w w' : World) : Prop where
  wanted : w'.commandsWanted = w.commandsWanted
  unwanted : w'.commandsUnwanted = w.commandsUnwanted
  phony : w'.phony = w.phony
  wantedEdges : w'.wantedEdges = w.wantedEdges
  commandEdges : w'.commandEdges = w.commandEdges

lemma Uncounting.trans {w'' : World} (h₁ : Uncounting w w') (h₂ : Uncounting w' w'') :
    Uncounting w w'' :=
  ⟨h₂.wanted.trans h₁.wanted, h₂.unwanted.trans h₁.unwanted, h₂.phony.trans h₁.phony,
    h₂.wantedEdges.trans h₁.wantedEdges, h₂.commandEdges.trans h₁.commandEdges⟩

lemma Uncounting.of_trace (hphony : w'.phony = w.phony) (ht : w'.trace = w.trace ++ l)
    (hl : ∀ ev ∈ l, ev.Uncounted) (hwanted : w'.wantedEdges = w.wantedEdges)
    (hcommand : w'.commandEdges = w.commandEdges) : Uncounting w w' := by
  have hnil : ∀ {g : Event → Option EdgeId}, (∀ ev, ev.Uncounted → g ev = none) →
      l.filterMap g = [] := fun hg => filterMap_eq_nil_iff.mpr fun ev hev => hg ev (hl ev hev)
  refine ⟨?_, ?_, hphony, hwanted, hcommand⟩
  · rw [commandsWanted_append hphony ht, hnil fun ev hev => ?_, append_nil]
    cases ev <;> first | rfl | exact hev.elim
  · rw [commandsUnwanted_append hphony ht, hnil fun ev hev => ?_, append_nil]
    cases ev <;> first | rfl | exact hev.elim

lemma Uncounting.log (ev : Event) (hev : ev.Uncounted) : Uncounting w (w.log ev) :=
  .of_trace rfl rfl (l := [ev]) (by simpa using hev) rfl rfl

lemma World.SameButQueue.uncounting (h : w.SameButQueue w') : Uncounting w w' := by
  rw [World.SameButQueue] at h
  rw [h]
  exact .of_trace rfl (append_nil _).symm (by simp) rfl rfl

lemma World.giveBack_uncounting (r : EdgeResult) : Uncounting w (w.giveBack e r) := by
  have hfree := (w.freePool_sameButQueue e).uncounting
  rw [giveBack, logFinished]
  split
  · exact (hfree.trans (.log (.released _) trivial)).trans (.log (.finished e r) trivial)
  · exact hfree.trans (.log (.finished e r) trivial)

lemma World.wantStart_lists : (w.wantStart e).phony = w.phony ∧
    (w.wantStart e).commandsWanted = w.commandsWanted ++ (if w.phony e then [] else [e]) ∧
    (w.wantStart e).commandsUnwanted = w.commandsUnwanted := by
  have hphony : (w.wantStart e).phony = w.phony := by rw [wantStart_eq]; rfl
  have ht : (w.wantStart e).trace = w.trace ++ [.wanted e] := by rw [wantStart_eq]
  rw [commandsWanted_append hphony ht, commandsUnwanted_append hphony ht]
  cases hp : w.phony e <;> simp [hphony, Event.commandWanted, Event.commandUnwanted, hp]

lemma World.unwant_lists : (w.unwant e).phony = w.phony ∧
    (w.unwant e).commandsWanted = w.commandsWanted ∧
    (w.unwant e).commandsUnwanted = w.commandsUnwanted ++ (if w.phony e then [] else [e]) := by
  have hphony : (w.unwant e).phony = w.phony := by rw [unwant_eq]; rfl
  have ht : (w.unwant e).trace = w.trace ++ [.unwanted e w.snapshot] := by rw [unwant_eq]
  rw [commandsWanted_append hphony ht, commandsUnwanted_append hphony ht]
  cases hp : w.phony e <;> simp [hphony, Event.commandWanted, Event.commandUnwanted, hp]

lemma World.leave_lists : (w.leave e).phony = w.phony ∧
    (w.leave e).commandsWanted = w.commandsWanted ∧
    (w.leave e).commandsUnwanted = w.commandsUnwanted := by
  have hphony : (w.leave e).phony = w.phony := by
    rw [leave_eq]
    exact funext (setEdge_forall (w := w) (P := fun a b => b.phony = a.phony)
      (g := fun x => { x with outputsReady := true }) (fun _ => rfl) rfl)
  have ht : (w.leave e).trace = w.trace ++ [] := by rw [leave_eq, append_nil]
  rw [commandsWanted_append hphony ht, commandsUnwanted_append hphony ht]
  simp [hphony]

lemma World.wantedSet_insert : (w.wantStart e).wantedSet = insert e w.wantedSet := by
  ext f
  by_cases hf : f = e
  · subst hf
    simp [wantedSet, World.Wants, wantStart_eq]
  · simp [wantedSet, World.Wants, wantStart_eq, hf]

lemma World.wantedSet_drop {v : Option Want} (hv : v = none ∨ v = some .nothing)
    (h : w'.want = Function.update w.want e v) : w'.wantedSet = w.wantedSet \ {e} := by
  ext f
  by_cases hf : f = e
  · subst hf
    rcases hv with rfl | rfl <;> simp [wantedSet, World.Wants, h]
  · simp [wantedSet, World.Wants, h, hf]

lemma World.wantedSet_unwant : (w.unwant e).wantedSet = w.wantedSet \ {e} :=
  wantedSet_drop (.inr rfl) (by rw [unwant_eq])

lemma World.wantedSet_leave : (w.leave e).wantedSet = w.wantedSet \ {e} :=
  wantedSet_drop (.inl rfl) (by rw [leave_eq])

lemma World.wantedSet_congr (h : w'.want = w.want) : w'.wantedSet = w.wantedSet := by
  simp only [wantedSet, World.Wants, h]

/-- An entry that changes between two values that are both wanted, or both not. -/
lemma World.wantedSet_update {v : Option Want} (h : w'.want = Function.update w.want e v)
    (hv : (v ≠ none ∧ v ≠ some .nothing) ↔ w.Wants e) : w'.wantedSet = w.wantedSet := by
  ext f
  by_cases hf : f = e
  · subst hf
    simpa [wantedSet, World.Wants, h] using hv
  · simp [wantedSet, World.Wants, h, hf]

lemma Counted.of_same (h : Counted w) (hu : Uncounting w w') (hset : w'.wantedSet = w.wantedSet) :
    Counted w' := by
  refine ⟨?_, ?_, ?_⟩
  · rw [hset]
    exact h.finite
  · rw [hu.wantedEdges, hset, h.wantedEdges]
  · rw [hu.commandEdges, hu.wanted, hu.unwanted, h.commandEdges]

lemma World.Owes.of_same (h : w.Owes k f) (hu : Uncounting w w')
    (hset : w'.wantedSet = w.wantedSet) : w'.Owes k f := by
  rw [World.Owes, hu.wanted, hu.unwanted, hset, hu.phony]
  exact h

lemma Counted.wantStart (h : Counted w) (he : e ∉ w.wantedSet) : Counted (w.wantStart e) := by
  obtain ⟨-, hW, hU⟩ := w.wantStart_lists (e := e)
  have hset := w.wantedSet_insert (e := e)
  refine ⟨?_, ?_, ?_⟩
  · rw [hset]
    exact h.finite.insert e
  · rw [hset, Set.ncard_insert_of_notMem he h.finite, wantStart_eq]
    simp [h.wantedEdges]
  · rw [hW, hU, wantStart_eq]
    cases hp : (w.edges e).phony <;> simp [phony, hp, h.commandEdges]
    omega

lemma World.Owes.wantStart (h : w.Owes k f) (he : e ∉ w.wantedSet) : (w.wantStart e).Owes k f := by
  obtain ⟨hphony, hW, hU⟩ := w.wantStart_lists (e := e)
  rw [World.Owes, hW, hU, hphony, w.wantedSet_insert, count_append]
  obtain ⟨hle, hlt⟩ := h
  refine ⟨hle.trans (Nat.le_add_right _ _), fun hf hp => ?_⟩
  rcases hf with rfl | hf
  · simp only [hp, Bool.false_eq_true, if_false, count_singleton_self]
    exact Nat.lt_succ_of_le hle
  · exact (hlt hf hp).trans_le (Nat.le_add_right _ _)

lemma Counted.unwant (h : Counted w) (he : e ∈ w.wantedSet) : Counted (w.unwant e) := by
  obtain ⟨-, hW, hU⟩ := w.unwant_lists (e := e)
  have hset := w.wantedSet_unwant (e := e)
  have hpos : 0 < w.wantedSet.ncard := (Set.ncard_pos h.finite).mpr ⟨e, he⟩
  refine ⟨?_, ?_, ?_⟩
  · rw [hset]
    exact h.finite.subset Set.sdiff_subset
  · rw [hset, Set.ncard_sdiff_singleton_of_mem he, unwant_eq]
    simp only [h.wantedEdges]
    omega
  · rw [hW, hU, unwant_eq]
    cases hp : (w.edges e).phony <;> simp [phony, hp, h.commandEdges]
    omega

lemma World.Owes.unwant (h : w.Owes k f) (he : e ∈ w.wantedSet) : (w.unwant e).Owes k f := by
  obtain ⟨hphony, hW, hU⟩ := w.unwant_lists (e := e)
  rw [World.Owes, hW, hU, hphony, w.wantedSet_unwant, count_append]
  obtain ⟨hle, hlt⟩ := h
  by_cases hfe : f = e
  · subst hfe
    refine ⟨?_, fun hf => absurd rfl hf.2⟩
    cases hp : w.phony f with
    | true => simpa using hle
    | false =>
      have := hlt he hp
      simp only [Bool.false_eq_true, if_false, count_singleton_self]
      omega
  · have hzero : (if w.phony e then [] else [e]).count f = 0 := by
      cases w.phony e <;> simp [Ne.symm hfe]
    rw [hzero, Nat.add_zero]
    exact ⟨hle, fun hf => hlt hf.1⟩

lemma Counted.leave (h : Counted w) (he : w.want e ≠ none) : Counted (w.leave e) := by
  obtain ⟨-, hW, hU⟩ := w.leave_lists (e := e)
  have hset := w.wantedSet_leave (e := e)
  refine ⟨?_, ?_, ?_⟩
  · rw [hset]
    exact h.finite.subset Set.sdiff_subset
  · rw [hset, leave_eq]
    simp only
    by_cases hn : w.want e = some .nothing
    · rw [if_pos hn, Set.sdiff_singleton_eq_self fun hw => hw.2 hn, h.wantedEdges]
    · have hmem : e ∈ w.wantedSet := ⟨he, hn⟩
      have hpos : 0 < w.wantedSet.ncard := (Set.ncard_pos h.finite).mpr ⟨e, hmem⟩
      rw [if_neg hn, Set.ncard_sdiff_singleton_of_mem hmem, h.wantedEdges]
      omega
  · rw [hW, hU, leave_eq, h.commandEdges]

lemma World.Owes.leave (h : w.Owes k f) : (w.leave e).Owes k f := by
  obtain ⟨hphony, hW, hU⟩ := w.leave_lists (e := e)
  rw [World.Owes, hW, hU, hphony, w.wantedSet_leave]
  exact ⟨h.1, fun hf => h.2 hf.1⟩

lemma Step.counting_cases {L : Licence} (h : Step L w w') :
    (Uncounting w w' ∧ w'.wantedSet = w.wantedSet) ∨
    (∃ e, e ∉ w.wantedSet ∧ w' = w.wantStart e) ∨
    (∃ e r, w.want e ≠ none ∧ w' = (w.giveBack e r).leave e) ∨
    (∃ e, L.unwant w e ∧ w' = w.unwant e) := by
  have hphony := h.grows.phony_eq
  cases h with
  | quiet _ hq =>
    obtain ⟨l, ht, hl, -⟩ := hq.events
    exact .inl ⟨.of_trace hphony ht (fun ev hev => (hl ev hev).uncounted) hq.wantedEdges
      hq.commandEdges, wantedSet_congr hq.want⟩
  | weigh e c _ =>
    exact .inl ⟨.of_trace hphony (append_nil _).symm (by simp) rfl rfl, rfl⟩
  | wantNothing e he _ =>
    refine .inl ⟨.of_trace hphony (append_nil _).symm (by simp) rfl rfl,
      wantedSet_update rfl ?_⟩
    simp [World.Wants, he]
  | wantStart e he _ => exact .inr (.inl ⟨e, fun hw => hw.2 he, rfl⟩)
  | schedule e he _ =>
    have hq := enqueue_sameButQueue ((w.log (.scheduled e)).setWant e (some .toFinish)) e
    have hlog : Uncounting w ((w.log (.scheduled e)).setWant e (some .toFinish)) :=
      .of_trace rfl rfl (l := [.scheduled e]) (by simp [Event.Uncounted]) rfl rfl
    refine .inl ⟨hlog.trans hq.uncounting, wantedSet_update (e := e) (v := some .toFinish) ?_ ?_⟩
    · rw [World.schedule, hq]
      rfl
    · simp [World.Wants, he]
  | delay e _ _ _ _ =>
    have hq := delayEdge_sameButQueue (w.log (.delayed e)) e
    refine .inl ⟨(Uncounting.log (.delayed e) trivial).trans hq.uncounting, wantedSet_congr ?_⟩
    rw [hq]
    rfl
  | retrieve p =>
    exact .inl ⟨(w.retrieveReadyEdges_sameButQueue p).uncounting, rfl⟩
  | fail e _ _ =>
    exact .inl ⟨w.giveBack_uncounting .failed, wantedSet_congr (w.giveBack_want e _)⟩
  | succeed e he _ => exact .inr (.inr (.inl ⟨e, _, he, rfl⟩))
  | unwant e he => exact .inr (.inr (.inr ⟨e, he, rfl⟩))

def Licence.counting : Licence := { Licence.any with unwant := fun w e => e ∈ w.wantedSet }

lemma Step.counted (h : Step .counting w w') (hw : Counted w) : Counted w' := by
  rcases h.counting_cases with ⟨hu, hset⟩ | ⟨e, he, rfl⟩ | ⟨e, r, he, rfl⟩ | ⟨e, he, rfl⟩
  · exact hw.of_same hu hset
  · exact hw.wantStart he
  · have hback := hw.of_same (w.giveBack_uncounting r) (wantedSet_congr (w.giveBack_want e r))
    exact hback.leave (by rwa [giveBack_want])
  · exact hw.unwant he

lemma Step.owes (h : Step .counting w w') (hw : w.Owes k f) : w'.Owes k f := by
  rcases h.counting_cases with ⟨hu, hset⟩ | ⟨e, he, rfl⟩ | ⟨e, r, he, rfl⟩ | ⟨e, he, rfl⟩
  · exact hw.of_same hu hset
  · exact hw.wantStart he
  · exact (hw.of_same (w.giveBack_uncounting r) (wantedSet_congr (w.giveBack_want e r))).leave
  · exact hw.unwant he

lemma Steps.counted (h : Steps .counting w w') (hw : Counted w) : Counted w' := by
  induction h with
  | refl => exact hw
  | tail _ hstep ih => exact hstep.counted ih

lemma Steps.owes (h : Steps .counting w w') (hw : w.Owes k f) : w'.Owes k f := by
  induction h with
  | refl => exact hw
  | tail _ hstep ih => exact hstep.owes ih

end Lists

/-! ### Cleaning an acyclic graph -/

/-- `CleanNode` un-wants edges that are wanted, and none but those in `S`. -/
structure Cleans (S : EdgeId → Prop) (w w' : World) : Prop where
  steps : Steps .counting w w'
  outputs : ∀ e, (w'.edges e).outputs = (w.edges e).outputs
  outEdges : ∀ n, (w'.nodes n).outEdges = (w.nodes n).outEdges
  want : ∀ f, ¬ S f → w'.want f = w.want f
  wanted : w'.commandsWanted = w.commandsWanted
  unwanted : ∀ f, ¬ S f → w'.commandsUnwanted.count f = w.commandsUnwanted.count f

section Cleans

variable {S T : EdgeId → Prop} {w w' : World} {e : EdgeId} {n : Path} {env : Env}

instance : Std.Refl (Cleans S) :=
  ⟨fun _ => ⟨.refl, fun _ => rfl, fun _ => rfl, fun _ _ => rfl, rfl, fun _ _ => rfl⟩⟩

instance : IsTrans World (Cleans S) where
  trans _ _ _ h₁ h₂ := ⟨h₁.steps.trans h₂.steps, fun e => (h₂.outputs e).trans (h₁.outputs e),
    fun n => (h₂.outEdges n).trans (h₁.outEdges n), fun f hf => (h₂.want f hf).trans (h₁.want f hf),
    h₂.wanted.trans h₁.wanted, fun f hf => (h₂.unwanted f hf).trans (h₁.unwanted f hf)⟩

lemma Cleans.mono (h : Cleans S w w') (hST : ∀ f, S f → T f) : Cleans T w w' :=
  { h with
    want := fun f hf => h.want f fun hS => hf (hST f hS)
    unwanted := fun f hf => h.unwanted f fun hS => hf (hST f hS) }

lemma updNode_cleans {g : Node → Node} (hedge : (g (w.nodes n)).inEdge = (w.nodes n).inEdge)
    (hout : (g (w.nodes n)).outEdges = (w.nodes n).outEdges)
    (hpending : (g (w.nodes n)).dyndepPending = (w.nodes n).dyndepPending) :
    Moves (Cleans S) w (updNode n g) := by
  refine ⟨steps_of_quiet (updNode_quiet hedge (hout ▸ List.Subset.refl _) fun h => hpending ▸ h),
    fun _ => rfl, ?_, fun _ _ => rfl, rfl, fun _ _ => rfl⟩
  exact setNode_forall (P := fun _ a b => b.outEdges = a.outEdges) (fun _ _ => rfl) hout

lemma unwant_cleans (he : e ∈ w.wantedSet) (hS : S e) : Cleans S w (w.unwant e) := by
  obtain ⟨-, hW, hU⟩ := w.unwant_lists (e := e)
  refine ⟨.single (.unwant w e he), fun _ => ?_, fun _ => ?_, fun f hf => ?_, hW, fun f hf => ?_⟩
  · rw [unwant_eq]
  · rw [unwant_eq]
  · have hfe : f ≠ e := fun h => hf (h ▸ hS)
    simp [unwant_eq, hfe]
  · have hfe : f ≠ e := fun h => hf (h ▸ hS)
    rw [hU, count_append]
    cases w.phony e <;> simp [Ne.symm hfe]

lemma recomputeOutputsDirty_cleans {newest : Option Path} :
    Moves (Cleans S) w (recomputeOutputsDirty env e newest) := by
  refine .get_bind ?_
  generalize (w.edges e).outputs = os
  generalize w.evaluateCommand e true = command
  induction os generalizing w with
  | nil => exact .pure _
  | cons o os ih =>
    refine .bind (.get_bind ?_) fun _ _ _ => .ite (fun _ => .pure _) fun _ => ih
    cases newest with
    | none => exact .pure _
    | some i =>
      exact .ite (fun _ => .bind (updNode_cleans rfl rfl rfl) fun _ _ _ => .pure _)
        fun _ => .pure _

def World.Below (w : World) (n : Path) (f : EdgeId) : Prop :=
  ∃ e ∈ (w.nodes n).outEdges, Relation.ReflTransGen w.Feeds e f

/-- The links that cleaning follows are the same. -/
def World.SameLinks (w w' : World) : Prop :=
  (∀ e, (w'.edges e).outputs = (w.edges e).outputs) ∧
    ∀ n, (w'.nodes n).outEdges = (w.nodes n).outEdges

lemma World.SameLinks.cleans {t t' : World} (h : w.SameLinks t) (hc : Cleans S t t') :
    w.SameLinks t' :=
  ⟨fun e => (hc.outputs e).trans (h.1 e), fun n => (hc.outEdges n).trans (h.2 n)⟩

/-- One out edge: its outputs lead to other edges only, so that it is still wanted when they have
been cleaned. -/
lemma cleanEdge_cleans {clean : Path → M Unit} {t : World} (hacyclic : w.Acyclic)
    (hlinks : w.SameLinks t)
    (hclean : ∀ o t, w.SameLinks t → Moves (Cleans (w.Below o)) t (clean o)) :
    Moves (Cleans (Relation.ReflTransGen w.Feeds e)) t (cleanEdge env clean e) := by
  have hbelow : ∀ o ∈ (t.edges e).outputs, ∀ f, w.Below o f → Relation.TransGen w.Feeds e f :=
    fun o ho f ⟨g, hg, hgf⟩ => .head' ⟨o, by rwa [← hlinks.1], hg⟩ hgf
  refine .get_bind ?_
  split
  · exact .pure _
  · exact .pure _
  · rename_i hnothing hwant
    refine .ite (fun _ => .pure _) fun _ => .ite (fun _ => ?_) fun _ => .pure _
    refine .bind recomputeOutputsDirty_cleans fun _ t₁ ht₁ => .ite (fun _ => .pure _)
      fun _ => ?_
    have hdirty : Cleans (fun _ => False) t t₁ := recomputeOutputsDirty_cleans.of_ok ht₁
    have houtputs : Moves (Cleans (Relation.TransGen w.Feeds e)) t₁
        (forEach (t.edges e).outputs clean) :=
      Moves.forEach_of (fun _ _ h hc => h.cleans hc)
        (fun o ho t' h => Cleans.mono (hclean o t' h) (hbelow o ho)) (hlinks.cleans hdirty)
    refine .bind (Cleans.mono houtputs fun f hf => hf.to_reflTransGen) fun _ t₂ ht₂ => ?_
    have hwant₂ : t₂.want e = t.want e :=
      ((houtputs.of_ok ht₂).want e (hacyclic e)).trans (hdirty.want e (fun h => h))
    exact unwant_cleans (w := t₂) ⟨by simp [hwant₂, hwant], by simpa [hwant₂, hwant] using hnothing⟩
      .refl

lemma cleanNode_cleans {t : World} (hacyclic : w.Acyclic) (fuel : Nat) (n : Path)
    (hlinks : w.SameLinks t) : Moves (Cleans (w.Below n)) t (cleanNode env fuel n) := by
  induction fuel generalizing t n with
  | zero => exact .throw _
  | succ fuel ih =>
    refine .bind (updNode_cleans rfl rfl rfl) fun _ t₁ ht₁ => ?_
    have hnode : Cleans (fun _ => False) t t₁ := (updNode_cleans rfl rfl rfl).of_ok ht₁
    have hlinks₁ := hlinks.cleans hnode
    refine .bind (getNode_moves n) fun m t₂ hm => ?_
    obtain ⟨rfl, rfl⟩ := getNode_ok.mp hm
    refine .forEach_of (fun _ _ h hc => h.cleans hc) (fun e he t' h => ?_) hlinks₁
    refine Cleans.mono (cleanEdge_cleans hacyclic h fun o t'' h' => ih o h') fun f hf => ?_
    exact ⟨e, by rwa [← hlinks₁.2], hf⟩

end Cleans

section Runs

variable {env : Env} {r : Run} {w w' : World} {e f : EdgeId}

/-- A command that has run keeps the count of commands above zero: it was wanted once more than
it was un-wanted, and stays so when it has left the plan. -/
def Run.Anchored (r : Run) (w : World) : Prop :=
  (∃ e, w.phony e = false ∧ w.Owes 1 e) ∨
    match r.finishing with
    | none => w.commandsUnwanted = []
    | some e => w.phony e = false ∧ w.commandsUnwanted.count e < w.commandsWanted.count e

def Run.Listed (r : Run) (w : World) : Prop :=
  ∀ e, w.Queued e ∨ e ∈ r.running → w.phony e = false → e ∈ w.commandsWanted

/-- What is kept from call to call. -/
structure Run.Counts (r : Run) (w : World) : Prop where
  counted : Counted w
  owes : ∀ e, w.Owes 0 e
  listed : r.Listed w
  anchored : r.Anchored w

lemma Counted.unplanned (h : w.Unplanned) : Counted w := by
  have hset : w.wantedSet = ∅ := by simp [wantedSet, World.Wants, h.want]
  exact ⟨by simp [hset], by simp [hset, h.wantedEdges],
    by simp [commandsWanted, commandsUnwanted, h.trace, h.commandEdges]⟩

lemma Run.Counts.unplanned (h : w.Unplanned) : Run.Counts {} w := by
  refine ⟨.unplanned h, fun e => ?_, fun e he => ?_, .inr ?_⟩
  · simp [World.Owes, commandsWanted, commandsUnwanted, wantedSet, World.Wants,
      h.trace, h.want]
  · simp [World.Queued, h.ready, h.delayed] at he
  · simp [commandsUnwanted, h.trace]

lemma Step.wanted_prefix {L : Licence} (h : Step L w w') :
    w.commandsWanted <+: w'.commandsWanted := by
  rcases h.counting_cases with ⟨hu, -⟩ | ⟨e, -, rfl⟩ | ⟨e, r, -, rfl⟩ | ⟨e, -, rfl⟩
  · rw [hu.wanted]
  · rw [w.wantStart_lists.2.1]
    exact prefix_append _ _
  · rw [leave_lists.2.1, (w.giveBack_uncounting r).wanted]
  · rw [w.unwant_lists.2.1]

lemma Step.listed (h : Step .counting w w') (ho : ∀ e, w.Owes 0 e) (hl : r.Listed w) :
    r.Listed w' := by
  intro e he hp
  rw [h.grows.phony_eq] at hp
  refine h.wanted_prefix.subset ?_
  rcases he with he | he
  · rcases h.queued he with he | he
    · exact hl e (.inl he) hp
    · have hlt := (ho e).2 ⟨by simp [he], by simp [he]⟩ hp
      exact count_pos_iff.mp (Nat.lt_of_le_of_lt (Nat.zero_le _) hlt)
  · exact hl e (.inr he) hp

lemma Steps.listed (h : Steps .counting w w') (ho : ∀ e, w.Owes 0 e) (hl : r.Listed w) :
    r.Listed w' := by
  induction h with
  | refl => exact hl
  | tail hs hstep ih => exact hstep.listed (fun e => Steps.owes hs (ho e)) ih

/-! ### Calls that clean nothing -/

def Licence.planning : Licence := { Licence.any with unwant := fun _ _ => False }

/-- What steps without un-wanting do to the lists. -/
structure Wanting (w w' : World) : Prop where
  steps : Steps .counting w w'
  phony : w'.phony = w.phony
  unwanted : w'.commandsUnwanted = w.commandsUnwanted
  wanted : w.commandsWanted <+: w'.commandsWanted

instance : Std.Refl Wanting := ⟨fun _ => ⟨.refl, rfl, rfl, prefix_refl _⟩⟩

instance : IsTrans World Wanting where
  trans _ _ _ h₁ h₂ := ⟨h₁.steps.trans h₂.steps, h₂.phony.trans h₁.phony,
    h₂.unwanted.trans h₁.unwanted, h₁.wanted.trans h₂.wanted⟩

lemma Step.wanting (h : Step .planning w w') : Wanting w w' := by
  have hstep : Step .counting w w' :=
    h.mono (fun _ _ _ _ => trivial) (fun _ _ hf => False.elim hf) (fun _ _ _ => trivial)
      fun _ _ => trivial
  refine ⟨.single hstep, h.grows.phony_eq, ?_, h.wanted_prefix⟩
  rcases h.counting_cases with ⟨hu, -⟩ | ⟨e, -, rfl⟩ | ⟨e, r, -, rfl⟩ | ⟨e, he, -⟩
  · exact hu.unwanted
  · exact w.wantStart_lists.2.2
  · exact leave_lists.2.2.trans (w.giveBack_uncounting r).unwanted
  · exact False.elim he

lemma Steps.wanting (h : Steps .planning w w') : Wanting w w' := h.keep Step.wanting

/-- What the states in which a call fails have, too. -/
structure Settled (w : World) : Prop where
  counted : Counted w
  owes : ∀ e, w.Owes 0 e
  anchored : w.commandsUnwanted = [] ∨
    ∃ e, w.phony e = false ∧ w.commandsUnwanted.count e < w.commandsWanted.count e

lemma World.Owes.count_lt (h : w.Owes 1 e) :
    w.commandsUnwanted.count e < w.commandsWanted.count e := h.1

lemma Run.Counts.settled (h : r.Counts w) : Settled w := by
  refine ⟨h.counted, h.owes, ?_⟩
  rcases h.anchored with ⟨e, hp, ho⟩ | h
  · exact .inr ⟨e, hp, ho.count_lt⟩
  · cases hf : r.finishing with
    | none =>
      rw [hf] at h
      exact .inl h
    | some e =>
      rw [hf] at h
      exact .inr ⟨e, h⟩

lemma Settled.wanting (h : Settled w) (hw : Wanting w w') : Settled w' := by
  refine ⟨hw.steps.counted h.counted, fun e => hw.steps.owes (h.owes e), ?_⟩
  rw [hw.unwanted, hw.phony]
  exact h.anchored.imp id fun ⟨e, hp, hlt⟩ => ⟨e, hp, hlt.trans_le (hw.wanted.sublist.count_le e)⟩

lemma Run.Counts.wanting (h : r.Counts w) (hw : Wanting w w') : r.Counts w' := by
  refine ⟨hw.steps.counted h.counted, fun e => hw.steps.owes (h.owes e),
    hw.steps.listed h.owes h.listed, ?_⟩
  refine h.anchored.imp (fun ⟨e, hp, ho⟩ => ⟨e, by rwa [hw.phony], hw.steps.owes ho⟩) fun ha => ?_
  cases hf : r.finishing with
  | none =>
    rw [hf] at ha
    exact hw.unwanted.trans ha
  | some e =>
    rw [hf] at ha
    exact ⟨by rw [hw.phony]; exact ha.1,
      by rw [hw.unwanted]; exact ha.2.trans_le (hw.wanted.sublist.count_le e)⟩

lemma Run.Counts.edgeFinished {fuel : Nat} {result : EdgeResult} {b : Bool} (h : r.Counts w)
    (hf : r.finishing = none ∨ r.finishing = some e ∧ result = .succeeded)
    (hok : Reninja.edgeFinished env fuel e result w = .ok b w') :
    Run.Counts { r with running := r.running.erase e, finishing := none } w' := by
  have hw : Wanting w w' :=
    Steps.wanting ((edgeFinished_steps env fuel result (.inr trivial)).of_ok hok)
  have h' := h.wanting hw
  refine ⟨h'.counted, h'.owes, fun f hf => h'.listed f (hf.imp id mem_of_mem_erase), ?_⟩
  rcases h.anchored with ⟨f, hp, ho⟩ | ha
  · exact .inl ⟨f, by rwa [hw.phony], hw.steps.owes ho⟩
  · rcases hf with hf | ⟨hf, rfl⟩
    · rw [hf] at ha
      exact .inr (hw.unwanted.trans ha)
    · rw [hf] at ha
      have hleft := Steps.owes (k := 1) (f := e) (edgeFinished_left (L := .counting) hok) (by
        obtain ⟨-, hW, hU⟩ := (w.giveBack e .succeeded).leave_lists (e := e)
        have hback := w.giveBack_uncounting (e := e) .succeeded
        rw [World.Owes, hW, hU, hback.wanted, hback.unwanted, wantedSet_leave]
        exact ⟨ha.2, fun he => absurd rfl he.2⟩)
      exact .inl ⟨e, by rw [hw.phony]; exact ha.1, hleft⟩

lemma World.Asks.same (h : w.Asks e w') : Uncounting w w' ∧ w'.want = w.want ∧
    w'.ready = w.ready ∧ w'.pools = w.pools := by
  cases h with
  | free _ => exact ⟨.of_trace rfl (append_nil _).symm (by simp) rfl rfl, rfl, rfl, rfl⟩
  | slot js _ =>
    refine ⟨.of_trace (funext fun f => ?_) rfl (l := [.acquired (js.offers js.taken)])
      (by simp [Event.Uncounted]) rfl rfl, rfl, rfl, rfl⟩
    obtain ⟨slot, hslot⟩ := w.acquire_edges e js f
    rw [phony, hslot, phony]

lemma World.take_uncounting : Uncounting w (w.take e) :=
  .of_trace rfl rfl (l := [.found e]) (by simp [Event.Uncounted]) rfl rfl

lemma Run.Counts.uncounting (h : r.Counts w) (hu : Uncounting w w') (hwant : w'.want = w.want)
    (hq : ∀ f, w'.Queued f → w.Queued f) : r.Counts w' := by
  have hset := wantedSet_congr hwant
  refine ⟨h.counted.of_same hu hset, fun e => (h.owes e).of_same hu hset, fun e he => ?_, ?_⟩
  · rw [hu.wanted, hu.phony]
    exact h.listed e (he.imp (hq e) id)
  · refine h.anchored.imp (fun ⟨e, hp, ho⟩ => ⟨e, by rwa [hu.phony], ho.of_same hu hset⟩)
      fun ha => ?_
    rw [hu.wanted, hu.unwanted, hu.phony]
    exact ha

lemma Run.Counts.findWork (h : r.Counts w) : ∃ found w', Reninja.findWork w = .ok found w' ∧
    Run.Counts { r with running := r.running ++ found.toList } w' := by
  rcases findWork_cases w with ⟨-, hok⟩ | ⟨e, t, hp, hasks, hok⟩
  · exact ⟨none, w, hok, by simpa using h⟩
  · obtain ⟨hu, hwant, hready, hpools⟩ := hasks.same
    have ht : r.Counts t := h.uncounting hu hwant fun f hf => by
      rwa [World.Queued, hready, hpools] at hf
    rcases hok with hok | hok
    · exact ⟨none, t, hok, by simpa using ht⟩
    · refine ⟨some e, t.take e, hok, ?_⟩
      have htake := ht.uncounting (take_uncounting (e := e)) rfl fun f hf =>
        hf.imp mem_of_mem_erase id
      refine { htake with listed := fun f hf hphony => ?_ }
      rcases hf with hf | hf
      · exact htake.listed f (.inl hf) hphony
      · rcases mem_append.mp hf with hf | hf
        · exact htake.listed f (.inr hf) hphony
        · obtain rfl : f = e := by simpa using hf
          rw [take_uncounting.wanted]
          refine ht.listed f (.inl (.inl ?_)) hphony
          rw [hready]
          exact w.peek_mem hp

lemma World.Acyclic.not_below {n : Path} (h : w.Acyclic) (hn : n ∈ (w.edges e).outputs) :
    ¬ w.Below n e := fun ⟨_, hf, hfe⟩ => h e (.head' ⟨n, hn, hf⟩ hfe)

/-- While the outputs of a command are cleaned, the command itself stays wanted as it was. -/
lemma Run.Counts.cleanNode {n : Path} (h : r.Counts w) (hacyclic : w.Acyclic) (he : e ∈ r.running)
    (hphony : w.phony e = false) (hn : n ∈ (w.edges e).outputs)
    (hf : r.finishing = none ∨ r.finishing = some e) (fuel : Nat) :
    Run.Counts { r with finishing := some e } (finalState (Reninja.cleanNode env fuel n w)) := by
  have hc : Cleans (w.Below n) w (finalState (Reninja.cleanNode env fuel n w)) :=
    cleanNode_cleans hacyclic fuel n ⟨fun _ => rfl, fun _ => rfl⟩
  generalize finalState (Reninja.cleanNode env fuel n w) = w' at hc ⊢
  have hphony' : w'.phony = w.phony := hc.steps.grows.phony_eq
  refine ⟨hc.steps.counted h.counted, fun f => hc.steps.owes (h.owes f),
    hc.steps.listed h.owes h.listed, ?_⟩
  rcases h.anchored with ⟨f, hp, ho⟩ | ha
  · exact .inl ⟨f, by rwa [hphony'], hc.steps.owes ho⟩
  · refine .inr ⟨by rwa [hphony'], ?_⟩
    rw [hc.wanted, hc.unwanted e (hacyclic.not_below hn)]
    rcases hf with hf | hf
    · rw [hf] at ha
      rw [show w.commandsUnwanted = [] from ha, count_nil]
      exact count_pos_iff.mpr (h.listed e (.inr he) hphony)
    · rw [hf] at ha
      exact ha.2

section Drop

variable {α : Type} {m : M α} {found : Option EdgeId}

lemma Run.Counts.plan (h : r.Counts w) (hm : Moves (Steps .planning) w m) :
    Settled (finalState ((do let _ ← m; pure none : M (Option EdgeId)) w)) ∧
      ∀ found w', (do let _ ← m; pure none : M (Option EdgeId)) w = .ok found w' → r.Counts w' := by
  rw [finalState_drop]
  refine ⟨h.settled.wanting (Steps.wanting hm), fun found w' hok => ?_⟩
  obtain ⟨a, ha⟩ := drop_ok hok
  exact h.wanting (Steps.wanting (hm.of_ok ha))

end Drop

lemma Run.Counts.call {c : Call} (fuel : Nat) (h : r.Counts w) (hacyclic : w.Acyclic)
    (hallows : r.Allows w c) : Settled (finalState (c.run env fuel w)) ∧
      ∀ found w', c.run env fuel w = .ok found w' → (r.after c found).Counts w' := by
  cases c with
  | addTarget n => exact h.plan (builderAddTarget_steps env fuel n)
  | prepareQueue =>
    have hplan := h.plan
      (prepareQueue_steps (fun _ _ => trivial) env fuel trivial fun _ _ _ _ => trivial)
    refine ⟨hplan.1, fun found w' hok => ?_⟩
    have h' := hplan.2 found w' hok
    exact ⟨h'.counted, h'.owes, h'.listed, h'.anchored⟩
  | findWork =>
    obtain ⟨found, w', hok, h'⟩ := h.findWork
    rw [Call.run, hok]
    refine ⟨h'.settled, fun found' w'' hok' => ?_⟩
    cases hok'
    exact h'
  | edgeFinished e result =>
    have hplan := h.plan (edgeFinished_steps (e := e) env fuel result (.inr trivial))
    refine ⟨hplan.1, fun found w' hok => ?_⟩
    obtain ⟨b, hb⟩ := drop_ok hok
    exact h.edgeFinished hallows.2 hb
  | cleanNode e n =>
    obtain ⟨he, hphony, hn, hf⟩ := hallows
    have hclean : Run.Counts { r with finishing := some e }
        (finalState (Reninja.cleanNode env fuel n w)) :=
      h.cleanNode hacyclic he hphony hn hf fuel
    refine ⟨?_, fun found w' hok => ?_⟩
    · rw [Call.run, finalState_drop]
      exact hclean.settled
    · obtain ⟨_, hc⟩ := drop_ok hok
      rwa [hc] at hclean
  | loadDyndeps n =>
    exact h.plan (builderLoadDyndeps_steps (fun t e he =>
      edgeFinished_steps env fuel .succeeded (.inl he)) n)

lemma Reached.counts (h : Reached env r w) : r.Counts w := by
  induction h with
  | start w hw => exact .unplanned hw
  | call r w w' c fuel found _ hacyclic hallows hok ih =>
    exact (ih.call fuel hacyclic hallows).2 found w' hok
  | elsewhere r w w' _ hw ih =>
    obtain ⟨start, reaped, hw⟩ := hw
    rw [hw]
    refine ih.uncounting (.of_trace rfl rfl (fun ev hev => ?_) rfl rfl) rfl fun f hf => hf
    obtain ⟨p, -, rfl⟩ := mem_map.mp hev
    trivial

lemma Visited.settled (h : Visited env w) : Settled w := by
  obtain ⟨r, w₀, hr, rfl | ⟨c, fuel, hacyclic, hallows, rfl⟩⟩ := h
  · exact hr.counts.settled
  · exact (hr.counts.call fuel hacyclic hallows).1

lemma Settled.commandEdges_pos (h : Settled w)
    (he : w.commandsUnwanted.count e < w.commandsWanted.count e) : 0 < w.commandEdges := by
  have hsub : w.commandsUnwanted.Subperm w.commandsWanted :=
    subperm_ext_iff.mpr fun e _ => (h.owes e).1
  have hlt : w.commandsUnwanted.length < w.commandsWanted.length := by
    refine Nat.lt_of_le_of_ne hsub.length_le fun heq => ?_
    rw [(hsub.perm_of_length_le heq.ge).count_eq e] at he
    exact Nat.lt_irrefl _ he
  rw [h.counted.commandEdges]
  omega

/-- **The counters of the plan are exact.** In every state that a builder of an acyclic graph
comes to, `wantedEdges` is the number of entries of the want map that are not `WantNothing`, and
`commandEdges` is the number of times a command became wanted less the number of times one was
un-wanted. Neither is negative, and `MoreToDo` is false only when no edge is wanted or no command
ever was. -/
theorem Visited.counters_exact (h : Visited env w) :
    (w.wantedSet.Finite ∧ w.wantedEdges = w.wantedSet.ncard ∧
      w.commandEdges = w.commandsWanted.length - w.commandsUnwanted.length) ∧
    (0 ≤ w.wantedEdges ∧ 0 ≤ w.commandEdges) ∧
    (w.moreToDo = false → w.wantedSet = ∅ ∨ w.commandsWanted = []) := by
  have hs := h.settled
  have hwanted := hs.counted.wantedEdges
  have hcommand := hs.counted.commandEdges
  have hle : w.commandsUnwanted.length ≤ w.commandsWanted.length :=
    (subperm_ext_iff.mpr fun e _ => (hs.owes e).1).length_le
  refine ⟨⟨hs.counted.finite, hwanted, hcommand⟩, ⟨by omega, by omega⟩, fun hmore => ?_⟩
  simp only [moreToDo, Bool.and_eq_false_iff, decide_eq_false_iff_not, not_lt] at hmore
  rcases hmore with hmore | hmore
  · left
    rw [← Set.ncard_eq_zero hs.counted.finite]
    omega
  · right
    rcases hs.anchored with hU | ⟨e, -, he⟩
    · rw [hU, length_nil] at hcommand
      exact length_eq_zero_iff.mp (by omega)
    · exact absurd (hs.commandEdges_pos he) (by omega)

/-- A command that makes `b`, and one that makes `a` from it. -/
def chained : World where
  edges := fun e =>
    if e = 0 then { outputs := [[98]] }
    else if e = 1 then { explicitInputs := [[98]], outputs := [[97]] }
    else {}
  nodes := fun n =>
    if n = [98] then { inEdge := some 0, outEdges := [1] }
    else if n = [97] then { inEdge := some 1 }
    else {}
  edgeCount := 2

lemma chained_unplanned : chained.Unplanned :=
  ⟨rfl, rfl, fun _ => rfl, fun _ => rfl, rfl, rfl, rfl⟩

lemma chained_bounded : chained.Bounded 2 := by
  intro e he
  have h0 : ¬ e = 0 := by rintro rfl; omega
  have h1 : ¬ e = 1 := by rintro rfl; omega
  rw [show chained.edges e = {} by simp only [chained, if_neg h0, if_neg h1]]
  exact ⟨rfl, rfl⟩

/-- The first command is run to its end. -/
def finishFirst : List Act :=
  [.call (.addTarget [97]), .call .prepareQueue, .call .findWork,
    .call (.edgeFinished 0 .succeeded)]

/-- When the first of two commands has ended, one edge is wanted. -/
theorem counters_exact_chained : ∃ r w, Reached {} r w ∧ w.founds = [0] ∧ w.wantedEdges = 1 ∧
    w.commandEdges = 2 ∧ w.moreToDo = true ∧ w.wantedSet.ncard = 1 ∧
    w.commandsWanted.length - w.commandsUnwanted.length = 2 := by
  obtain ⟨r, w, h, hfounds, hwanted, hcommand, hmore⟩ : ∃ r w, Reached {} r w ∧ w.founds = [0] ∧
      w.wantedEdges = 1 ∧ w.commandEdges = 2 ∧ w.moreToDo = true :=
    exists_of_runActs 9 finishFirst chained_unplanned chained_bounded (by decide)
  obtain ⟨⟨-, hcard, hlength⟩, -⟩ := Visited.counters_exact ⟨r, w, h, .inl rfl⟩
  exact ⟨r, w, h, hfounds, hwanted, hcommand, hmore, by omega, by omega⟩

end Runs

end Reninja
