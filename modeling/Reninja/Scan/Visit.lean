import Reninja.Scan.Open

/-!
# The visit to an edge

After it was opened, a visit goes through the inputs of the edge and then closes it. The loop
invariant `Progress` says what was found out about the inputs seen so far; at the end of the
loop it gives what the closing needs.
-/

namespace Reninja

open Program List

variable {env : Env}

/-- Every edge that was visited in between has got the dependencies on record, and its validation
nodes are in the list. -/
def Gathers (env : Env) (w w' : World) (new : List Path) : Prop :=
  ∀ f, (w.edges f).mark = .none → (w'.edges f).mark = .done →
    (w'.edges f).implicitInputs = (w.edges f).implicitInputs ++ (recordedDeps env w f).getD [] ∧
      (w'.edges f).validations ⊆ new

/-- The list grew by what was gathered in between. -/
def Collects (env : Env) (w w' : World) (vs vs' : List Path) : Prop :=
  ∃ new, vs' = vs ++ new ∧ Gathers env w w' new

lemma Gathers.refl (w : World) : Gathers env w w [] :=
  fun f hn hd => by simp [hn] at hd

lemma Collects.refl (w : World) (vs : List Path) : Collects env w w vs vs :=
  ⟨[], by simp, .refl w⟩

lemma Gathers.trans {w₁ w w' : World} {new new' : List Path} (h₁ : Gathers env w₁ w new)
    (hground : SameGround w₁ w) (hunmet : ∀ f, (w.edges f).mark = .none → w.edges f = w₁.edges f)
    (hf : Frame w w') (h₂ : Gathers env w w' new') : Gathers env w₁ w' (new ++ new') := by
  intro f hn hd
  by_cases hm : (w.edges f).mark = .none
  · obtain ⟨himplicit, hvalidations⟩ := h₂ f hm hd
    rw [hunmet f hm, hground.recordedDeps] at himplicit
    exact ⟨himplicit, List.Subset.trans hvalidations (subset_append_right ..)⟩
  · -- the edge was met before the second part and has stayed as it was
    rw [hf.edges f hm] at hd ⊢
    obtain ⟨himplicit, hvalidations⟩ := h₁ f hn hd
    exact ⟨himplicit, List.Subset.trans hvalidations (subset_append_left ..)⟩

/-- What a visit to a node achieves. -/
structure VisitPost (env : Env) (w w' : World) (n : Path) (vs vs' : List Path) : Prop where
  inv : ScanInv env w'
  frame : Frame w w'
  visited : w'.Visited n
  collects : Collects env w w' vs vs'

def VisitSpec (env : Env) (visit : Path → List Path → M (List Path)) : Prop :=
  ∀ ⦃w w' n vs vs'⦄, ScanInv env w → visit n vs w = .ok vs' w' → VisitPost env w w' n vs vs'

/-! ### The loop over the inputs -/

/-- The state of a visit to `e` that was opened in `w₁` and has `seen` some inputs and
`checked` those of them that are not order-only. -/
structure Progress (env : Env) (e : EdgeId) (w₁ : World) (v₁ : Visit) (seen checked : List Path)
    (w : World) (v : Visit) : Prop where
  inv : ScanInv env w
  frame : OwnFrame e w₁ w
  mark : (w.edges e).mark = .inStack
  edge : w.edges e = { w₁.edges e with outputsReady := (w.edges e).outputsReady }
  outputs : ∀ o, w.producer o = some e → (w.nodes o).SameStatus (w₁.nodes o)
  subset : checked ⊆ seen
  visited : ∀ i ∈ seen, w.Visited i
  ready : (w.edges e).outputsReady = true ↔
    ∀ i ∈ seen, ∀ f, w.producer i = some f → (w.edges f).outputsReady = true
  dirty : v.dirty = true ↔ v₁.dirty = true ∨ ∃ i ∈ checked, (w.nodes i).dirty = true
  newest : v.dirty = false → v.newest = mostRecent w checked
  collects : Collects env w₁ w v₁.validations v.validations

section Inputs

variable {env : Env} {e : EdgeId} {w₁ w w' : World} {v₁ v : Visit} {seen checked : List Path}
  {i : Path}
variable {v' : Visit}

lemma mostRecent_congr (h : ∀ i ∈ checked, (w'.nodes i).mtime = (w.nodes i).mtime) :
    mostRecent w' checked = mostRecent w checked := by
  refine foldl_newerInput_congr fun i hi => ?_
  rcases hi with hi | hi
  · exact h i hi
  · cases hi

/-- The visit to another node leaves the findings of this one. -/
lemma Progress.frame_visit {vs' : List Path} (h : Progress env e w₁ v₁ seen checked w v)
    (hinv : ScanInv env w') (hf : Frame w w') (hc : Collects env w w' v.validations vs') :
    Progress env e w₁ v₁ seen checked w' { v with validations := vs' } := by
  have hedge : w'.edges e = w.edges e := hf.edges e (by simp [h.mark])
  have hst : ∀ i ∈ checked, (w'.nodes i).SameStatus (w.nodes i) := fun i hi =>
    hf.nodes i (h.visited i (h.subset hi)).met
  constructor
  case inv => exact hinv
  case frame => exact h.frame.trans hf.ownFrame
  case mark => rw [hedge, h.mark]
  case edge =>
    rw [hedge]
    exact h.edge
  case outputs =>
    intro o ho
    rw [hf.ground.producer] at ho
    exact (hf.nodes o (by simp [World.Met, ho, h.mark])).trans (h.outputs o ho)
  case subset => exact h.subset
  case visited => exact fun i hi => hf.visited (h.visited i hi)
  case ready =>
    rw [hedge, h.ready]
    refine forall₂_congr fun i hi => forall_congr' fun f => ?_
    rw [hf.ground.producer]
    refine imp_congr_right fun hp => ?_
    have hvis := h.visited i hi
    simp only [World.Visited, hp] at hvis
    rw [hf.edges f (by simp [hvis])]
  case dirty =>
    simp only [h.dirty]
    refine or_congr_right (exists_congr fun i => and_congr_right fun hi => ?_)
    rw [(hst i hi).dirty]
  case newest =>
    intro hd
    rw [mostRecent_congr fun i hi => (hst i hi).mtime]
    exact h.newest hd
  case collects =>
    obtain ⟨new, heq, hnew⟩ := h.collects
    obtain ⟨new', rfl, hnew'⟩ := hc
    refine ⟨new ++ new', by simp [heq], hnew.trans h.frame.ground (fun f hm => ?_) hf hnew'⟩
    refine h.frame.unmet f ?_ hm
    rintro rfl
    simp [h.mark] at hm

lemma Progress.see_ready (h : Progress env e w₁ v₁ seen checked w v) (hi : w.Visited i)
    (hready : ∀ f, w.producer i = some f → (w.edges f).outputsReady = true) :
    Progress env e w₁ v₁ (seen ++ [i]) checked w v where
  inv := h.inv
  frame := h.frame
  mark := h.mark
  edge := h.edge
  outputs := h.outputs
  subset := fun j hj => mem_append_left _ (h.subset hj)
  visited j hj := by
    rcases mem_append.mp hj with hj | hj
    · exact h.visited j hj
    · rwa [mem_singleton.mp hj]
  ready := by
    rw [h.ready]
    constructor
    · intro hall j hj
      rcases mem_append.mp hj with hj | hj
      · exact hall j hj
      · rw [mem_singleton.mp hj]
        exact hready
    · exact fun hall j hj => hall j (mem_append_left _ hj)
  dirty := h.dirty
  newest := h.newest
  collects := h.collects

lemma Collects.own {vs vs' : List Path} (h : Collects env w₁ w vs vs') (hown : OwnStep e w w')
    (hmark : (w'.edges e).mark ≠ .done) : Collects env w₁ w' vs vs' := by
  obtain ⟨new, rfl, hnew⟩ := h
  refine ⟨new, rfl, fun f hn hd => ?_⟩
  have hf : f ≠ e := by
    rintro rfl
    exact hmark hd
  rw [hown.edges f hf] at hd ⊢
  exact hnew f hn hd

lemma Progress.see_unready (h : Progress env e w₁ v₁ seen checked w v) (hi : w.Visited i)
    {f : EdgeId} (hf : w.producer i = some f) (hready : (w.edges f).outputsReady = false) :
    Progress env e w₁ v₁ (seen ++ [i]) checked
      (w.setEdge e fun x => { x with outputsReady := false }) v := by
  have hown : OwnStep e w (w.setEdge e fun x => { x with outputsReady := false }) :=
    ownStep_setEdge w ⟨rfl, rfl, rfl, rfl, rfl, rfl, rfl, rfl⟩
  have hopen : (w.edges e).mark ≠ .done := by simp [h.mark]
  have hfe : f ≠ e := by
    rintro rfl
    exact hi.producer_ne hopen hf
  constructor
  case inv => exact h.inv.own hown hopen (by simp [h.mark]) (by simp [h.mark])
  case frame => exact h.frame.trans hown.ownFrame
  case mark => simp [h.mark]
  case edge =>
    rw [World.setEdge_edges_self, h.edge]
  case outputs => exact h.outputs
  case subset => exact fun j hj => mem_append_left _ (h.subset hj)
  case visited =>
    intro j hj
    refine hown.ownFrame.visited hopen ?_
    rcases mem_append.mp hj with hj | hj
    · exact h.visited j hj
    · rwa [mem_singleton.mp hj]
  case ready =>
    refine iff_of_false (by simp) fun hall => ?_
    have := hall i (by simp) f hf
    rw [World.setEdge_edges_ne _ hfe, hready] at this
    cases this
  case dirty => exact h.dirty
  case newest => exact h.newest
  case collects => exact h.collects.own hown (by simp [h.mark])

variable {visit : Path → List Path → M (List Path)}

lemma visitInput_ok (hvisit : VisitSpec env visit) (h : Progress env e w₁ v₁ seen checked w v)
    (hok : visitInput visit e v i w = .ok v' w') :
    Progress env e w₁ v₁ (seen ++ [i]) checked w' v' := by
  simp only [visitInput, bind_ok, get_ok] at hok
  obtain ⟨vs', w₂, hv, _, _, ⟨rfl, rfl⟩, hok⟩ := hok
  have hpost := hvisit h.inv hv
  have h₂ := h.frame_visit hpost.inv hpost.frame hpost.collects
  cases hp : w₂.producer i with
  | none =>
    rw [hp] at hok
    obtain ⟨rfl, rfl⟩ := pure_ok.mp hok
    exact h₂.see_ready hpost.visited (by simp [hp])
  | some f =>
    rw [hp] at hok
    cases hr : (w₂.edges f).outputsReady with
    | true =>
      simp only [hr, not_true_eq_false, if_false] at hok
      obtain ⟨rfl, rfl⟩ := pure_ok.mp hok
      exact h₂.see_ready hpost.visited (by simp [hp, hr])
    | false =>
      simp only [hr, Bool.false_eq_true, not_false_eq_true, if_true, bind_ok, updEdge_ok] at hok
      obtain ⟨_, _, rfl, hok⟩ := hok
      obtain ⟨rfl, rfl⟩ := pure_ok.mp hok
      exact h₂.see_unready hpost.visited hp hr

lemma checkDirty_ok (h : Progress env e w₁ v₁ seen checked w v) (hi : i ∈ seen)
    (hok : checkDirty v i w = .ok v' w') : Progress env e w₁ v₁ seen (checked ++ [i]) w' v' := by
  rw [checkDirty, get_bind_ok] at hok
  have hsubset : checked ++ [i] ⊆ seen := by
    intro j hj
    rcases mem_append.mp hj with hj | hj
    · exact h.subset hj
    · rwa [mem_singleton.mp hj]
  cases hd : (w.nodes i).dirty with
  | true =>
    rw [if_pos hd] at hok
    obtain ⟨rfl, rfl⟩ := pure_ok.mp hok
    exact { h with
      subset := hsubset
      dirty := iff_of_true rfl (.inr ⟨i, by simp, hd⟩)
      newest := fun hfalse => by cases hfalse }
  | false =>
    rw [if_neg (by simp [hd])] at hok
    obtain ⟨rfl, rfl⟩ := pure_ok.mp hok
    refine { h with
      subset := hsubset
      dirty := ?_
      newest := fun hclean => ?_ }
    · simp only [h.dirty, mem_append, mem_singleton, or_and_right, exists_or,
        exists_eq_left, hd, Bool.false_eq_true, or_false]
    · simp only [mostRecent, foldl_append, foldl_cons, foldl_nil]
      rw [h.newest hclean, mostRecent]

lemma visitInputs_checked (hvisit : VisitSpec env visit) {is : List Path} {v' : Visit}
    (h : Progress env e w₁ v₁ seen checked w v)
    (hok : visitInputs visit e true v is w = .ok v' w') :
    Progress env e w₁ v₁ (seen ++ is) (checked ++ is) w' v' := by
  induction is generalizing w v seen checked with
  | nil =>
    obtain ⟨rfl, rfl⟩ := pure_ok.mp hok
    simpa using h
  | cons i is ih =>
    simp only [visitInputs, bind_ok, if_true] at hok
    obtain ⟨v₂, w₂, hin, v₃, w₃, hcheck, hok⟩ := hok
    have h₃ := checkDirty_ok (visitInput_ok hvisit h hin) (by simp) hcheck
    simpa using ih h₃ hok

lemma visitInputs_unchecked (hvisit : VisitSpec env visit) {is : List Path} {v' : Visit}
    (h : Progress env e w₁ v₁ seen checked w v)
    (hok : visitInputs visit e false v is w = .ok v' w') :
    Progress env e w₁ v₁ (seen ++ is) checked w' v' := by
  induction is generalizing w v seen with
  | nil =>
    obtain ⟨rfl, rfl⟩ := pure_ok.mp hok
    simpa using h
  | cons i is ih =>
    simp only [visitInputs, bind_ok, Bool.false_eq_true, if_false] at hok
    obtain ⟨v₂, w₂, hin, hok⟩ := hok
    simpa using ih (visitInput_ok hvisit h hin) hok

end Inputs

/-! ### The end of a visit -/

/-- Giving times to outputs of `e` that have no file, which happens for a phony edge only. -/
structure Retimes (e : EdgeId) (w w' : World) : Prop where
  own : OwnStep e w w'
  edges : w'.edges = w.edges
  existence : ∀ n, (w'.nodes n).existence = (w.nodes n).existence
  dirty : ∀ n, (w'.nodes n).dirty = (w.nodes n).dirty
  mtime : (w.edges e).phony = false → ∀ n, (w'.nodes n).mtime = (w.nodes n).mtime

section Close

variable {env : Env} {e : EdgeId} {w₁ w w' w'' : World} {v₁ v : Visit} {newest : Option Path}
  {command : GoString}
variable {d : Bool}

lemma Retimes.refl (w : World) : Retimes e w w :=
  ⟨.refl w, rfl, fun _ => rfl, fun _ => rfl, fun _ _ => rfl⟩

lemma Retimes.trans (h₁ : Retimes e w w') (h₂ : Retimes e w' w'') : Retimes e w w'' where
  own := h₁.own.trans h₂.own
  edges := h₂.edges.trans h₁.edges
  existence n := (h₂.existence n).trans (h₁.existence n)
  dirty n := (h₂.dirty n).trans (h₁.dirty n)
  mtime hp n := (h₂.mtime (by rw [h₁.edges]; exact hp) n).trans (h₁.mtime hp n)

lemma Retimes.exists_eq (h : Retimes e w w') (n : Path) :
    (w'.nodes n).exists = (w.nodes n).exists := by
  rw [Node.exists, Node.exists, h.existence]

/-- What is decided about an output does not depend on the times given to others. -/
lemma Retimes.outputDirty (h : Retimes e w w') (hnewest : ∀ i ∈ newest, w.producer i ≠ some e)
    (o : Path) : outputDirty env w' e newest command o = outputDirty env w e newest command o :=
  outputDirty_congr h.own.ground (by rw [h.edges]) (h.exists_eq o) (fun hp => h.mtime hp o)
    fun i hi => (h.own.nodes i (hnewest i hi)).mtime

lemma recomputeOutputDirty_ok {o : Path} (ho : w.producer o = some e)
    (hok : recomputeOutputDirty env e newest command o w = .ok d w') :
    d = outputDirty env w e newest command o ∧ Retimes e w w' := by
  rw [recomputeOutputDirty, get_bind_ok] at hok
  cases newest with
  | none =>
    obtain ⟨rfl, rfl⟩ := pure_ok.mp hok
    exact ⟨rfl, .refl _⟩
  | some i =>
    simp only at hok
    split at hok
    · rename_i hphony
      simp only [bind_ok, updNode_ok] at hok
      obtain ⟨_, _, rfl, hok⟩ := hok
      obtain ⟨rfl, rfl⟩ := pure_ok.mp hok
      refine ⟨rfl, ownStep_setNode w rfl rfl ho, rfl, fun n => ?_, fun n => ?_, fun hp => ?_⟩
      · by_cases hn : n = o
        · subst hn
          simp
        · rw [World.setNode_nodes_ne _ hn]
      · by_cases hn : n = o
        · subst hn
          simp
        · rw [World.setNode_nodes_ne _ hn]
      · simp [hp] at hphony
    · obtain ⟨rfl, rfl⟩ := pure_ok.mp hok
      exact ⟨rfl, .refl _⟩

lemma anyDirty_ok {os : List Path} (hos : ∀ o ∈ os, w.producer o = some e)
    (hnewest : ∀ i ∈ newest, w.producer i ≠ some e)
    (hok : recomputeOutputsDirty.anyDirty env e newest command os w = .ok d w') :
    (d = true ↔ ∃ o ∈ os, outputDirty env w e newest command o = true) ∧ Retimes e w w' := by
  induction os generalizing w with
  | nil =>
    obtain ⟨rfl, rfl⟩ := pure_ok.mp hok
    exact ⟨by simp, .refl _⟩
  | cons o os ih =>
    simp only [recomputeOutputsDirty.anyDirty, bind_ok] at hok
    obtain ⟨d₁, w₂, hone, hok⟩ := hok
    obtain ⟨rfl, hrt⟩ := recomputeOutputDirty_ok (hos o (by simp)) hone
    cases hd : outputDirty env w e newest command o with
    | true =>
      rw [if_pos hd] at hok
      obtain ⟨rfl, rfl⟩ := pure_ok.mp hok
      exact ⟨by simp [hd], hrt⟩
    | false =>
      rw [if_neg (by simp [hd])] at hok
      have hprod := hrt.own.ground.producer
      obtain ⟨hiff, hrt'⟩ := ih (fun o' ho' => by rw [hprod]; exact hos o' (by simp [ho']))
        (fun i hi => by rw [hprod]; exact hnewest i hi) hok
      refine ⟨?_, hrt.trans hrt'⟩
      simp only [hiff, hrt.outputDirty hnewest, mem_cons, or_and_right, exists_or,
        exists_eq_left, hd, Bool.false_eq_true, false_or]

lemma checkOutputs_ok (hos : ∀ o ∈ (w.edges e).outputs, w.producer o = some e)
    (hnewest : v.dirty = false → ∀ i ∈ v.newest, w.producer i ≠ some e)
    (hok : checkOutputs env e v w = .ok d w') :
    (d = true ↔ v.dirty = true ∨ ∃ o ∈ (w.edges e).outputs,
      outputDirty env w e v.newest (w.evaluateCommand e true) o = true) ∧ Retimes e w w' := by
  rw [checkOutputs] at hok
  cases hv : v.dirty with
  | true =>
    rw [if_pos hv] at hok
    obtain ⟨rfl, rfl⟩ := pure_ok.mp hok
    exact ⟨by simp, .refl _⟩
  | false =>
    rw [if_neg (by simp [hv])] at hok
    rw [recomputeOutputsDirty, get_bind_ok] at hok
    obtain ⟨hiff, hrt⟩ := anyDirty_ok hos (hnewest hv) hok
    exact ⟨by simp [hiff], hrt⟩

lemma markAll_ok {os : List Path} {u : Unit} (hos : ∀ o ∈ os, w.producer o = some e)
    (hok : forEach os (fun o => updNode o fun m => { m with dirty := true }) w = .ok u w') :
    OwnStep e w w' ∧ w'.edges = w.edges ∧
      ∀ n, (w'.nodes n).existence = (w.nodes n).existence ∧
        (w'.nodes n).mtime = (w.nodes n).mtime ∧
        ((w'.nodes n).dirty = true ↔ (w.nodes n).dirty = true ∨ n ∈ os) := by
  induction os generalizing w with
  | nil =>
    obtain ⟨-, rfl⟩ := pure_ok.mp hok
    exact ⟨.refl _, rfl, fun n => ⟨rfl, rfl, by simp⟩⟩
  | cons o os ih =>
    obtain ⟨_, _, hone, hok⟩ := bind_ok.mp hok
    obtain rfl := updNode_ok.mp hone
    have hown : OwnStep e w (w.setNode o fun m => { m with dirty := true }) :=
      ownStep_setNode w rfl rfl (hos o (by simp))
    obtain ⟨hown', hedges, hnodes⟩ := ih (fun o' ho' => by
      rw [hown.ground.producer]
      exact hos o' (by simp [ho'])) hok
    refine ⟨hown.trans hown', hedges, fun n => ?_⟩
    obtain ⟨hex, htime, hdirty⟩ := hnodes n
    by_cases hn : n = o
    · subst hn
      rw [World.setNode_nodes_self] at hex htime hdirty
      exact ⟨hex, htime, by simp [hdirty]⟩
    · rw [World.setNode_nodes_ne _ hn] at hex htime hdirty
      exact ⟨hex, htime, by simp [hdirty, hn]⟩

/-- What closing an edge that was found dirty or not does. -/
structure Closes (e : EdgeId) (d : Bool) (w w' : World) : Prop where
  own : OwnStep e w w'
  edge : w'.edges e = { w.edges e with
    outputsReady := (w.edges e).outputsReady &&
      !(d && !((w.edges e).phony && decide ((w.edges e).inputs = [])))
    mark := .done }
  exists_eq : ∀ n, (w'.nodes n).exists = (w.nodes n).exists
  mtime : (w.edges e).phony = false → ∀ n, (w'.nodes n).mtime = (w.nodes n).mtime
  dirty : ∀ o ∈ (w.edges e).outputs,
    (w'.nodes o).dirty = true ↔ (w.nodes o).dirty = true ∨ d = true

lemma closeEdge_ok {vs : List Path} (hos : ∀ o ∈ (w.edges e).outputs, w.producer o = some e)
    (hnewest : v.dirty = false → ∀ i ∈ v.newest, w.producer i ≠ some e)
    (hok : closeEdge env e v w = .ok vs w') :
    vs = v.validations ∧ ∃ d : Bool, (d = true ↔ v.dirty = true ∨ ∃ o ∈ (w.edges e).outputs,
      outputDirty env w e v.newest (w.evaluateCommand e true) o = true) ∧ Closes e d w w' := by
  simp only [closeEdge, markOutputsDirty, bind_ok, getEdge_ok, updEdge_ok] at hok
  obtain ⟨d, w₂, hcheck, _, w₃, ⟨_, _, ⟨rfl, rfl⟩, hmark⟩, _, _, rfl, hok⟩ := hok
  obtain ⟨rfl, rfl⟩ := pure_ok.mp hok
  obtain ⟨hd, hrt⟩ := checkOutputs_ok hos hnewest hcheck
  have hlast : OwnStep e w₃ (w₃.setEdge e fun x => { x with
      outputsReady := x.outputsReady && !(d && !(x.phony && decide (x.inputs = []))),
      mark := .done }) := ownStep_setEdge w₃ ⟨rfl, rfl, rfl, rfl, rfl, rfl, rfl, rfl⟩
  refine ⟨rfl, d, hd, ?_⟩
  cases d with
  | false =>
    obtain ⟨-, rfl⟩ := pure_ok.mp hmark
    refine ⟨hrt.own.trans hlast, ?_, hrt.exists_eq, hrt.mtime, fun o _ => ?_⟩
    · rw [World.setEdge_edges_self, hrt.edges]
    · rw [World.setEdge_nodes, hrt.dirty]
      simp
  | true =>
    rw [if_pos rfl] at hmark
    obtain ⟨hown, hedges, hnodes⟩ := markAll_ok (fun o ho => by
      rw [hrt.own.ground.producer]
      rw [hrt.edges] at ho
      exact hos o ho) hmark
    refine ⟨(hrt.own.trans hown).trans hlast, ?_, fun n => ?_, fun hp n => ?_, fun o ho => ?_⟩
    · rw [World.setEdge_edges_self, hedges, hrt.edges]
    · rw [World.setEdge_nodes, ← hrt.exists_eq, Node.exists, Node.exists, (hnodes n).1]
    · rw [World.setEdge_nodes, (hnodes n).2.1, hrt.mtime hp]
    · rw [World.setEdge_nodes, (hnodes o).2.2, hrt.edges]
      simp [ho]

end Close

end Reninja
