import Reninja.Scan.Visit

/-!
# The scan computes its definition

A visit to a node leaves what was settled before as it is, and what it settles is as the
declarative definitions say. The induction is on the depth of the recursion; there is no need
to ask for an acyclic graph, since a scan that meets a cycle does not succeed.
-/

namespace Reninja

open Program

section Edge

variable {env : Env} {e : EdgeId} {w₀ w₁ w w' : World} {v₁ v : Visit} {vs vs' : List Path}
  {d : Bool} {visit : Path → List Path → M (List Path)}

lemma Progress.edgeDirty_iff (hopen : Opened env e w₀ w₁ vs v₁)
    (h : Progress env e w₁ v₁ (w.edges e).inputs (w.edges e).nonOrderOnlyInputs w v)
    (hd : d = true ↔ v.dirty = true ∨ ∃ o ∈ (w.edges e).outputs,
      outputDirty env w e v.newest (w.evaluateCommand e true) o = true) :
    EdgeDirty env w e ↔ d = true := by
  have hrec : v₁.dirty = true ↔ recordedDeps env w e = none := by
    rw [hopen.dirty, h.frame.ground.recordedDeps]
  rw [hd, EdgeDirty, ← hrec, ← or_assoc, ← h.dirty]
  cases hv : v.dirty with
  | true => simp
  | false => rw [h.newest hv]

lemma Closes.edgeSpec (hopen : Opened env e w₀ w₁ vs v₁)
    (h : Progress env e w₁ v₁ (w.edges e).inputs (w.edges e).nonOrderOnlyInputs w v)
    (hd : d = true ↔ v.dirty = true ∨ ∃ o ∈ (w.edges e).outputs,
      outputDirty env w e v.newest (w.evaluateCommand e true) o = true)
    (hc : Closes e d w w') : EdgeSpec env w' e := by
  have hmark : (w.edges e).mark ≠ .done := by simp [h.mark]
  have hinputs : (w'.edges e).inputs = (w.edges e).inputs := by
    rw [hc.edge]
    rfl
  have hne : ∀ i ∈ (w.edges e).inputs, w.producer i ≠ some e := fun i hi =>
    (h.visited i hi).producer_ne hmark
  have hdirty : EdgeDirty env w' e ↔ d = true := by
    rw [← h.edgeDirty_iff hopen hd]
    refine edgeDirty_congr hc.own.ground (by rw [hc.edge]) (fun i hi => ?_)
      (fun o _ => hc.exists_eq o) fun hp o _ => hc.mtime hp o
    exact hc.own.nodes i (hne i (List.mem_append_left _ hi))
  have hready : InputsReady w' e ↔ (w.edges e).outputsReady = true := by
    rw [InputsReady, hinputs, h.ready]
    refine forall₂_congr fun i hi => forall_congr' fun f => ?_
    rw [hc.own.ground.producer]
    refine imp_congr_right fun hp => ?_
    have hf : f ≠ e := by
      rintro rfl
      exact hne i hi hp
    rw [hc.own.edges f hf]
  constructor
  case inputs =>
    rw [hinputs]
    exact fun i hi => hc.own.ownFrame.visited hmark (h.visited i hi)
  case dirty =>
    rw [(hc.own.ground.statement e).outputs, hdirty]
    intro o ho
    have hp := h.inv.produced e o ho
    have hclean : (w.nodes o).dirty = false := by
      rw [(h.outputs o hp).dirty]
      exact hopen.clean o (by rwa [← hopen.own.ground.producer, ← h.frame.ground.producer])
    simp [hc.dirty o ho, hclean]
  case ready =>
    rw [hready, hdirty, hinputs, (hc.own.ground.statement e).phony, hc.edge]
    cases d <;> simp

lemma Opened.progress (hinv : ScanInv env w₀) (hmark : (w₀.edges e).mark = .none)
    (hopen : Opened env e w₀ w₁ vs v₁) : Progress env e w₁ v₁ [] [] w₁ v₁ where
  inv := hinv.own hopen.own (by simp [hmark]) (by simp [hopen.mark]) (by simp [hopen.mark])
  frame := (OwnStep.refl w₁).ownFrame
  mark := hopen.mark
  edge := rfl
  outputs _ _ := .refl _
  subset := List.Subset.refl _
  visited := by simp
  ready := by simp [hopen.ready]
  dirty := by simp
  newest _ := hopen.newest
  collects := .refl _ _

/-- The validation nodes of the edge come before those of the edges it led to. -/
lemma Opened.collects (hopen : Opened env e w₀ w₁ vs v₁) (hc : Closes e d w w')
    (himplicit : (w.edges e).implicitInputs = (w₁.edges e).implicitInputs)
    (h : Collects env w₁ w v₁.validations vs') (hf : SameGround w₀ w') :
    Collects env w₀ w' vs vs' := by
  obtain ⟨new, rfl, hnew⟩ := h
  refine ⟨(w₀.edges e).validations ++ new, by rw [hopen.validations, List.append_assoc],
    fun f hn hd => ?_⟩
  by_cases hfe : f = e
  · subst hfe
    rw [(hf.statement f).validations, hc.edge, ← hopen.implicit]
    exact ⟨himplicit, List.subset_append_left ..⟩
  · rw [hc.own.edges f hfe] at hd ⊢
    rw [← hopen.own.edges f hfe] at hn ⊢
    obtain ⟨hloaded, hvalidations⟩ := hnew f hn hd
    rw [hopen.own.ground.recordedDeps] at hloaded
    exact ⟨hloaded, List.Subset.trans hvalidations (List.subset_append_right ..)⟩

lemma recomputeEdgeDirty_ok (hvisit : VisitSpec env visit) (hinv : ScanInv env w)
    (hmark : (w.edges e).mark = .none) (hok : recomputeEdgeDirty env visit e vs w = .ok vs' w') :
    ScanInv env w' ∧ Frame w w' ∧ (w'.edges e).mark = .done ∧ Collects env w w' vs vs' := by
  simp only [recomputeEdgeDirty, bind_ok, getEdge_ok] at hok
  obtain ⟨v₁, w₁, hopen, _, _, ⟨rfl, rfl⟩, v₂, w₂, hexp, _, _, ⟨rfl, rfl⟩, v₃, w₃, himp, _, _,
    ⟨rfl, rfl⟩, v₄, w₄, hord, hclose⟩ := hok
  have ho := openEdge_ok hinv hmark hopen
  have h₂ := visitInputs_checked hvisit (ho.progress hinv hmark) hexp
  have h₃ := visitInputs_checked hvisit h₂ himp
  have h₄ := visitInputs_unchecked hvisit h₃ hord
  -- the inputs are those the edge had when the visit was opened
  have hexplicit : (w₁.edges e).explicitInputs = (w₄.edges e).explicitInputs := by rw [h₄.edge]
  have himplicit : (w₂.edges e).implicitInputs = (w₄.edges e).implicitInputs := by
    rw [h₂.edge, h₄.edge]
  have horder : (w₃.edges e).orderOnlyInputs = (w₄.edges e).orderOnlyInputs := by
    rw [h₃.edge, h₄.edge]
  simp only [hexplicit, himplicit, horder, List.nil_append] at h₄
  have hopened : (w₄.edges e).mark ≠ .done := by simp [h₄.mark]
  obtain ⟨rfl, d, hd, hc⟩ := closeEdge_ok (h₄.inv.produced e) (fun hv i hi => by
    rw [h₄.newest hv] at hi
    rcases foldl_newerInput_mem hi with hi | hi
    · exact (h₄.visited i (List.mem_append_left _ hi)).producer_ne hopened
    · cases hi) hclose
  have hdone : (w'.edges e).mark = .done := by rw [hc.edge]
  have hframe : Frame w w' :=
    ((ho.own.ownFrame.trans h₄.frame).trans hc.own.ownFrame).frame hmark (by simp [hdone])
  refine ⟨?_, hframe, hdone, ho.collects hc (by rw [h₄.edge]) h₄.collects hframe.ground⟩
  exact h₄.inv.own hc.own hopened (by simp [hdone]) fun _ => Closes.edgeSpec ho h₄ hd hc

end Edge

/-! ### The walk -/

/-- What is done with a node before its edge is visited, given the edge and the stack. -/
abbrev Check := Path → EdgeId → List Path → M Unit

/-- A check lets those nodes pass whose edge is not on the stack. -/
structure IsCheck (check : Check) : Prop where
  passes : ∀ {n e stack w}, (w.edges e).mark ≠ .inStack → check n e stack w = .ok () w
  stops : ∀ {n e stack w}, (w.edges e).mark = .inStack → ∃ err, check n e stack w = .error err w

def walk (env : Env) (check : Check) : Nat → Path → List Path → List Path → M (List Path)
  | 0, _, _, _ => throw .outOfFuel
  | fuel + 1, node, stack, validations => do
    match (← getNode node).inEdge with
    | none =>
      recomputeLeafDirty node
      pure validations
    | some e =>
      if (← getEdge e).mark = .done then
        pure validations
      else
        check node e stack
        recomputeEdgeDirty env (fun n vs => walk env check fuel n (stack ++ [node]) vs) e
          validations

section Walk

variable {env : Env} {e : EdgeId} {w w' : World} {n : Path} {vs vs' : List Path}
variable {u : Unit}
variable {g : Node → Node} {check : Check}

lemma walk_verifyDAG (env : Env) : walk env verifyDAG = recomputeNodeDirty env := by
  funext fuel
  induction fuel with
  | zero => rfl
  | succ fuel ih =>
    funext n stack vs
    rw [walk, ih]
    rfl

lemma isCheck_verifyDAG : IsCheck verifyDAG where
  passes {n e stack w} h := by
    simp [verifyDAG, bind_apply, get_apply, pure_apply, h]
  stops {n e stack w} h := by
    simp only [verifyDAG, bind_apply, get_apply, h, ne_eq, not_true_eq_false, if_false]
    generalize stack.drop _ = rest
    cases rest with
    | nil => exact ⟨_, rfl⟩
    | cons _ tail =>
      dsimp only
      generalize (n :: tail)[(_ : Nat)]? = last
      cases last <;> exact ⟨_, rfl⟩

lemma IsCheck.of_ok (h : IsCheck check) {stack : List Path} (hok : check n e stack w = .ok u w') :
    (w.edges e).mark ≠ .inStack ∧ w = w' := by
  by_cases hmark : (w.edges e).mark = .inStack
  · obtain ⟨err, herr⟩ := h.stops (n := n) hmark
    rw [herr] at hok
    cases hok
  · rw [h.passes hmark] at hok
    cases hok
    exact ⟨hmark, rfl⟩

lemma frame_setNode_leaf (hleaf : w.producer n = none) (hunknown : (w.nodes n).statusKnown = false)
    (hedge : (g (w.nodes n)).inEdge = (w.nodes n).inEdge)
    (hpending : (g (w.nodes n)).dyndepPending = (w.nodes n).dyndepPending) :
    Frame w (w.setNode n g) where
  ground := sameGround_setNode w hedge hpending
  edges _ _ := rfl
  unmet _ _ := rfl
  nodes m hm := by
    have hmn : m ≠ n := by
      rintro rfl
      simp [World.Met, hleaf, hunknown] at hm
    rw [World.setNode_nodes_ne _ hmn]
    exact .refl _

lemma recomputeLeafDirty_ok (hok : recomputeLeafDirty n w = .ok u w') :
    w' = w ∧ (w.nodes n).statusKnown = true ∨
      (w.nodes n).statusKnown = false ∧ ∃ mtime, w.disk.stat n = .ok mtime ∧
        w' = w.setNode n fun m => { m with
          mtime := mtime
          existence := if mtime = 0 then .missing else .present
          dirty := decide (mtime = 0) } := by
  rw [recomputeLeafDirty, getNode_bind_ok] at hok
  split at hok
  · rename_i hk
    obtain ⟨-, rfl⟩ := pure_ok.mp hok
    exact .inl ⟨rfl, hk⟩
  · simp only [bind_ok, updNode_ok] at hok
    obtain ⟨_, w₂, hstat, rfl⟩ := hok
    rcases statIfNecessary_ok hstat with ⟨rfl, hk⟩ | ⟨hunknown, mtime, htime, rfl⟩
    · contradiction
    · refine .inr ⟨hunknown, mtime, htime, ?_⟩
      by_cases h0 : mtime = 0 <;> simp [World.setNode, h0, Node.exists]

lemma ScanInv.setNode_leaf (hinv : ScanInv env w) (hleaf : w.producer n = none)
    (hf : Frame w (w.setNode n g)) (hspec : (g (w.nodes n)).dirty = true ↔ w.disk.stat n = .ok 0) :
    ScanInv env (w.setNode n g) where
  noPending m := (hf.ground.pending m).trans (hinv.noPending m)
  produced f o ho := by
    rw [hf.ground.producer]
    exact hinv.produced f o ho
  fresh m f hp hm := by
    rw [hf.ground.producer] at hp
    have hmn : m ≠ n := by
      rintro rfl
      simp [hleaf] at hp
    rw [World.setNode_nodes_ne _ hmn]
    exact hinv.fresh m f hp hm
  unloaded f hm := hinv.unloaded f hm
  leaves m hp hk := by
    rw [hf.ground.producer] at hp
    by_cases hmn : m = n
    · subst hmn
      rw [World.setNode_nodes_self]
      exact hspec
    · rw [World.setNode_nodes_ne _ hmn] at hk ⊢
      exact hinv.leaves m hp hk
  edges f hm := (hinv.edges f hm).frame hf hinv.produced hm

lemma visitLeaf_ok (hinv : ScanInv env w) (hleaf : w.producer n = none)
    (hok : recomputeLeafDirty n w = .ok u w') : VisitPost env w w' n vs vs := by
  rcases recomputeLeafDirty_ok hok with ⟨rfl, hk⟩ | ⟨hunknown, mtime, htime, rfl⟩
  · exact ⟨hinv, .refl _, by simp [World.Visited, hleaf, hk], .refl _ _⟩
  · have hf := frame_setNode_leaf hleaf hunknown (g := fun m => { m with
      mtime := mtime
      existence := if mtime = 0 then .missing else .present
      dirty := decide (mtime = 0) }) rfl rfl
    refine ⟨hinv.setNode_leaf hleaf hf (by simp [htime]), hf, ?_, [], by simp, ?_⟩
    · rw [World.Visited, hf.ground.producer, hleaf]
      by_cases h0 : mtime = 0 <;> simp [Node.statusKnown, h0]
    · intro f hn hd
      simp [hn] at hd

lemma walk_spec (hcheck : IsCheck check) (fuel : Nat) (stack : List Path) :
    VisitSpec env fun n vs => walk env check fuel n stack vs := by
  induction fuel generalizing stack with
  | zero => exact fun w w' n vs vs' _ hok => absurd hok throw_ok
  | succ fuel ih =>
    intro w w' n vs vs' hinv hok
    simp only [walk, getNode_bind_ok] at hok
    cases hp : (w.nodes n).inEdge with
    | none =>
      rw [hp] at hok
      obtain ⟨_, _, hleaf, hok⟩ := bind_ok.mp hok
      obtain ⟨rfl, rfl⟩ := pure_ok.mp hok
      exact visitLeaf_ok hinv hp hleaf
    | some e =>
      rw [hp, getEdge_bind_ok] at hok
      split at hok
      · rename_i hdone
        obtain ⟨rfl, rfl⟩ := pure_ok.mp hok
        exact ⟨hinv, .refl _, by simp [World.Visited, World.producer, hp, hdone], .refl _ _⟩
      · rename_i hdone
        obtain ⟨_, _, hdag, hok⟩ := bind_ok.mp hok
        obtain ⟨hstack, rfl⟩ := hcheck.of_ok hdag
        have hmark : (w.edges e).mark = .none := by
          cases hm : (w.edges e).mark with
          | none => rfl
          | inStack => exact absurd hm hstack
          | done => exact absurd hm hdone
        obtain ⟨hinv', hframe, hdone', hc⟩ := recomputeEdgeDirty_ok (ih _) hinv hmark hok
        refine ⟨hinv', hframe, ?_, hc⟩
        rw [World.Visited, hframe.ground.producer, World.producer, hp]
        exact hdone'

lemma recomputeNodeDirty_spec (fuel : Nat) (stack : List Path) :
    VisitSpec env fun n vs => recomputeNodeDirty env fuel n stack vs := by
  rw [← walk_verifyDAG]
  exact walk_spec isCheck_verifyDAG fuel stack

lemma recomputeQueue_ok {fuel : Nat} {nodes : List Path} (hinv : ScanInv env w)
    (hok : recomputeQueue env fuel nodes vs w = .ok vs' w') :
    ScanInv env w' ∧ Frame w w' ∧ (∀ n ∈ nodes, w'.Visited n) ∧
      ∃ new, vs' = vs ++ new ∧ (∀ n ∈ new, w'.Visited n) ∧ Gathers env w w' new := by
  induction fuel generalizing w vs nodes with
  | zero =>
    cases nodes with
    | nil =>
      obtain ⟨rfl, rfl⟩ := pure_ok.mp hok
      exact ⟨hinv, .refl _, by simp, [], by simp, by simp, .refl _⟩
    | cons n nodes => exact absurd hok throw_ok
  | succ fuel ih =>
    cases nodes with
    | nil =>
      obtain ⟨rfl, rfl⟩ := pure_ok.mp hok
      exact ⟨hinv, .refl _, by simp, [], by simp, by simp, .refl _⟩
    | cons n nodes =>
      simp only [recomputeQueue, bind_ok] at hok
      obtain ⟨new, w₂, hvisit, hok⟩ := hok
      have hpost := recomputeNodeDirty_spec (fuel + 1) [] hinv hvisit
      obtain ⟨hinv', hframe, hvisited, new', rfl, hnew', hcollect⟩ := ih hpost.inv hok
      obtain ⟨new₁, hnew₁, hcollect₁⟩ := hpost.collects
      rw [List.nil_append] at hnew₁
      subst hnew₁
      refine ⟨hinv', hpost.frame.trans hframe, ?_, new ++ new', by simp, ?_, ?_⟩
      · intro m hm
        rcases List.mem_cons.mp hm with rfl | hm
        · exact hframe.visited hpost.visited
        · exact hvisited m (List.mem_append_left _ hm)
      · intro m hm
        rcases List.mem_append.mp hm with hm | hm
        · exact hvisited m (List.mem_append_right _ hm)
        · exact hnew' m hm
      · exact hcollect₁.trans hpost.frame.ground hpost.frame.unmet hframe hcollect

end Walk

/-! ### The result of a scan -/

/-- A graph without pending dyndep files, as it is before a scan or after `State.Reset`. -/
structure FreshGraph (w : World) : Prop where
  noPending : ∀ n, (w.nodes n).dyndepPending = false
  produced : ∀ e, ∀ o ∈ (w.edges e).outputs, w.producer o = some e
  nodes : ∀ n, (w.nodes n).existence = .unknown ∧ (w.nodes n).dirty = false
  edges : ∀ e, (w.edges e).mark = .none ∧ (w.edges e).depsLoaded = false

/-- The nodes that a target leads to, through inputs, dependencies on record and validations. -/
inductive Reach (env : Env) (w : World) (target : Path) : Path → Prop
  | target : Reach env w target target
  | input {n i : Path} {e : EdgeId} (hn : Reach env w target n) (he : w.producer n = some e)
      (hi : i ∈ (w.edges e).inputs ∨ i ∈ (recordedDeps env w e).getD []) : Reach env w target i
  | validation {n v : Path} {e : EdgeId} (hn : Reach env w target n) (he : w.producer n = some e)
      (hv : v ∈ (w.edges e).validations) : Reach env w target v

def World.withoutOrderOnly (w : World) (e : EdgeId) : World :=
  w.setEdge e fun x => { x with orderOnlyInputs := [] }

/-- What a scan of `target` in the graph of `w` has done when it returned `validations` and left
`w'`: it has kept the graph but for the dependencies that were loaded, has come to every node that
the target leads to, and has found out what the definitions say. -/
structure ScanResult (env : Env) (target : Path) (validations : List Path) (w w' : World) :
    Prop where
  ground : SameGround w w'
  loaded : ∀ e, (w'.edges e).mark = .done →
    (w'.edges e).implicitInputs = (w.edges e).implicitInputs ++ (recordedDeps env w e).getD []
  unmet : ∀ e, (w'.edges e).mark = .none → w'.edges e = w.edges e
  leaf : ∀ n, w'.producer n = none → w'.Visited n →
    ((w'.nodes n).dirty = true ↔ w'.disk.stat n = .ok 0)
  dirty : ∀ e, (w'.edges e).mark = .done → ∀ o ∈ (w'.edges e).outputs,
    (w'.nodes o).dirty = true ↔ EdgeDirty env w' e
  orderOnly : ∀ e, (w'.edges e).mark = .done → ∀ o ∈ (w'.edges e).outputs,
    (w'.nodes o).dirty = true →
      EdgeDirty env (w'.withoutOrderOnly e) e
  ready : ∀ e, (w'.edges e).mark = .done → ((w'.edges e).outputsReady = true ↔
    InputsReady w' e ∧
      (¬ EdgeDirty env w' e ∨ (w'.edges e).phony = true ∧ (w'.edges e).inputs = []))
  returned : ∀ e, (w'.edges e).mark = .done → (w'.edges e).validations ⊆ validations
  reached : ∀ n, Reach env w target n → w'.Visited n

section Result

variable {env : Env} {e : EdgeId} {w w' : World} {target : Path} {vs : List Path}

lemma FreshGraph.inv (h : FreshGraph w) : ScanInv env w where
  noPending := h.noPending
  produced := h.produced
  fresh n _ _ _ := h.nodes n
  unloaded e _ := (h.edges e).2
  leaves n _ hk := by simp [Node.statusKnown, (h.nodes n).1] at hk
  edges e hm := by simp [(h.edges e).1] at hm

lemma EdgeDirty.withoutOrderOnly (h : EdgeDirty env w e) :
    EdgeDirty env (w.withoutOrderOnly e) e := by
  have hedge : (w.withoutOrderOnly e).edges e = { w.edges e with orderOnlyInputs := [] } :=
    World.setEdge_edges_self _
  have hbinding : ∀ k, (w.withoutOrderOnly e).getBinding e k = w.getBinding e k := by
    intro k
    simp only [World.getBinding, hedge]
    rfl
  have hnon : ((w.withoutOrderOnly e).edges e).nonOrderOnlyInputs =
      (w.edges e).nonOrderOnlyInputs := by
    simp [Edge.nonOrderOnlyInputs, hedge]
  have hnewest : ∀ l, mostRecent (w.withoutOrderOnly e) l = mostRecent w l := fun l =>
    mostRecent_congr fun _ _ => rfl
  rcases h with hdeps | hin | ⟨o, ho, hdirty⟩
  · refine .inl ?_
    simp only [recordedDeps, hbinding, hedge] at hdeps ⊢
    exact hdeps
  · refine .inr (.inl ?_)
    rw [hnon]
    exact hin
  · refine .inr (.inr ⟨o, by rwa [hedge], ?_⟩)
    rw [hnon, hnewest]
    cases hp : (w.edges e).phony with
    | true =>
      -- without them the edge may have no inputs left, which makes it dirty
      simp only [outputDirty, hp, if_true, Bool.and_eq_true, decide_eq_true_eq] at hdirty
      obtain ⟨⟨hinputs, hval⟩, hmissing⟩ := hdirty
      have hnil : (w.edges e).explicitInputs ++ (w.edges e).implicitInputs = [] :=
        (List.append_eq_nil_iff.mp hinputs).1
      simp only [outputDirty, hedge, hp, if_true, Edge.inputs, hnil, hval, List.append_nil,
        decide_true, Bool.true_and]
      exact hmissing
    | false =>
      simp only [outputDirty, hedge, hp, hbinding, World.getBindingBool, World.evaluateCommand]
        at hdirty ⊢
      exact hdirty

/-- One edge that makes `o` from `i`, with a header `h` in the deps log, an order-only input `m`
that does not exist and a validation node `v`. -/
def scanSample : World where
  nodes n := if n = [111] then { inEdge := some 0 } else {}
  edges e := if e = 0 then
      { rule := fun
          | .deps => some [103, 99, 99]
          | _ => none
        explicitInputs := [[105]], orderOnlyInputs := [[109]], outputs := [[111]],
        validations := [[118]] }
    else {}
  edgeCount := 1
  depsLog := some { deps := fun o => if o = [111] then some ⟨7, [[104]]⟩ else none }
  disk := { entries := fun p =>
    if p = [105] ∨ p = [104] then some (.file 5 [] false) else
    if p = [111] then some (.file 7 [] false) else none }

lemma scanSample_fresh : FreshGraph scanSample where
  noPending n := by
    by_cases hn : n = [111] <;> simp [scanSample, hn]
  produced e o ho := by
    by_cases he : e = 0
    · subst he
      simp [scanSample] at ho
      simp [scanSample, World.producer, ho]
    · simp [scanSample, he] at ho
  nodes n := by
    by_cases hn : n = [111] <;> simp [scanSample, hn]
  edges e := by
    by_cases he : e = 0 <;> simp [scanSample, he]

end Result

end Reninja
