import Reninja.Scan.Spec

/-!
# The opening of an edge

The first part of the visit to an edge: the stat of its outputs and the loading of its dependencies.
No step of it touches other edges or the findings for their outputs.
-/

namespace Reninja

open Program World

variable {n : Path} {e : EdgeId}
variable {g : Node → Node}

/-! ### Steps of a visit -/

lemma ownStep_setEdge {e : EdgeId} (w : World) {g : Edge → Edge}
    (hg : (g (w.edges e)).SameStatement (w.edges e)) : OwnStep e w (w.setEdge e g) where
  ground :=
    { disk := rfl
      buildLog := rfl
      depsLog := rfl
      scopes := rfl
      producer := fun _ => rfl
      pending := fun _ => rfl
      statement := setEdge_forall (P := fun a b => b.SameStatement a) .refl hg }
  edges _ hf := setEdge_edges_ne _ hf
  nodes _ _ := .refl _

lemma sameGround_log (w : World) (ev : Event) : SameGround w (w.log ev) :=
  ⟨rfl, rfl, rfl, rfl, fun _ => rfl, fun _ => rfl, fun _ => .refl _⟩

lemma ownStep_log (w : World) (ev : Event) : OwnStep e w (w.log ev) :=
  ⟨sameGround_log w ev, fun _ _ => rfl, fun _ _ => .refl _⟩

lemma sameGround_setNode (w : World) (hedge : (g (w.nodes n)).inEdge = (w.nodes n).inEdge)
    (hpending : (g (w.nodes n)).dyndepPending = (w.nodes n).dyndepPending) :
    SameGround w (w.setNode n g) where
  disk := rfl
  buildLog := rfl
  depsLog := rfl
  scopes := rfl
  producer := setNode_forall (P := fun _ a b => b.inEdge = a.inEdge) (fun _ _ => rfl) hedge
  pending := setNode_forall (P := fun _ a b => b.dyndepPending = a.dyndepPending)
    (fun _ _ => rfl) hpending
  statement _ := .refl _

lemma ownStep_setNode (w : World) (hedge : (g (w.nodes n)).inEdge = (w.nodes n).inEdge)
    (hpending : (g (w.nodes n)).dyndepPending = (w.nodes n).dyndepPending)
    (hn : w.producer n = some e) : OwnStep e w (w.setNode n g) where
  ground := sameGround_setNode w hedge hpending
  edges _ _ := rfl
  nodes m hm := by
    have hmn : m ≠ n := by
      rintro rfl
      exact hm hn
    rw [setNode_nodes_ne _ hmn]
    exact .refl _

/-- Linking nodes to `e` as inputs: no finding changes. -/
structure Loads (e : EdgeId) (w w' : World) : Prop where
  ground : SameGround w w'
  edges : ∀ f, f ≠ e → w'.edges f = w.edges f
  nodes : ∀ n, (w'.nodes n).SameStatus (w.nodes n)
  edge : w'.edges e = { w.edges e with implicitInputs := (w'.edges e).implicitInputs }

section Loads

variable {e : EdgeId} {w w' w'' : World}

instance : Std.Refl (Loads e) := ⟨fun w => ⟨.refl w, fun _ _ => rfl, fun _ => .refl _, rfl⟩⟩

instance : IsTrans World (Loads e) where
  trans _ _ _ h₁ h₂ :=
    { ground := h₁.ground.trans h₂.ground
      edges := fun f hf => (h₂.edges f hf).trans (h₁.edges f hf)
      nodes := fun n => (h₂.nodes n).trans (h₁.nodes n)
      edge := by rw [h₂.edge, h₁.edge] }

lemma Loads.ownStep (h : Loads e w w') : OwnStep e w w' :=
  ⟨h.ground, h.edges, fun n _ => h.nodes n⟩

lemma addImplicitInputs_loads (nodes : List Path) :
    Moves (Loads e) w (addImplicitInputs e nodes) := by
  refine .bind (.modify ?_) fun _ _ _ =>
    Moves.bind (.forEach fun n _ t => .modify ?_) fun _ t _ => .modify ?_
  · exact ⟨sameGround_log w _, fun _ _ => rfl, fun _ => .refl _, rfl⟩
  · exact ⟨sameGround_setNode t rfl rfl, fun _ _ => rfl,
      setNode_forall (P := fun _ a b => b.SameStatus a) (fun _ _ => .refl _) ⟨rfl, rfl, rfl⟩, rfl⟩
  · have h := ownStep_setEdge (e := e) t (g := fun d =>
      { d with implicitInputs := d.implicitInputs ++ nodes })
      ⟨rfl, rfl, rfl, rfl, rfl, rfl, rfl, rfl⟩
    exact ⟨h.ground, h.edges, fun _ => .refl _, by simp⟩

lemma addImplicitInputs_returns (nodes : List Path) :
    ∃ w', addImplicitInputs e nodes w = .ok () w' ∧
    (w'.edges e).implicitInputs = (w.edges e).implicitInputs ++ nodes := by
  obtain ⟨t, ht, hedges⟩ := forEach_returns
    (f := fun n => updNode n fun m => { m with outEdges := m.outEdges ++ [e] })
    (I := fun t => t.edges = w.edges) (s := w.log (.linked e w.snapshot))
    (fun n _ t ht => ⟨_, updNode_apply _ _ _, ht⟩) rfl
  refine ⟨t.setEdge e fun d => { d with implicitInputs := d.implicitInputs ++ nodes }, ?_, ?_⟩
  · rw [addImplicitInputs, bind_apply]
    change (forEach nodes _ >>= fun _ => updEdge e _) (w.log (.linked e w.snapshot)) = _
    rw [bind_apply, ht]
    rfl
  · rw [setEdge_edges_self, hedges]

lemma loadDeps_loads (env : Env) : Moves (Loads e) w (loadDeps env e) :=
  loadDeps_moves env fun nodes _ => addImplicitInputs_loads nodes

end Loads

/-! ### The beginning of a visit -/

section Open

variable {env : Env} {e : EdgeId} {w w' : World}
variable {u : Unit}
variable {visit : Path → List Path → M (List Path)} {vs : List Path}

lemma firstOutput_ok {o : Path} (h : firstOutput e w = .ok o w') :
    (∃ os, (w.edges e).outputs = o :: os) ∧ w = w' := by
  rw [firstOutput, getEdge_bind_ok] at h
  cases ho : (w.edges e).outputs with
  | nil =>
    rw [ho] at h
    exact absurd h throw_ok
  | cons o' os =>
    rw [ho] at h
    obtain ⟨rfl, rfl⟩ := pure_ok.mp h
    exact ⟨⟨os, rfl⟩, rfl⟩

/-- The loader makes the dependencies on record implicit inputs, and returns whether there are
any on record. -/
lemma loadDeps_result {b : Bool}
    (htime : ∀ o ∈ (w.edges e).outputs.head?, (w.nodes o).mtime = w.fileTime o)
    (hok : loadDeps env e w = .ok b w') : b = (recordedDeps env w e).isSome ∧
      (w'.edges e).implicitInputs =
        (w.edges e).implicitInputs ++ (recordedDeps env w e).getD [] := by
  have hadd : ∀ {nodes : List Path},
      (do addImplicitInputs e nodes; pure true : M Bool) w = .ok b w' →
        b = true ∧ (w'.edges e).implicitInputs = (w.edges e).implicitInputs ++ nodes := by
    intro nodes h
    obtain ⟨t, ht, himplicit⟩ := addImplicitInputs_returns (e := e) (w := w) nodes
    rw [bind_apply, ht] at h
    obtain ⟨rfl, rfl⟩ := pure_ok.mp h
    exact ⟨rfl, himplicit⟩
  have hsame : ∀ {d : Bool}, (pure d : M Bool) w = .ok b w' →
      b = d ∧ (w'.edges e).implicitInputs = (w.edges e).implicitInputs ++ [] := by
    intro d h
    obtain ⟨rfl, rfl⟩ := pure_ok.mp h
    rw [List.append_nil]
    exact ⟨rfl, rfl⟩
  rw [loadDeps, get_bind_ok] at hok
  split at hok
  · rename_i hdeps
    simp only [loadDepsFromLog, bind_ok, get_ok] at hok
    obtain ⟨out, _, hout, _, _, ⟨rfl, rfl⟩, hok⟩ := hok
    obtain ⟨⟨os, hos⟩, rfl⟩ := firstOutput_ok hout
    have ht := htime out (by simp [hos])
    simp only [recordedDeps, if_pos hdeps, hos, List.headD_cons]
    cases hlog : w.depsLog.bind fun log => log.deps out with
    | none =>
      rw [hlog] at hok
      exact hsame hok
    | some deps =>
      rw [hlog] at hok
      simp only [ht] at hok ⊢
      split at hok
      · rename_i hnewer
        rw [if_pos hnewer]
        exact hsame hok
      · rename_i hnewer
        rw [if_neg hnewer]
        exact hadd hok
  · rename_i hdeps
    split at hok
    · rename_i hdepfile
      simp only [loadDepFile, bind_ok, get_ok, orError_ok] at hok
      obtain ⟨_, _, ⟨rfl, rfl⟩, content, _, ⟨hread, rfl⟩, out, _, hout, hok⟩ := hok
      obtain ⟨⟨os, hos⟩, rfl⟩ := firstOutput_ok hout
      simp only [recordedDeps, if_neg hdeps, if_pos hdepfile, hread, hos, List.headD_cons]
      cases hcontent : content.getD [] with
      | nil =>
        rw [hcontent] at hok
        exact hsame hok
      | cons c cs =>
        rw [hcontent] at hok
        simp only [depfileDeps, if_neg (List.cons_ne_nil c cs)] at hok ⊢
        cases hparse : env.parseDepfile (c :: cs) with
        | error err =>
          rw [hparse] at hok
          exact absurd hok throw_ok
        | ok r =>
          obtain ⟨outs, ins⟩ := r
          rw [hparse] at hok
          cases outs with
          | nil => exact absurd hok throw_ok
          | cons primaryOut outs =>
            dsimp only at hok ⊢
            split at hok
            · rename_i hne
              rw [if_neg hne]
              exact hsame hok
            · rename_i heq
              rw [if_pos (not_not.mp heq)]
              cases hfind : (primaryOut :: outs).find? (· ≠ out) with
              | some o =>
                rw [hfind] at hok
                exact absurd hok throw_ok
              | none =>
                rw [hfind] at hok
                exact hadd hok
    · rename_i hdepfile
      simp only [recordedDeps, if_neg hdeps, if_neg hdepfile]
      exact hsame hok

/-- Looking at some outputs of `e`: what was known stays, and a file that was not looked at
gets the time it has on disk. -/
structure Stats (e : EdgeId) (w w' : World) : Prop where
  own : OwnStep e w w'
  edges : w'.edges = w.edges
  dirty : ∀ n, (w'.nodes n).dirty = (w.nodes n).dirty
  time : ∀ n, ((w.nodes n).statusKnown = true → (w.nodes n).mtime = w.fileTime n) →
    (w'.nodes n).statusKnown = true → (w'.nodes n).mtime = w'.fileTime n
  known : ∀ n, (w.nodes n).statusKnown = true → (w'.nodes n).statusKnown = true

instance : Std.Refl (Stats e) :=
  ⟨fun w => ⟨.refl w, rfl, fun _ => rfl, fun _ h hk => h hk, fun _ hk => hk⟩⟩

instance : IsTrans World (Stats e) where
  trans _ _ _ h₁ h₂ :=
    { own := h₁.own.trans h₂.own
      edges := h₂.edges.trans h₁.edges
      dirty := fun n => (h₂.dirty n).trans (h₁.dirty n)
      time := fun n ht hk => h₂.time n (h₁.time n ht) hk
      known := fun n hk => h₂.known n (h₁.known n hk) }

lemma statIfNecessary_ok (hok : statIfNecessary n w = .ok u w') :
    w' = w ∧ (w.nodes n).statusKnown = true ∨
      (w.nodes n).statusKnown = false ∧ ∃ mtime, w.disk.stat n = .ok mtime ∧
        w' = w.setNode n fun m => { m with
          mtime := mtime, existence := if mtime = 0 then .missing else .present } := by
  rw [statIfNecessary, getNode_bind_ok] at hok
  split at hok
  · rename_i hk
    obtain ⟨-, rfl⟩ := pure_ok.mp hok
    exact .inl ⟨rfl, hk⟩
  · rename_i hk
    simp only [bind_ok, get_ok, orError_ok, updNode_ok] at hok
    obtain ⟨_, _, ⟨rfl, rfl⟩, mtime, _, ⟨hstat, rfl⟩, rfl⟩ := hok
    exact .inr ⟨by simpa using hk, mtime, hstat, rfl⟩

lemma statIfNecessary_stats (hn : w.producer n = some e) (hok : statIfNecessary n w = .ok u w') :
    Stats e w w' ∧ (w'.nodes n).statusKnown = true := by
  rcases statIfNecessary_ok hok with ⟨rfl, hk⟩ | ⟨hunknown, mtime, hstat, rfl⟩
  · exact ⟨Std.Refl.refl _, hk⟩
  · have hknown : ∀ m : Node, Node.statusKnown { m with
        mtime := mtime, existence := if mtime = 0 then .missing else .present } = true := by
      intro m
      by_cases h0 : mtime = 0 <;> simp [Node.statusKnown, h0]
    refine ⟨⟨ownStep_setNode w rfl rfl hn, rfl,
      setNode_forall (P := fun _ a b => b.dirty = a.dirty) (fun _ _ => rfl) rfl,
      fun m ht hk => ?_, setNode_forall (P := fun _ a b => a.statusKnown = true →
        b.statusKnown = true) (fun _ _ h => h) fun _ => hknown _⟩, ?_⟩
    · by_cases hm : m = n
      · subst hm
        simp [fileTime, setNode, hstat]
      · rw [setNode_nodes_ne _ hm] at hk ⊢
        exact ht hk
    · rw [setNode_nodes_self]
      exact hknown _

lemma forEach_stats {os : List Path} (hos : ∀ o ∈ os, w.producer o = some e)
    (hok : forEach os statIfNecessary w = .ok u w') :
    Stats e w w' ∧ ∀ o ∈ os, (w'.nodes o).statusKnown = true := by
  induction os generalizing w with
  | nil =>
    obtain ⟨-, rfl⟩ := pure_ok.mp hok
    exact ⟨Std.Refl.refl _, by simp⟩
  | cons o os ih =>
    obtain ⟨_, t, hstat, hok⟩ := bind_ok.mp hok
    obtain ⟨hst, hknown⟩ := statIfNecessary_stats (hos o (by simp)) hstat
    obtain ⟨hst', hknown'⟩ := ih (fun o' ho' => by
      rw [hst.own.ground.producer]
      exact hos o' (by simp [ho'])) hok
    refine ⟨IsTrans.trans _ _ _ hst hst', fun o' ho' => ?_⟩
    rcases List.mem_cons.mp ho' with rfl | ho'
    · exact hst'.known _ hknown
    · exact hknown' o' ho'

/-- The state of a visit when the inputs come next. -/
structure Opened (env : Env) (e : EdgeId) (w w' : World) (vs : List Path) (v : Visit) : Prop where
  own : OwnStep e w w'
  mark : (w'.edges e).mark = .inStack
  ready : (w'.edges e).outputsReady = true
  implicit : (w'.edges e).implicitInputs =
    (w.edges e).implicitInputs ++ (recordedDeps env w e).getD []
  clean : ∀ o, w.producer o = some e → (w'.nodes o).dirty = false
  dirty : v.dirty = true ↔ recordedDeps env w' e = none
  newest : v.newest = none
  validations : v.validations = vs ++ (w.edges e).validations

lemma loadDepsOnce_ok {b : Bool} (hloaded : (w.edges e).depsLoaded = false)
    (htime : ∀ o ∈ (w.edges e).outputs.head?, (w.nodes o).mtime = w.fileTime o)
    (hok : loadDepsOnce env e w = .ok b w') :
    OwnStep e w w' ∧ (∀ n, (w'.nodes n).SameStatus (w.nodes n)) ∧
      (w'.edges e).mark = (w.edges e).mark ∧
      (w'.edges e).outputsReady = (w.edges e).outputsReady ∧
      (w'.edges e).implicitInputs =
        (w.edges e).implicitInputs ++ (recordedDeps env w e).getD [] ∧
      (b = true ↔ recordedDeps env w' e = none) := by
  rw [loadDepsOnce, getEdge_bind_ok] at hok
  rw [if_neg (by simp [hloaded])] at hok
  simp only [bind_ok, updEdge_ok] at hok
  obtain ⟨_, w₁, rfl, loaded, w₂, hload, hok⟩ := hok
  have h₁ : OwnStep e w (w.setEdge e fun x => { x with depsLoaded := true }) :=
    ownStep_setEdge w ⟨rfl, rfl, rfl, rfl, rfl, rfl, rfl, rfl⟩
  have h₂ := (loadDeps_loads env).of_ok hload
  obtain ⟨hloaded', himplicit⟩ := loadDeps_result (by
    intro o ho
    simp only [setEdge_edges_self] at ho
    rw [h₁.ground.fileTime]
    exact htime o ho) hload
  rw [h₁.ground.recordedDeps, setEdge_edges_self] at himplicit
  rw [← h₂.ground.recordedDeps] at hloaded'
  have hmark : (w₂.edges e).mark = (w.edges e).mark := by
    rw [h₂.edge]
    simp
  have hready : (w₂.edges e).outputsReady = (w.edges e).outputsReady := by
    rw [h₂.edge]
    simp
  cases loaded with
  | true =>
    obtain ⟨rfl, rfl⟩ := pure_ok.mp hok
    refine ⟨h₁.trans h₂.ownStep, h₂.nodes, hmark, hready, himplicit, ?_⟩
    simpa [Option.isSome_iff_ne_none] using hloaded'.symm
  | false =>
    simp only [setDepsMissing, Bool.false_eq_true, if_false, bind_ok, updEdge_ok] at hok
    obtain ⟨_, w₃, rfl, hok⟩ := hok
    obtain ⟨rfl, rfl⟩ := pure_ok.mp hok
    have h₃ : OwnStep e w₂ (w₂.setEdge e fun x => { x with depsMissing := true }) :=
      ownStep_setEdge w₂ ⟨rfl, rfl, rfl, rfl, rfl, rfl, rfl, rfl⟩
    refine ⟨(h₁.trans h₂.ownStep).trans h₃, h₂.nodes, by simpa using hmark,
      by simpa using hready, by simpa using himplicit, ?_⟩
    rw [h₃.ground.recordedDeps]
    simpa using hloaded'.symm

/-- The state in which a visit looks at the outputs. -/
def World.entered (w : World) (e : EdgeId) : World :=
  (w.log (.scanned e w.snapshot)).setEdge e fun x =>
    { x with mark := .inStack, outputsReady := true, depsMissing := false }

lemma ownStep_entered (w : World) (e : EdgeId) : OwnStep e w (w.entered e) :=
  (ownStep_log w _).trans (ownStep_setEdge _ ⟨rfl, rfl, rfl, rfl, rfl, rfl, rfl, rfl⟩)

lemma World.entered_edges_self (w : World) (e : EdgeId) : (w.entered e).edges e =
    { w.edges e with mark := .inStack, outputsReady := true, depsMissing := false } :=
  setEdge_edges_self _

/-- There being no dyndep file to visit, opening an edge is looking at its outputs and loading
its dependencies. -/
lemma openEdge_apply (hinv : ScanInv env w) (hmark : (w.edges e).mark = .none)
    (visit : Path → List Path → M (List Path)) (vs : List Path) : openEdge env visit e vs w =
      (do
        forEach (w.edges e).outputs statIfNecessary
        let dirty ← loadDepsOnce env e
        let edge ← getEdge e
        pure { dirty := dirty, newest := none, validations := vs ++ edge.validations } : M Visit)
        (w.entered e) := by
  have hdyn : visitDyndepOnce env visit e vs (w.entered e) = .ok vs (w.entered e) := by
    have hloaded : ((w.entered e).edges e).depsLoaded = false := by
      rw [entered_edges_self]
      exact hinv.unloaded e hmark
    rw [visitDyndepOnce, bind_apply, getEdge_apply]
    simp only [hloaded, Bool.false_eq_true, if_false, visitDyndep, bind_apply, get_apply]
    cases ((w.entered e).edges e).dyndep with
    | none => rfl
    | some d =>
      have hpending : ((w.entered e).nodes d).dyndepPending = false := hinv.noPending d
      simp only [hpending, Bool.false_eq_true, if_false]
      rfl
  rw [openEdge, bind_apply, note_apply]
  change (updEdge e _ >>= _) (w.log (.scanned e w.snapshot)) = _
  rw [bind_apply, updEdge_apply]
  change (visitDyndepOnce env visit e vs >>= _) (w.entered e) = _
  rw [bind_apply, hdyn]
  dsimp only
  rw [bind_apply, getEdge_apply]
  simp only [entered_edges_self]

/-- The outputs were not looked at before: when the dependencies are loaded, they have the times
of their files. -/
lemma openEdge_stages (hinv : ScanInv env w) (hmark : (w.edges e).mark = .none) {v : Visit}
    (hok : openEdge env visit e vs w = .ok v w') :
    ∃ w₂, Stats e (w.entered e) w₂ ∧ (w₂.edges e).depsLoaded = false ∧
      (∀ o ∈ (w₂.edges e).outputs.head?, (w₂.nodes o).mtime = w₂.fileTime o) ∧
      loadDepsOnce env e w₂ = .ok v.dirty w' ∧ v.newest = none ∧
      v.validations = vs ++ (w'.edges e).validations := by
  rw [openEdge_apply hinv hmark] at hok
  simp only [bind_ok, getEdge_ok] at hok
  obtain ⟨_, w₂, hstat, d, w₃, hload, _, _, ⟨rfl, rfl⟩, hok⟩ := hok
  obtain ⟨rfl, rfl⟩ := pure_ok.mp hok
  have hproduced : ∀ o ∈ (w.edges e).outputs, (w.entered e).producer o = some e := hinv.produced e
  obtain ⟨hst, hknown⟩ := forEach_stats hproduced hstat
  refine ⟨w₂, hst, ?_, fun o ho => ?_, hload, rfl, rfl⟩
  · rw [hst.edges, entered_edges_self]
    exact hinv.unloaded e hmark
  · have ho : o ∈ (w.edges e).outputs := by
      rw [hst.edges, entered_edges_self] at ho
      exact List.mem_of_mem_head? ho
    refine hst.time o (fun hk => ?_) (hknown o ho)
    have hunknown : (w.nodes o).existence = .unknown :=
      (hinv.fresh o e (hinv.produced e o ho) hmark).1
    change (w.nodes o).statusKnown = true at hk
    simp [Node.statusKnown, hunknown] at hk

lemma openEdge_ok (hinv : ScanInv env w) (hmark : (w.edges e).mark = .none) {v : Visit}
    (hok : openEdge env visit e vs w = .ok v w') : Opened env e w w' vs v := by
  obtain ⟨w₂, h₂, hloaded, htime, hload, hnewest, hvalidations⟩ := openEdge_stages hinv hmark hok
  obtain ⟨h₃, hstatus, hm, hr, himplicit, hd⟩ := loadDepsOnce_ok hloaded htime hload
  have hentered := (ownStep_entered w e).trans h₂.own
  have hown := hentered.trans h₃
  refine ⟨hown, ?_, ?_, ?_, fun o ho => ?_, hd, hnewest, ?_⟩
  · rw [hm, h₂.edges, entered_edges_self]
  · rw [hr, h₂.edges, entered_edges_self]
  · rw [himplicit, hentered.ground.recordedDeps, h₂.edges, entered_edges_self]
  · rw [(hstatus o).dirty, h₂.dirty o]
    exact (hinv.fresh o e ho hmark).2
  · rw [hvalidations, (hown.ground.statement e).validations]

end Open

end Reninja
