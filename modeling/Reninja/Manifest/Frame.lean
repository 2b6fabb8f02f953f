import Reninja.Manifest.Links

/-!
# What loading a dyndep file changes

`UpdateEdge` adds inputs and outputs to its own edge only, but it sets `restat` in the scope of
the edge, and an edge without bindings of its own shares that scope with the rest of the file.
-/

namespace Reninja

open Program Key

/-! ### The edges -/

/-- What stays of an edge whose dyndep file is loaded. -/
structure Edge.SameManifest (a b : Edge) : Prop where
  scope : b.scope = a.scope
  parents : b.parents = a.parents
  dyndep : b.dyndep = a.dyndep
  explicitInputs : b.explicitInputs = a.explicitInputs
  explicitOutputs : b.outputs.take (b.outputs.length - b.implicitOuts) =
    a.outputs.take (a.outputs.length - a.implicitOuts)

/-- Only edges that name `node` as their dyndep file have changed, and only by new inputs and
outputs. -/
structure EdgesKept (node : Path) (w w' : World) : Prop where
  others : ∀ f, (w.edges f).dyndep ≠ some node → w'.edges f = w.edges f
  manifest : ∀ f, (w.edges f).SameManifest (w'.edges f)

lemma Edge.SameManifest.refl (a : Edge) : a.SameManifest a := ⟨rfl, rfl, rfl, rfl, rfl⟩

lemma Edge.SameManifest.trans {a b c : Edge} (h₁ : a.SameManifest b) (h₂ : b.SameManifest c) :
    a.SameManifest c where
  scope := h₂.scope.trans h₁.scope
  parents := h₂.parents.trans h₁.parents
  dyndep := h₂.dyndep.trans h₁.dyndep
  explicitInputs := h₂.explicitInputs.trans h₁.explicitInputs
  explicitOutputs := h₂.explicitOutputs.trans h₁.explicitOutputs

section Edges

variable {node : Path} {w : World} {e : EdgeId}

instance : Std.Refl (EdgesKept node) := ⟨fun w => ⟨fun _ _ => rfl, fun f => .refl (w.edges f)⟩⟩

instance : IsTrans World (EdgesKept node) where
  trans _ _ _ h₁ h₂ :=
    { others := fun f hf =>
        (h₂.others f (by rwa [(h₁.manifest f).dyndep])).trans (h₁.others f hf)
      manifest := fun f => (h₁.manifest f).trans (h₂.manifest f) }

lemma edgesKept_of_eq {w' : World} (h : w'.edges = w.edges) : EdgesKept node w w' := by
  refine ⟨fun f _ => by rw [h], fun f => ?_⟩
  rw [h]
  exact .refl _

lemma edgesKept_setEdge {g : Edge → Edge} (he : (w.edges e).dyndep = some node)
    (hg : (w.edges e).SameManifest (g (w.edges e))) : EdgesKept node w (w.setEdge e g) := by
  refine ⟨fun f hf => World.setEdge_edges_ne _ ?_, fun f => ?_⟩
  · rintro rfl
    exact hf he
  · by_cases hf : f = e
    · subst hf
      rw [World.setEdge_edges_self]
      exact hg
    · rw [World.setEdge_edges_ne _ hf]
      exact .refl _

/-- The explicit outputs stay the same when implicit ones are added. -/
lemma sameManifest_withOutputs (d : Dyndeps) (x : Edge) : x.SameManifest (withOutputs d x) := by
  refine ⟨rfl, rfl, rfl, rfl, ?_⟩
  simp only [withOutputs, List.length_append]
  rw [Nat.add_sub_add_right, List.take_append_of_le_length (Nat.sub_le _ _)]

/-- A program that keeps the scopes and changes edges only as above. -/
def EdgesAndScopesKept (node : Path) (w w' : World) : Prop :=
  EdgesKept node w w' ∧ w'.scopes = w.scopes

instance : Std.Refl (EdgesAndScopesKept node) := ⟨fun _ => ⟨Std.Refl.refl _, rfl⟩⟩

instance : IsTrans World (EdgesAndScopesKept node) :=
  ⟨fun _ _ _ h₁ h₂ => ⟨IsTrans.trans _ _ _ h₁.1 h₂.1, h₂.2.trans h₁.2⟩⟩

lemma connectOutput_kept (o : Path) :
    Moves (EdgesAndScopesKept node) w (connectOutput e o) := by
  refine .bind (getNode_moves o) fun m t _ => .ite (fun _ => .throw _) fun _ => ?_
  refine .bind (.modify ⟨edgesKept_of_eq rfl, rfl⟩) fun _ t _ => ?_
  exact .modify ⟨edgesKept_of_eq rfl, rfl⟩

lemma connectStatement_kept (d : Dyndeps) (he : (w.edges e).dyndep = some node) :
    Moves (EdgesAndScopesKept node) w (connectStatement e d) := by
  refine .bind (.forEach fun o _ _ => connectOutput_kept o) fun _ t ht => ?_
  have hkept : EdgesAndScopesKept node w t :=
    (.forEach fun o _ _ => connectOutput_kept o : Moves _ w _).of_ok ht
  have he' : (t.edges e).dyndep = some node := ((hkept.1.manifest e).dyndep).trans he
  refine .bind (.modify ⟨edgesKept_of_eq rfl, rfl⟩) fun _ t' ht' => ?_
  obtain rfl := note_ok.mp ht'
  refine .bind (.modify ⟨edgesKept_setEdge he' ⟨rfl, rfl, rfl, rfl, rfl⟩, rfl⟩)
    fun _ t' _ => ?_
  exact .forEach fun n _ t => .modify ⟨edgesKept_of_eq rfl, rfl⟩

end Edges

/-! ### The scopes -/

def SetsRestat (S : List ScopeId) (w w' : World) : Prop :=
  ∀ s k, w'.scopes s k = if k = .restat ∧ s ∈ S then some ("1" : GoString) else w.scopes s k

/-- Take outputs that nobody produces; `given` are already taken. It fails at an output that is
taken or produced. -/
def claimOutputs (w : World) : List Path → List Path → Option (List Path)
  | given, [] => some given
  | given, o :: os =>
    if (w.producer o).isSome ∨ o ∈ given then none else claimOutputs w (o :: given) os

/-- The edges whose statements set `restat`, in the order of the loader. It stops at an edge
without a statement and at an output that is taken. -/
def restatEdges (w : World) (node : Path) (ddf : DyndepFile) :
    List EdgeId → List Path → List EdgeId
  | [], _ => []
  | e :: es, given =>
    if (w.edges e).dyndep = some node then
      match ddf.find? fun p => p.1 = e with
      | none => []
      | some p =>
        (if p.2.restat then [e] else []) ++
          match claimOutputs w given p.2.implicitOutputs with
          | none => []
          | some given => restatEdges w node ddf es given
    else
      restatEdges w node ddf es given

section Scopes

variable {node : Path} {w t t' : World} {e : EdgeId}
variable {given : List Path} {ddf : DyndepFile}

lemma SetsRestat.trans {S S' : List ScopeId} {w₁ w₂ w₃ : World} (h₁ : SetsRestat S w₁ w₂)
    (h₂ : SetsRestat S' w₂ w₃) : SetsRestat (S ++ S') w₁ w₃ := by
  intro s k
  rw [h₂, h₁]
  by_cases hk : k = .restat <;> by_cases hs : s ∈ S <;> by_cases hs' : s ∈ S' <;>
    simp [hk, hs, hs']

lemma SetsRestat.nil (h : t'.scopes = t.scopes) : SetsRestat [] t t' := by
  intro s k
  simp [h]

lemma setRestat_sets (restat : Bool) :
    SetsRestat (if restat then [(t.edges e).scope] else []) t
      (finalState (setRestat e restat t)) := by
  intro s k
  cases restat with
  | false => simp [setRestat, finalState, modify_apply]
  | true =>
    simp only [setRestat, modify_apply, finalState, if_true, List.mem_singleton]
    by_cases hs : s = (t.edges e).scope
    · subst hs
      by_cases hk : k = .restat
      · subst hk
        simp
      · simp [hk]
    · simp [hs]

/-- The outputs that are taken in `t`, which is `w` after some statements. -/
def Claimed (w : World) (given : List Path) (t : World) : Prop :=
  ∀ n, (t.producer n).isSome = true ↔ (w.producer n).isSome = true ∨ n ∈ given

lemma Claimed.connectOutput {o : Path} (h : Claimed w given t)
    (ho : ¬ ((w.producer o).isSome = true ∨ o ∈ given)) :
    ∃ t', connectOutput e o t = .ok () t' ∧ Claimed w (o :: given) t' := by
  have hnone : t.producer o = none := by
    rw [← h] at ho
    simpa using ho
  obtain ⟨t', hok, produces⟩ := connectOutput_produces (e := e) hnone
  refine ⟨t', hok, fun n => ?_⟩
  rw [produces.producer]
  by_cases hn : n = o
  · simp [hn]
  · simp [hn, h n]

/-- The loop over the outputs succeeds exactly when they can be claimed. -/
lemma Claimed.connectOutputs (os : List Path) (h : Claimed w given t) :
    match claimOutputs w given os with
    | some given' => ∃ t', forEach os (Reninja.connectOutput e) t = .ok () t' ∧ Claimed w given' t'
    | none => ∃ err t', forEach os (Reninja.connectOutput e) t = .error err t' := by
  induction os generalizing given t with
  | nil => exact ⟨t, rfl, h⟩
  | cons o os ih =>
    rw [claimOutputs]
    by_cases ho : (w.producer o).isSome = true ∨ o ∈ given
    · rw [if_pos ho]
      have hsome := (h o).mpr ho
      refine ⟨.error ("multiple rules generate " ++ o), t, ?_⟩
      rw [forEach, bind_apply, Reninja.connectOutput, bind_apply,
        show getNode o t = .ok (t.nodes o) t from rfl]
      simp only [show ((t.nodes o).inEdge).isSome = true from hsome, if_true]
      rfl
    · rw [if_neg ho]
      obtain ⟨t₁, hok₁, h₁⟩ := h.connectOutput (e := e) ho
      have rest := ih h₁
      split at rest
      · obtain ⟨t₂, hok₂, h₂⟩ := rest
        exact ⟨t₂, bind_ok.mpr ⟨(), t₁, hok₁, hok₂⟩, h₂⟩
      · obtain ⟨err, t₂, herr⟩ := rest
        refine ⟨err, t₂, ?_⟩
        rw [forEach, bind_apply, hok₁]
        exact herr

/-- One statement: it goes through exactly when its outputs can be claimed. -/
lemma Claimed.updateDyndepEdge (d : Dyndeps) (h : Claimed w given t) :
    match claimOutputs w given d.implicitOutputs with
    | some given' => ∃ t', Reninja.updateDyndepEdge e d t = .ok () t' ∧ Claimed w given' t'
    | none => ∃ err t', Reninja.updateDyndepEdge e d t = .error err t' := by
  obtain ⟨hedges, hnodes⟩ := setRestat_graph e d.restat t
  have heq := updateDyndepEdge_eq e d t
  have h₁ : Claimed w given ((finalState (setRestat e d.restat t)).setEdge e (withOutputs d)) := by
    intro n
    rw [World.setEdge_producer, World.producer, hnodes]
    exact h n
  have outs := h₁.connectOutputs (e := e) d.implicitOutputs
  split at outs
  · obtain ⟨t₂, hok₂, h₂⟩ := outs
    obtain ⟨t₃, hok₃, hin⟩ := forEach_readers e d.implicitInputs
      ((t₂.log (.linked e t₂.snapshot)).setEdge e (withInputs d))
    refine ⟨t₃, ?_, fun n => ?_⟩
    · rw [heq]
      exact bind_ok.mpr ⟨(), t₂, hok₂, bind_ok.mpr ⟨(), _, rfl, bind_ok.mpr ⟨(), _, rfl, hok₃⟩⟩⟩
    · rw [hin.producer]
      exact h₂ n
  · obtain ⟨err, t₂, herr⟩ := outs
    refine ⟨err, t₂, ?_⟩
    rw [heq, connectStatement, bind_apply, herr]

/-- What a statement changes besides the links, however it ends. -/
lemma updateDyndepEdge_frame (d : Dyndeps) (he : (t.edges e).dyndep = some node) :
    EdgesKept node t (finalState (updateDyndepEdge e d t)) ∧
      SetsRestat (if d.restat then [(t.edges e).scope] else []) t
        (finalState (updateDyndepEdge e d t)) := by
  obtain ⟨hedges, -⟩ := setRestat_graph e d.restat t
  have sets := setRestat_sets (t := t) (e := e) d.restat
  rw [updateDyndepEdge_eq]
  generalize finalState (setRestat e d.restat t) = t₁ at hedges sets
  have he₁ : (t₁.edges e).dyndep = some node := by rw [hedges, he]
  have outs : EdgesKept node t₁ (t₁.setEdge e (withOutputs d)) :=
    edgesKept_setEdge he₁ (sameManifest_withOutputs d _)
  have he₂ : ((t₁.setEdge e (withOutputs d)).edges e).dyndep = some node :=
    (outs.manifest e).dyndep.trans he₁
  obtain ⟨hk, hs⟩ := connectStatement_kept d he₂
  constructor
  · exact IsTrans.trans _ _ _ (edgesKept_of_eq hedges) (IsTrans.trans _ _ _ outs hk)
  · intro s k
    rw [hs]
    exact sets s k

lemma updateIfNamed_other (ddf : DyndepFile) (he : (t.edges e).dyndep ≠ some node) :
    updateIfNamed node ddf e t = .ok () t := by
  rw [updateIfNamed, bind_apply, show getEdge e t = .ok (t.edges e) t from rfl]
  simp only [he, if_false]
  rfl

lemma updateIfNamed_missing (he : (t.edges e).dyndep = some node)
    (hf : (ddf.find? fun p => p.1 = e) = none) :
    ∃ err, updateIfNamed node ddf e t = .error err t := by
  rw [updateIfNamed, bind_apply, show getEdge e t = .ok (t.edges e) t from rfl]
  simp only [he, if_true, hf]
  exact ⟨_, rfl⟩

lemma updateIfNamed_stated {p : EdgeId × Dyndeps} (he : (t.edges e).dyndep = some node)
    (hf : (ddf.find? fun p => p.1 = e) = some p) :
    updateIfNamed node ddf e t = updateDyndepEdge e p.2 t := by
  rw [updateIfNamed, bind_apply, show getEdge e t = .ok (t.edges e) t from rfl]
  simp only [he, if_true, hf]

lemma updateEdges_frame (ddf : DyndepFile) (es : List EdgeId) (hclaimed : Claimed w given t)
    (hkept : EdgesKept node w t) :
    EdgesKept node t (finalState (forEach es (updateIfNamed node ddf) t)) ∧
      SetsRestat ((restatEdges w node ddf es given).map fun e => (w.edges e).scope) t
        (finalState (forEach es (updateIfNamed node ddf) t)) := by
  induction es generalizing t given with
  | nil => exact ⟨Std.Refl.refl t, SetsRestat.nil rfl⟩
  | cons e es ih =>
    have hdyndep := (hkept.manifest e).dyndep
    rw [forEach, restatEdges, bind_apply]
    by_cases he : (w.edges e).dyndep = some node
    · have he' : (t.edges e).dyndep = some node := hdyndep.trans he
      rw [if_pos he]
      cases hf : ddf.find? fun p => p.1 = e with
      | none =>
        obtain ⟨err, herr⟩ := updateIfNamed_missing he' hf
        rw [herr]
        exact ⟨Std.Refl.refl t, SetsRestat.nil rfl⟩
      | some p =>
        rw [updateIfNamed_stated he' hf]
        obtain ⟨hk, hs⟩ := updateDyndepEdge_frame p.2 he'
        have outcome := hclaimed.updateDyndepEdge (e := e) p.2
        rw [(hkept.manifest e).scope] at hs
        have hmap : ((if p.2.restat then [e] else []).map fun e => (w.edges e).scope) =
            if p.2.restat then [(w.edges e).scope] else [] := by
          split <;> rfl
        simp only [List.map_append, hmap]
        cases hgiven : claimOutputs w given p.2.implicitOutputs with
        | some given' =>
          rw [hgiven] at outcome
          obtain ⟨t', hok, hclaimed'⟩ := outcome
          rw [hok] at hk hs ⊢
          obtain ⟨hk', hs'⟩ := ih hclaimed' (IsTrans.trans _ _ _ hkept hk)
          exact ⟨IsTrans.trans _ _ _ hk hk', hs.trans hs'⟩
        | none =>
          rw [hgiven] at outcome
          obtain ⟨err, t', herr⟩ := outcome
          rw [herr] at hk hs ⊢
          refine ⟨hk, ?_⟩
          simpa using hs
    · rw [if_neg he, updateIfNamed_other ddf (by rwa [hdyndep])]
      exact ih hclaimed hkept

def dyndepRestats (env : Env) (w : World) (node : Path) : List EdgeId :=
  restatEdges w node (dyndepStatements env w node) (w.nodes node).outEdges []

lemma restatEdges_nil (w : World) (node : Path) (es : List EdgeId) (given : List Path) :
    restatEdges w node [] es given = [] := by
  induction es with
  | nil => rfl
  | cons e es ih =>
    rw [restatEdges]
    split
    · rfl
    · exact ih

lemma dyndepStatements_of_error {env : Env} {err : Failure} {w₁ : World}
    (h : loadDyndepFile env node w₁ = .error err t) (hdisk : w₁.disk = w.disk)
    (hprod : ∀ n, w₁.producer n = w.producer n) :
    dyndepStatements env w node = [] ∧ t = w₁ := by
  constructor
  · rw [dyndepStatements]
    cases hw : loadDyndepFile env node w with
    | ok ddf w' =>
      have hsame := (loadDyndepFile_ok (w := w₁) hw hdisk.symm fun n => (hprod n).symm).2
      rw [dyndepStatements, h] at hsame
      exact hsame.symm
    | error err w' => rfl
  · have := loadDyndepFile_moves (R := fun v v' : World => v' = v) (w := w₁) env node
    rw [Moves, h] at this
    exact this

def notPending (m : Node) : Node := { m with dyndepPending := false }

lemma updNode_notPending (node : Path) (w : World) :
    updNode node (fun m => { m with dyndepPending := false }) w =
      .ok () (w.setNode node notPending) := rfl

lemma loadDyndeps_final {env : Env}
    (hl : loadDyndepFile env node (w.setNode node notPending) = .ok ddf t) :
    finalState (loadDyndeps env node w) =
      finalState (forEach (w.nodes node).outEdges (updateIfNamed node ddf)
        (t.log (.dyndepUpdate node ddf t.snapshot))) := by
  have ht : t = w.setNode node notPending := (loadDyndepFile_ok hl rfl fun _ => rfl).1
  have hout : (t.nodes node).outEdges = (w.nodes node).outEdges := by
    rw [ht, World.setNode_nodes_self]
    rfl
  rw [← hout, loadDyndeps, bind_apply, updNode_notPending]
  simp only
  rw [bind_apply, hl]
  refine finalState_bind (m := forEach (t.nodes node).outEdges (updateIfNamed node ddf))
    (s := t.log (.dyndepUpdate node ddf t.snapshot)) fun u t' => ?_
  rw [bind_apply, get_apply]
  simp only
  generalize List.find? _ _ = found
  cases found <;> rfl

/-- What loading a dyndep file changes besides the links, however it ends. -/
lemma loadDyndeps_frame (env : Env) (node : Path) (w : World) :
    EdgesKept node w (finalState (loadDyndeps env node w)) ∧
      SetsRestat ((dyndepRestats env w node).map fun e => (w.edges e).scope) w
        (finalState (loadDyndeps env node w)) := by
  have same := w.sameLinks_setNode node (g := notPending) rfl rfl
  cases hl : loadDyndepFile env node (w.setNode node notPending) with
  | error err t =>
    obtain ⟨hnil, rfl⟩ := dyndepStatements_of_error (w := w) hl rfl same.producer
    have hfinal : finalState (loadDyndeps env node w) = w.setNode node notPending := by
      rw [loadDyndeps, bind_apply, updNode_notPending]
      simp only
      rw [bind_apply, hl]
      rfl
    rw [dyndepRestats, hnil, restatEdges_nil, hfinal]
    exact ⟨edgesKept_of_eq rfl, SetsRestat.nil rfl⟩
  | ok ddf t =>
    obtain ⟨rfl, rfl⟩ := loadDyndepFile_ok (w := w) hl rfl same.producer
    rw [loadDyndeps_final hl]
    have hclaimed : Claimed w [] ((w.setNode node notPending).log
        (.dyndepUpdate node (dyndepStatements env w node)
          (w.setNode node notPending).snapshot)) := by
      intro n
      rw [World.log_producer, same.producer]
      simp
    have hkept : EdgesKept node w ((w.setNode node notPending).log
        (.dyndepUpdate node (dyndepStatements env w node) (w.setNode node notPending).snapshot)) :=
      edgesKept_of_eq rfl
    obtain ⟨hk, hs⟩ := updateEdges_frame (dyndepStatements env w node) (w.nodes node).outEdges
      hclaimed hkept
    exact ⟨IsTrans.trans _ _ _ hkept hk, hs⟩

end Scopes

/-! ### The bindings -/

namespace State

def afterDyndeps (env : Env) (st : State) (node : Path) : State :=
  { st with world := finalState (loadDyndeps env node st.world) }

def restatScopes (env : Env) (st : State) (node : Path) : List ScopeId :=
  (dyndepRestats env st.world node).map fun e => (st.world.edges e).scope

/-- The edge reads `restat` from one of the scopes `S`, if it is set there: from its own scope,
or, when neither that scope nor its rule define it, from the first scope around that does. -/
def ReadsRestatFrom (st : State) (S : List ScopeId) (f : EdgeId) : Prop :=
  (st.world.edges f).scope ∈ S ∨
    st.binding (st.world.edges f).scope restat.name = none ∧
      (st.edgeRule f).bindings restat.name = none ∧
        ∃ s ∈ (st.world.edges f).parents.find?
          (fun s => s ∈ S ∨ (st.binding s restat.name).isSome), s ∈ S

section Bindings

variable {env : Env} {st : State} {node : Path} {f : EdgeId} {v value : GoString}

lemma afterDyndeps_builtin (b : Bool) :
    (st.afterDyndeps env node).builtin f b v = st.builtin f b v := by
  have h := (loadDyndeps_frame env node st.world).1.manifest f
  simp only [builtin, afterDyndeps, h.explicitInputs, h.explicitOutputs]

lemma afterDyndeps_binding (s : ScopeId) :
    (st.afterDyndeps env node).binding s v =
      if v = restat.name ∧ s ∈ st.restatScopes env node then some ("1" : GoString)
      else st.binding s v := by
  have h := (loadDyndeps_frame env node st.world).2 s
  simp only [binding, afterDyndeps, restatScopes]
  cases hk : ofName v with
  | none =>
    have hv : v ≠ restat.name := by
      rintro rfl
      rw [ofName_name] at hk
      exact absurd hk (by simp)
    simp [hv]
  | some k =>
    have hname := name_of_ofName hk
    simp only [h k]
    by_cases hr : k = .restat
    · subst hr
      simp [hname]
    · have hv : v ≠ restat.name := by
        rintro rfl
        rw [ofName_name] at hk
        exact hr (Option.some.inj hk).symm
      simp [hr, hv]

/-- Where the scopes around first define `restat`, when some of them get it set. -/
lemma findSome?_restat {S : List ScopeId} {read : ScopeId → Option GoString}
    (parents : List ScopeId) :
    (parents.findSome? fun s => if s ∈ S then some ("1" : GoString) else read s) =
      match parents.find? fun s => s ∈ S ∨ (read s).isSome with
      | some s => if s ∈ S then some ("1" : GoString) else parents.findSome? read
      | none => parents.findSome? read := by
  induction parents with
  | nil => rfl
  | cons s parents ih =>
    by_cases hs : s ∈ S
    · simp [hs]
    · cases hr : read s with
      | some a => simp [hs, hr]
      | none => simp [hs, hr, ih]

lemma afterDyndeps_parents (v : GoString) :
    (((st.afterDyndeps env node).world.edges f).parents.findSome? fun s =>
      (st.afterDyndeps env node).binding s v) =
      (st.world.edges f).parents.findSome? fun s =>
        if v = restat.name ∧ s ∈ st.restatScopes env node then some ("1" : GoString)
        else st.binding s v := by
  have h := (loadDyndeps_frame env node st.world).1.manifest f
  simp only [afterDyndeps_binding]
  rw [show ((st.afterDyndeps env node).world.edges f).parents = (st.world.edges f).parents from
    h.parents]

lemma afterDyndeps_scope :
    ((st.afterDyndeps env node).world.edges f).scope = (st.world.edges f).scope :=
  ((loadDyndeps_frame env node st.world).1.manifest f).scope

lemma lookup_restat_of_reads (h : st.ReadsRestatFrom (st.restatScopes env node) f)
    (lookup : GoString → EStateM Failure EdgeEnv GoString) (s : EdgeEnv) :
    (st.afterDyndeps env node).lookupWithFallback f lookup restat.name
      ((st.edgeRule f).bindings restat.name) s = .ok "1" s := by
  apply lookupWithFallback_ok.mpr
  rw [afterDyndeps_scope, afterDyndeps_binding]
  by_cases hs : (st.world.edges f).scope ∈ st.restatScopes env node
  · exact Or.inl ⟨if_pos ⟨rfl, hs⟩, rfl⟩
  · obtain ⟨hown, hrule, s', hfind, hmem⟩ := h.resolve_left hs
    refine Or.inr ⟨by rw [if_neg fun hc => hs hc.2, hown], Or.inr ⟨hrule, rfl, ?_⟩⟩
    rw [afterDyndeps_parents]
    simp only [true_and]
    rw [findSome?_restat, Option.mem_def.mp hfind]
    simp [hmem]

lemma parents_restat_of_not_reads (h : ¬ st.ReadsRestatFrom (st.restatScopes env node) f)
    (hown : st.binding (st.world.edges f).scope restat.name = none)
    (hrule : (st.edgeRule f).bindings restat.name = none) :
    (((st.afterDyndeps env node).world.edges f).parents.findSome? fun s =>
      (st.afterDyndeps env node).binding s restat.name) =
      (st.world.edges f).parents.findSome? fun s => st.binding s restat.name := by
  rw [afterDyndeps_parents]
  simp only [true_and]
  rw [findSome?_restat]
  split
  · rename_i s hfind
    rw [if_neg fun hmem => h (Or.inr ⟨hown, hrule, s, hfind, hmem⟩)]
  · rfl

lemma edgeLookup_afterDyndeps {n : Nat} {s s' : EdgeEnv}
    (hval : st.ReadsRestatFrom (st.restatScopes env node) f →
      ∀ value, st.Returns f restat.name value → value = "1")
    (hs : s = {} ∨ s.isRecursive = true) (h : st.edgeLookup f true n v s = .ok value s') :
    (st.afterDyndeps env node).edgeLookup f true n v s = .ok value s' := by
  induction n generalizing v s value s' with
  | zero => exact absurd h throw_ok
  | succ n ih =>
    cases hb : st.builtin f true v with
    | some w =>
      rw [edgeLookup, hb] at h
      rw [edgeLookup, afterDyndeps_builtin, hb]
      exact h
    | none =>
      obtain ⟨hpass, s₁, hf, rfl⟩ := (edgeLookup_ok hb).mp h
      refine (edgeLookup_ok (by rw [afterDyndeps_builtin, hb])).mpr ⟨hpass, s₁, ?_, rfl⟩
      by_cases hr : v = restat.name ∧ st.ReadsRestatFrom (st.restatScopes env node) f
      · obtain ⟨rfl, hreads⟩ := hr
        have hreturns : st.Returns f restat.name value := by
          apply returns_iff.mpr
          rcases hs with rfl | hs
          · exact ⟨_, _, h⟩
          · obtain ⟨l, r⟩ := s
            subst hs
            obtain ⟨s₂, h₂⟩ := edgeLookup_alone h
            exact ⟨_, _, h₂⟩
        rw [hval hreads value hreturns,
          lookupWithFallback_env (fun _ _ _ hu => edgeLookup_env rfl hu) hf]
        exact lookup_restat_of_reads hreads _ _
      · have hown : (st.afterDyndeps env node).binding
            ((st.afterDyndeps env node).world.edges f).scope v =
              st.binding (st.world.edges f).scope v := by
          rw [afterDyndeps_scope, afterDyndeps_binding, if_neg]
          rintro ⟨hv, hmem⟩
          exact hr ⟨hv, Or.inl hmem⟩
        apply lookupWithFallback_ok.mpr
        rw [hown]
        rcases lookupWithFallback_ok.mp hf with ⟨hv, rfl⟩ | ⟨hv, ⟨es, hes, heval⟩ | ⟨hes, rfl, hp⟩⟩
        · exact Or.inl ⟨hv, rfl⟩
        · refine Or.inr ⟨hv, Or.inl ⟨es, hes, ?_⟩⟩
          have same : ∀ u val s₂, st.edgeLookup f true n u (st.pushed f v s) = .ok val s₂ →
              s₂ = st.pushed f v s ∧ (st.afterDyndeps env node).edgeLookup f true n u
                (st.pushed f v s) = .ok val (st.pushed f v s) := by
            intro u val s₂ hu
            obtain rfl := edgeLookup_env rfl hu
            exact ⟨rfl, ih (Or.inr rfl) hu⟩
          obtain ⟨rfl, heval'⟩ := EvalString.evaluate_transfer same heval
          exact heval'
        · refine Or.inr ⟨hv, Or.inr ⟨hes, rfl, ?_⟩⟩
          rw [← hp]
          by_cases hname : v = restat.name
          · subst hname
            rw [parents_restat_of_not_reads (fun hreads => hr ⟨rfl, hreads⟩) hv hes]
          · rw [afterDyndeps_parents]
            simp only [hname, false_and, if_false]

lemma returns_restat_of_reads (h : st.ReadsRestatFrom (st.restatScopes env node) f)
    (hv : (st.afterDyndeps env node).Returns f restat.name value) : value = "1" := by
  obtain ⟨n, s', hl⟩ := returns_iff.mp hv
  cases n with
  | zero => exact absurd hl throw_ok
  | succ n =>
    obtain ⟨-, s₁, hf, -⟩ := (edgeLookup_ok (builtin_key .restat)).mp hl
    have hone := lookup_restat_of_reads h ((st.afterDyndeps env node).edgeLookup f true n)
      ((st.afterDyndeps env node).pushed f restat.name {})
    exact (EStateM.Result.ok.inj (hf.symm.trans hone)).1

end Bindings

def NoRestatFor (env : Env) (st : State) (node : Path) (f : EdgeId) : Prop :=
  ∀ p ∈ (dyndepStatements env st.world node).find? fun p => p.1 = f, p.2.restat = false

/-- Loading a dyndep file touches only its own edges: on the others the inputs, the outputs and
every value that `GetBinding` returns stay, and on its own edges `restat` stays where the
statement of the edge does not set it. (Where `GetBinding` ends the program there is no value
that could change.) -/
structure DyndepsFrame (env : Env) (st : State) (node : Path) : Prop where
  graph : ∀ f, (st.world.edges f).dyndep ≠ some node →
    ((st.afterDyndeps env node).world.edges f).inputs = (st.world.edges f).inputs ∧
      ((st.afterDyndeps env node).world.edges f).outputs = (st.world.edges f).outputs
  bindings : ∀ f, (st.world.edges f).dyndep ≠ some node → ∀ v value,
    st.Returns f v value → (st.afterDyndeps env node).Returns f v value
  restat : ∀ f, (st.world.edges f).dyndep = some node → NoRestatFor env st node f → ∀ value,
    st.Returns f restat.name value → (st.afterDyndeps env node).Returns f restat.name value

/-- It does so exactly when every other edge that reads `restat` from a scope in which a
statement sets it has that value already. -/
theorem dyndepsFrame_iff (env : Env) (st : State) (node : Path) :
    DyndepsFrame env st node ↔
      ∀ f, (st.world.edges f).dyndep ≠ some node ∨ NoRestatFor env st node f →
        st.ReadsRestatFrom (st.restatScopes env node) f →
          ∀ value, st.Returns f restat.name value → value = "1" := by
  constructor
  · intro frame f hf hreads value hv
    refine returns_restat_of_reads hreads ?_
    by_cases hd : (st.world.edges f).dyndep = some node
    · exact frame.restat f hd (hf.resolve_left fun hne => hne hd) value hv
    · exact frame.bindings f hd _ value hv
  · intro safe
    have keep : ∀ f, (st.world.edges f).dyndep ≠ some node ∨ NoRestatFor env st node f →
        ∀ v value, st.Returns f v value → (st.afterDyndeps env node).Returns f v value := by
      intro f hf v value hv
      obtain ⟨n, s', hl⟩ := returns_iff.mp hv
      exact returns_iff.mpr ⟨n, s', edgeLookup_afterDyndeps (safe f hf) (Or.inl rfl) hl⟩
    refine ⟨fun f hf => ?_, fun f hf => keep f (Or.inl hf), fun f _ hno => keep f (Or.inr hno) _⟩
    have hedge := (loadDyndeps_frame env node st.world).1.others f hf
    rw [afterDyndeps, hedge]
    exact ⟨rfl, rfl⟩

end State

/-- The rule of the first edge has a dyndep binding, so the edge has no scope of its own. -/
def ruleDyndepManifest : GoString :=
  "rule r\n command = c\n dyndep = d\nrule q\n command = c\nbuild a: r d\nbuild b: q\n"

/-- The dyndep file sets `restat` for the first edge. -/
def settingRestat : Env where
  parseDyndep _ := .ok [("a", { restat := true })]

/-- Loading the dyndep file of the first edge gives the second one, which has none, `restat`. -/
theorem dyndepsFrame_rule_binding :
    ∃ disk filename st, Parses settingRestat {} disk filename st ∧
      (st.world.edges 1).dyndep = none ∧ st.Returns 1 restat.name [] ∧
      (st.afterDyndeps settingRestat [100]).Returns 1 restat.name [49] ∧
      ¬ st.DyndepsFrame settingRestat [100] := by
  have eval : (parsedState settingRestat ruleDyndepManifest dyndepFiles).any (fun st =>
      (st.world.edges 1).dyndep = none ∧
        (st.world.edges 1).scope ∈ st.restatScopes settingRestat [100] ∧
        (st.getBinding 1 true 1 restat.name).toOption = some [] ∧
        ((st.afterDyndeps settingRestat [100]).getBinding 1 true 1 restat.name).toOption =
          some [49] ∧ ("1" : GoString) ≠ []) := by
    decide +kernel
  obtain ⟨disk, filename, st, hst, facts⟩ := parses_of_parsedState eval
  obtain ⟨hd, hscope, hbefore, hafter, hne⟩ := of_decide_eq_true facts
  have returns : ∀ (st : State) value, (st.getBinding 1 true 1 restat.name).toOption = some value →
      st.Returns 1 restat.name value := by
    intro st value h
    refine ⟨1, ?_⟩
    cases hg : st.getBinding 1 true 1 restat.name with
    | ok a =>
      rw [hg] at h
      exact congrArg _ (Option.some.inj h)
    | error f =>
      rw [hg] at h
      exact absurd h (by simp [Except.toOption])
  refine ⟨disk, filename, st, hst, hd, returns st _ hbefore, returns _ _ hafter, ?_⟩
  intro frame
  have hkept := frame.bindings 1 (by simp [hd]) _ _ (returns st _ hbefore)
  exact hne (State.returns_restat_of_reads (Or.inl hscope) hkept).symm

end Reninja
