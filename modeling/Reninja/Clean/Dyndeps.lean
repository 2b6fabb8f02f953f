import Reninja.Clean.Basic
import Reninja.Manifest.Links
import Reninja.Scan.Quiet

/-!
# The graph that the cleaner works on

The cleaner runs on the graph of a manifest, with the dyndep files loaded as far as that goes. A
dyndep file that is rejected may leave an edge with outputs that do not know of it; what the cleaner
relies on holds all the same.
-/

namespace Reninja

open Program

/-- Every producer is an edge that has the node as an output, and every input knows of the edge. -/
structure World.Connected (w : World) : Prop where
  producer : ∀ n e, w.producer n = some e → e < w.edgeCount ∧ n ∈ (w.edges e).outputs
  inputs : ∀ e n, n ∈ (w.edges e).inputs → e ∈ (w.nodes n).outEdges

section Change

variable {w w' : World} {I O : EdgeId → Path → Prop}

lemma SameLinks.connected (h : SameLinks w w') (hcount : w'.edgeCount = w.edgeCount)
    (hw : w.Connected) : w'.Connected where
  producer n e hne := by
    rw [hcount, h.outputs]
    rw [h.producer] at hne
    exact hw.producer n e hne
  inputs e n hne := by
    rw [h.outEdges]
    rw [h.inputs] at hne
    exact hw.inputs e n hne

end Change

/-- What the parser leaves behind. -/
lemma Parses.connected {env : Env} {opts : ParserOptions} {disk : Disk} {filename : GoString}
    {st : State} (h : Parses env opts disk filename st) : st.world.Connected where
  producer n e hne := by
    have houtput := (h.linked.outputs n e).mpr hne
    refine ⟨Nat.lt_of_not_le fun hle => ?_, houtput⟩
    simp [(h.linked.unused e hle).2] at houtput
  inputs e n := h.linked.inputs n e

/-! ### Dyndep files -/

/-- The graph stays connected, and no edge loses an output. -/
structure StaysConnected (w w' : World) : Prop where
  edgeCount : w'.edgeCount = w.edgeCount
  outputs : ∀ e, (w.edges e).outputs ⊆ (w'.edges e).outputs
  connected : w.Connected → w'.Connected

instance : Std.Refl StaysConnected := ⟨fun _ => ⟨rfl, fun _ => List.Subset.refl _, id⟩⟩

instance : IsTrans World StaysConnected where
  trans _ _ _ h₁ h₂ :=
    { edgeCount := h₂.edgeCount.trans h₁.edgeCount
      outputs := fun e => List.Subset.trans (h₁.outputs e) (h₂.outputs e)
      connected := fun h => h₂.connected (h₁.connected h) }

section Dyndep

variable {w w' : World} {e : EdgeId} {env : Env}

lemma SameLinks.staysConnected (h : SameLinks w w') (hcount : w'.edgeCount = w.edgeCount) :
    StaysConnected w w' :=
  ⟨hcount, fun e => by rw [h.outputs]; exact List.Subset.refl _, h.connected hcount⟩

lemma note_staysConnected (ev : Snapshot → Event) : Moves StaysConnected w (note ev) :=
  ⟨rfl, fun _ => List.Subset.refl _, fun h => ⟨h.producer, h.inputs⟩⟩

lemma setRestat_staysConnected (restat : Bool) : Moves StaysConnected w (setRestat e restat) := by
  cases restat
  · exact Std.Refl.refl w
  · exact ⟨rfl, fun _ => List.Subset.refl _, fun h => ⟨h.producer, h.inputs⟩⟩

lemma withOutputs_staysConnected (d : Dyndeps) :
    Moves StaysConnected w (updEdge e (withOutputs d)) := by
  have hedges : ∀ f, (w.edges f).outputs ⊆ ((w.setEdge e (withOutputs d)).edges f).outputs ∧
      ((w.setEdge e (withOutputs d)).edges f).inputs = (w.edges f).inputs :=
    World.setEdge_forall (P := fun x y => x.outputs ⊆ y.outputs ∧ y.inputs = x.inputs)
      (fun _ => ⟨List.Subset.refl _, rfl⟩) ⟨List.subset_append_left _ _, rfl⟩
  refine ⟨rfl, fun f => (hedges f).1, fun h => ⟨fun n f hnf => ?_, fun f n hn => ?_⟩⟩
  · exact ⟨(h.producer n f hnf).1, (hedges f).1 (h.producer n f hnf).2⟩
  · exact h.inputs f n ((hedges f).2 ▸ hn)

lemma connectOutput_staysConnected {o : Path} (ho : o ∈ (w.edges e).outputs)
    (he : e < w.edgeCount) : Moves StaysConnected w (connectOutput e o) := by
  refine .bind (getNode_moves o) fun m t hm => .ite (fun _ => .throw _) fun _ => ?_
  obtain ⟨-, rfl⟩ := getNode_ok.mp hm
  refine .bind (note_staysConnected _) fun _ t ht => .modify ?_
  obtain rfl := note_ok.mp ht
  refine ⟨rfl, fun _ => List.Subset.refl _, fun h => ⟨fun n f hnf => ?_, fun f n hn => ?_⟩⟩
  · by_cases hn : n = o
    · subst hn
      have hfe : e = f := by simpa [World.producer] using hnf
      exact hfe ▸ ⟨he, ho⟩
    · rw [World.producer, World.setNode_nodes_ne _ hn] at hnf
      exact h.producer n f hnf
  · have hout := h.inputs f n hn
    by_cases hno : n = o
    · subst hno
      rwa [World.setNode_nodes_self]
    · rwa [World.setNode_nodes_ne _ hno]

lemma Readers.staysConnected {d : Dyndeps}
    (h : Readers e d.implicitInputs (w.setEdge e (withInputs d)) w')
    (hcount : w'.edgeCount = w.edgeCount) : StaysConnected w w' := by
  have hedges : ∀ f, (w'.edges f).outputs = (w.edges f).outputs ∧
      ∀ n ∈ (w'.edges f).inputs, n ∈ (w.edges f).inputs ∨ f = e ∧ n ∈ d.implicitInputs := by
    intro f
    rw [h.edges]
    by_cases hf : f = e
    · subst hf
      refine ⟨by simp [withInputs], fun n hn => ?_⟩
      simp only [World.setEdge_edges_self, withInputs, Edge.inputs, List.mem_append] at hn ⊢
      tauto
    · rw [World.setEdge_edges_ne _ hf]
      exact ⟨rfl, fun n hn => .inl hn⟩
  refine ⟨hcount, fun f => by rw [(hedges f).1]; exact List.Subset.refl _, fun hw => ?_⟩
  refine ⟨fun n f hnf => ?_, fun f n hn => (h.outEdges f n).mpr ?_⟩
  · rw [hcount, (hedges f).1]
    rw [h.producer] at hnf
    exact hw.producer n f hnf
  · exact ((hedges f).2 n hn).imp (hw.inputs f n) id

lemma updateDyndepEdge_staysConnected (d : Dyndeps) (he : e < w.edgeCount) :
    Moves StaysConnected w (updateDyndepEdge e d) := by
  refine .bind (setRestat_staysConnected d.restat) fun _ t ht => ?_
  have hrestat := (setRestat_staysConnected (w := w) (e := e) d.restat).of_ok ht
  refine .bind (withOutputs_staysConnected d) fun _ t' ht' => ?_
  obtain rfl := updEdge_ok.mp ht'
  refine .bind ?_ fun _ u _ => .bind (note_staysConnected _) fun _ u' hu' => ?_
  · refine .forEach_of (I := fun t => d.implicitOutputs ⊆ (t.edges e).outputs ∧ e < t.edgeCount)
      (fun a b ha hab => ?_) (fun o ho t ht => connectOutput_staysConnected (ht.1 ho) ht.2) ?_
    · exact ⟨List.Subset.trans ha.1 (hab.outputs e), hab.edgeCount ▸ ha.2⟩
    · rw [World.setEdge_edges_self]
      exact ⟨List.subset_append_right _ _, hrestat.edgeCount ▸ he⟩
  · obtain ⟨v, hv, hreaders⟩ := forEach_readers e d.implicitInputs (u'.setEdge e (withInputs d))
    have hquiet := addOutEdges_quiet (x := none) (w := u'.setEdge e (withInputs d)) (e := e)
      d.implicitInputs
    change StaysConnected u' (finalState (forEach _ _ (u'.setEdge e (withInputs d))))
    rw [hv]
    exact hreaders.staysConnected (hquiet.of_ok hv).grows.edgeCount

lemma resolveDyndeps_producer {stmts : List (GoString × Dyndeps)} {ddf ddf' : DyndepFile}
    (h : resolveDyndeps w stmts ddf = .ok ddf') (hddf : ∀ p ∈ ddf, ∃ n, w.producer n = some p.1) :
    ∀ p ∈ ddf', ∃ n, w.producer n = some p.1 := by
  induction stmts generalizing ddf with
  | nil =>
    obtain rfl := Except.ok.inj h
    exact hddf
  | cons stmt stmts ih =>
    rw [resolveDyndeps] at h
    cases hproducer : w.producer stmt.1 with
    | none =>
      rw [hproducer] at h
      exact absurd h (by simp)
    | some f =>
      rw [hproducer] at h
      simp only at h
      split at h
      · exact absurd h (by simp)
      · refine ih h fun p hp => ?_
        rcases List.mem_append.mp hp with hp | hp
        · exact hddf p hp
        · obtain rfl := List.mem_singleton.mp hp
          exact ⟨stmt.1, hproducer⟩

lemma loadDyndepFile_producer {node : Path} {ddf : DyndepFile}
    (h : loadDyndepFile env node w = .ok ddf w') :
    w' = w ∧ ∀ p ∈ ddf, ∃ n, w.producer n = some p.1 := by
  rw [loadDyndepFile, bind_apply, get_apply] at h
  simp only at h
  rcases hr : w.disk.readFile node with err | _ | c <;> rw [hr] at h
  · exact absurd h throw_ok
  · exact absurd h throw_ok
  · obtain ⟨stmts, u, hstmts, h⟩ := bind_ok.mp h
    obtain ⟨-, rfl⟩ := orError_ok.mp hstmts
    obtain ⟨hres, rfl⟩ := orError_ok.mp h
    exact ⟨rfl, resolveDyndeps_producer hres (by simp)⟩

lemma loadDyndeps_staysConnected (hw : w.Connected) (node : Path) :
    Moves StaysConnected w (loadDyndeps env node) := by
  have hpending :=
    w.sameLinks_setNode node (g := fun m => { m with dyndepPending := false }) rfl rfl
  refine .bind (.modify (hpending.staysConnected rfl)) fun _ w₁ h₁ => ?_
  refine .bind (loadDyndepFile_moves env node) fun ddf w₂ h₂ => ?_
  obtain rfl := updNode_ok.mp h₁
  obtain ⟨rfl, hddf⟩ := loadDyndepFile_producer h₂
  have hbound : ∀ p ∈ ddf, p.1 < w.edgeCount := by
    intro p hp
    obtain ⟨n, hn⟩ := hddf p hp
    rw [hpending.producer] at hn
    exact (hw.producer n p.1 hn).1
  refine .bind (note_staysConnected _) fun _ w₃ h₃ => ?_
  obtain rfl := note_ok.mp h₃
  refine .bind (getNode_moves node) fun m w₄ h₄ => ?_
  obtain ⟨-, rfl⟩ := getNode_ok.mp h₄
  refine .bind ?_ fun _ t _ => .get_bind ?_
  · refine .forEach_of (I := fun t => t.edgeCount = w.edgeCount)
      (fun a b ha hab => hab.edgeCount.trans ha) (fun e _ t ht => ?_) rfl
    refine updateIfNamed_moves _ _ fun p hp he _ => ?_
    subst he
    exact updateDyndepEdge_staysConnected p.2 (ht ▸ hbound p hp)
  · split
    · exact .throw _
    · exact .pure _

lemma loadPending_staysConnected (hw : w.Connected) (e : EdgeId) :
    StaysConnected w (loadPending env w e) := by
  rw [loadPending]
  split
  · exact Std.Refl.refl w
  · split_ifs
    · exact loadDyndeps_staysConnected hw _
    · exact Std.Refl.refl w

lemma foldl_loadPending_staysConnected (hw : w.Connected) (es : List EdgeId) :
    StaysConnected w (es.foldl (loadPending env) w) := by
  induction es generalizing w with
  | nil => exact Std.Refl.refl w
  | cons e es ih =>
    have hfirst : StaysConnected w (loadPending env w e) := loadPending_staysConnected hw e
    exact IsTrans.trans _ _ _ hfirst (ih (hfirst.connected hw))

lemma World.withDyndeps_connected (hw : w.Connected) : (w.withDyndeps env).Connected :=
  (foldl_loadPending_staysConnected hw _).connected hw

end Dyndep

end Reninja
