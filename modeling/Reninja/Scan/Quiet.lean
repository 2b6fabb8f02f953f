import Reninja.Scan.Basic

/-!
# What the scan does to a plan

The scan and the two loaders schedule nothing. They leave the plan alone and only let the graph
grow; whatever they do to the readiness of an edge, to the inputs of an edge or to the producer
of a node stands in the trace.
-/

namespace Reninja

open Program World

variable {g : Edge → Edge} {ev : Event}

/-- The graph has only grown: what was there is there, and what was recorded is recorded. An edge
without a dyndep binding gets no outputs. -/
structure Grows (w w' : World) : Prop where
  phony : ∀ e, (w'.edges e).phony = (w.edges e).phony
  pool : ∀ e, (w'.edges e).pool = (w.edges e).pool
  jobSlot : ∀ e, (w'.edges e).jobSlot = (w.edges e).jobSlot
  inputs : ∀ e, (w.edges e).inputs ⊆ (w'.edges e).inputs
  outputs : ∀ e, (w.edges e).outputs ⊆ (w'.edges e).outputs
  kept : ∀ e, (w.edges e).dyndep = none →
    (w'.edges e).dyndep = none ∧ (w'.edges e).outputs = (w.edges e).outputs
  outEdges : ∀ n, (w.nodes n).outEdges ⊆ (w'.nodes n).outEdges
  producer : ∀ n e, w.producer n = some e → w'.producer n = some e
  trace : ∃ l, w'.trace = w.trace ++ l
  jobserver : w'.jobserver = w.jobserver
  edgeCount : w'.edgeCount = w.edgeCount

instance : Std.Refl Grows where
  refl w := ⟨fun _ => rfl, fun _ => rfl, fun _ => rfl, fun _ => List.Subset.refl _,
    fun _ => List.Subset.refl _, fun _ h => ⟨h, rfl⟩, fun _ => List.Subset.refl _, fun _ _ h => h,
    ⟨[], by simp⟩, rfl, rfl⟩

instance : IsTrans World Grows where
  trans _ _ _ h₁ h₂ :=
    { phony := fun e => (h₂.phony e).trans (h₁.phony e)
      pool := fun e => (h₂.pool e).trans (h₁.pool e)
      jobSlot := fun e => (h₂.jobSlot e).trans (h₁.jobSlot e)
      inputs := fun e => List.Subset.trans (h₁.inputs e) (h₂.inputs e)
      outputs := fun e => List.Subset.trans (h₁.outputs e) (h₂.outputs e)
      kept := fun e h => by
        obtain ⟨hd₁, ho₁⟩ := h₁.kept e h
        obtain ⟨hd₂, ho₂⟩ := h₂.kept e hd₁
        exact ⟨hd₂, ho₂.trans ho₁⟩
      outEdges := fun n => List.Subset.trans (h₁.outEdges n) (h₂.outEdges n)
      producer := fun n e h => h₂.producer n e (h₁.producer n e h)
      trace := by
        obtain ⟨l₁, h₁⟩ := h₁.trace
        obtain ⟨l₂, h₂⟩ := h₂.trace
        exact ⟨l₁ ++ l₂, by rw [h₂, h₁, List.append_assoc]⟩
      jobserver := h₂.jobserver.trans h₁.jobserver
      edgeCount := h₂.edgeCount.trans h₁.edgeCount }

section Grows

variable {w w' : World} {e : EdgeId} {n : Path}

lemma Grows.of_eq (hnodes : w'.nodes = w.nodes) (hedges : w'.edges = w.edges)
    (htrace : ∃ l, w'.trace = w.trace ++ l) (hjob : w'.jobserver = w.jobserver)
    (hcount : w'.edgeCount = w.edgeCount) : Grows w w' where
  phony e := by rw [hedges]
  pool e := by rw [hedges]
  jobSlot e := by rw [hedges]
  inputs e := by rw [hedges]; exact List.Subset.refl _
  outputs e := by rw [hedges]; exact List.Subset.refl _
  kept e h := by rw [hedges]; exact ⟨h, rfl⟩
  outEdges n := by rw [hnodes]; exact List.Subset.refl _
  producer n e h := by rwa [World.producer, hnodes]
  trace := htrace
  jobserver := hjob
  edgeCount := hcount

lemma Grows.setEdge {g : Edge → Edge} (hphony : (g (w.edges e)).phony = (w.edges e).phony)
    (hpool : (g (w.edges e)).pool = (w.edges e).pool)
    (hslot : (g (w.edges e)).jobSlot = (w.edges e).jobSlot)
    (hin : (w.edges e).inputs ⊆ (g (w.edges e)).inputs)
    (hout : (w.edges e).outputs ⊆ (g (w.edges e)).outputs)
    (hkept : (w.edges e).dyndep = none →
      (g (w.edges e)).dyndep = none ∧ (g (w.edges e)).outputs = (w.edges e).outputs) :
    Grows w (w.setEdge e g) where
  phony := setEdge_forall (P := fun a b => b.phony = a.phony) (fun _ => rfl) hphony
  pool := setEdge_forall (P := fun a b => b.pool = a.pool) (fun _ => rfl) hpool
  jobSlot := setEdge_forall (P := fun a b => b.jobSlot = a.jobSlot) (fun _ => rfl) hslot
  inputs := setEdge_forall (P := fun a b => a.inputs ⊆ b.inputs)
    (fun _ => List.Subset.refl _) hin
  outputs := setEdge_forall (P := fun a b => a.outputs ⊆ b.outputs)
    (fun _ => List.Subset.refl _) hout
  kept := setEdge_forall (P := fun a b => a.dyndep = none →
    b.dyndep = none ∧ b.outputs = a.outputs) (fun _ h => ⟨h, rfl⟩) hkept
  outEdges := fun _ => List.Subset.refl _
  producer := fun _ _ h => h
  trace := ⟨[], by simp [World.setEdge]⟩
  jobserver := rfl
  edgeCount := rfl

lemma Grows.setNode {g : Node → Node}
    (hedge : ∀ e, (w.nodes n).inEdge = some e → (g (w.nodes n)).inEdge = some e)
    (hout : (w.nodes n).outEdges ⊆ (g (w.nodes n)).outEdges) : Grows w (w.setNode n g) where
  phony _ := rfl
  pool _ := rfl
  jobSlot _ := rfl
  inputs _ := List.Subset.refl _
  outputs _ := List.Subset.refl _
  kept _ h := ⟨h, rfl⟩
  outEdges := setNode_forall (P := fun _ a b => a.outEdges ⊆ b.outEdges)
    (fun _ _ => List.Subset.refl _) hout
  producer := setNode_forall (P := fun _ a b => ∀ e, a.inEdge = some e → b.inEdge = some e)
    (fun _ _ _ h => h) hedge
  trace := ⟨[], by simp [World.setNode]⟩
  jobserver := rfl
  edgeCount := rfl

end Grows

/-! ### Quiet changes -/

/-- The snapshot was taken after `w`, while nothing was scheduled. -/
structure Snapshot.Since (s : Snapshot) (w : World) : Prop where
  want : s.want = w.want
  ready : s.ready = w.ready
  pools : s.pools = w.pools
  pool : ∀ e, (s.edges e).pool = (w.edges e).pool
  inputs : ∀ e, (w.edges e).inputs ⊆ (s.edges e).inputs
  producer : ∀ n e, w.producer n = some e → (s.nodes n).inEdge = some e

def Event.Quiet (w : World) : Event → Prop
  | .scanned _ s | .linked _ s | .produced _ s => s.Since w
  | .dyndepUpdate _ _ _ | .dyndepWalk _ _ _ | .scanLoadedDyndep _ | .refreshAddedTarget _ _ => True
  | _ => False

/-- The events tell of each edge whose readiness has changed, except for the edge that is
exempt, of each edge that has got inputs, and of each node that has got a producer. A scan that
changes the readiness of an edge finds it as it was. -/
structure Accounts (exempt : Option EdgeId) (l : List Event) (w w' : World) : Prop where
  ready : ∀ f, exempt ≠ some f →
    (w'.edges f).outputsReady = (w.edges f).outputsReady ∨
      ∃ s, .scanned f s ∈ l ∧ (s.edges f).outputsReady = (w.edges f).outputsReady
  inputs : ∀ e, (w'.edges e).inputs = (w.edges e).inputs ∨ ∃ s, .linked e s ∈ l
  producer : ∀ n, w'.producer n = w.producer n ∨ ∃ s, .produced n s ∈ l

/-- A change that schedules nothing. While an edge is visited it is exempt: its readiness
changes long after the event that tells of the visit. -/
structure Quiet (exempt : Option EdgeId) (w w' : World) : Prop where
  grows : Grows w w'
  want : w'.want = w.want
  ready : w'.ready = w.ready
  pools : w'.pools = w.pools
  wantedEdges : w'.wantedEdges = w.wantedEdges
  commandEdges : w'.commandEdges = w.commandEdges
  weight : ∀ e, (w'.edges e).criticalPathWeight = (w.edges e).criticalPathWeight
  pending : ∀ n, (w'.nodes n).dyndepPending = true → (w.nodes n).dyndepPending = true
  events : ∃ l, w'.trace = w.trace ++ l ∧ (∀ ev ∈ l, ev.Quiet w) ∧ Accounts exempt l w w'

section Quiet

variable {x : Option EdgeId} {w w' w'' : World} {e : EdgeId} {n : Path}

lemma Accounts.refl (l : List Event) (w : World) : Accounts x l w w :=
  ⟨fun _ _ => .inl rfl, fun _ => .inl rfl, fun _ => .inl rfl⟩

lemma Accounts.trans {l₁ l₂ : List Event} (h₁ : Accounts x l₁ w w') (h₂ : Accounts x l₂ w' w'') :
    Accounts x (l₁ ++ l₂) w w'' := by
  -- a change in one of the parts is told by that part
  have both : ∀ {α β : Type} {a b c : α} {ev : β → Event},
      (b = a ∨ ∃ s, ev s ∈ l₁) → (c = b ∨ ∃ s, ev s ∈ l₂) → c = a ∨ ∃ s, ev s ∈ l₁ ++ l₂ := by
    rintro α β a b c ev (rfl | ⟨s, hs⟩) h
    · rcases h with rfl | ⟨s, hs⟩
      · exact .inl rfl
      · exact .inr ⟨s, List.mem_append_right _ hs⟩
    · exact .inr ⟨s, List.mem_append_left _ hs⟩
  refine ⟨fun f hf => ?_, fun e => both (h₁.inputs e) (h₂.inputs e),
    fun n => both (h₁.producer n) (h₂.producer n)⟩
  rcases h₁.ready f hf with heq | ⟨s, hs, hready⟩
  · rw [← heq]
    exact (h₂.ready f hf).imp_right fun ⟨s, hs, hready⟩ => ⟨s, List.mem_append_right _ hs, hready⟩
  · exact .inr ⟨s, List.mem_append_left _ hs, hready⟩

lemma World.snapshot_since (w : World) : w.snapshot.Since w :=
  ⟨rfl, rfl, rfl, fun _ => rfl, fun _ => List.Subset.refl _, fun _ _ h => h⟩

/-- What was taken after a quiet change was taken after what came before. -/
lemma Snapshot.Since.of_quiet {s : Snapshot} (h : Quiet x w w') (hs : s.Since w') : s.Since w where
  want := hs.want.trans h.want
  ready := hs.ready.trans h.ready
  pools := hs.pools.trans h.pools
  pool e := (hs.pool e).trans (h.grows.pool e)
  inputs e := List.Subset.trans (h.grows.inputs e) (hs.inputs e)
  producer n e hn := hs.producer n e (h.grows.producer n e hn)

lemma Event.Quiet.of_quiet (h : Reninja.Quiet x w w') (hev : ev.Quiet w') : ev.Quiet w := by
  cases ev <;> first | exact hev | exact Snapshot.Since.of_quiet h hev

instance : Std.Refl (Quiet x) where
  refl w := ⟨Std.Refl.refl w, rfl, rfl, rfl, rfl, rfl, fun _ => rfl, fun _ h => h, [], by simp,
    by simp, Accounts.refl [] w⟩

instance : IsTrans World (Quiet x) where
  trans w _ _ h₁ h₂ :=
    { grows := IsTrans.trans _ _ _ h₁.grows h₂.grows
      want := h₂.want.trans h₁.want
      ready := h₂.ready.trans h₁.ready
      pools := h₂.pools.trans h₁.pools
      wantedEdges := h₂.wantedEdges.trans h₁.wantedEdges
      commandEdges := h₂.commandEdges.trans h₁.commandEdges
      weight := fun e => (h₂.weight e).trans (h₁.weight e)
      pending := fun n h => h₁.pending n (h₂.pending n h)
      events := by
        obtain ⟨l₁, ht₁, hq₁, ha₁⟩ := h₁.events
        obtain ⟨l₂, ht₂, hq₂, ha₂⟩ := h₂.events
        refine ⟨l₁ ++ l₂, by rw [ht₂, ht₁, List.append_assoc], fun ev hev => ?_, ha₁.trans ha₂⟩
        rcases List.mem_append.mp hev with hev | hev
        · exact hq₁ ev hev
        · exact (hq₂ ev hev).of_quiet h₁ }

lemma Quiet.exempt (h : Quiet none w w') : Quiet x w w' := by
  obtain ⟨l, ht, hq, ha⟩ := h.events
  exact { h with events := ⟨l, ht, hq, fun f _ => ha.ready f (by simp), ha.inputs, ha.producer⟩ }

lemma Quiet.of_eq (hnodes : w'.nodes = w.nodes) (hedges : w'.edges = w.edges)
    (hwant : w'.want = w.want) (hready : w'.ready = w.ready) (hpools : w'.pools = w.pools)
    (hwanted : w'.wantedEdges = w.wantedEdges) (hcommand : w'.commandEdges = w.commandEdges)
    (hjob : w'.jobserver = w.jobserver) (hcount : w'.edgeCount = w.edgeCount) {l : List Event}
    (htrace : w'.trace = w.trace ++ l) (hl : ∀ ev ∈ l, ev.Quiet w) : Quiet x w w' where
  grows := .of_eq hnodes hedges ⟨l, htrace⟩ hjob hcount
  want := hwant
  ready := hready
  pools := hpools
  wantedEdges := hwanted
  commandEdges := hcommand
  weight e := by rw [hedges]
  pending n h := by rwa [hnodes] at h
  events := ⟨l, htrace, hl, fun f _ => .inl (by rw [hedges]), fun e => .inl (by rw [hedges]),
    fun n => .inl (by rw [producer, hnodes]; rfl)⟩

lemma Quiet.log (h : ev.Quiet w) : Quiet x w (w.log ev) :=
  .of_eq rfl rfl rfl rfl rfl rfl rfl rfl rfl (l := [ev]) rfl (by simpa using h)

lemma World.setNode_pending {g : Node → Node}
    (h : (g (w.nodes n)).dyndepPending = true → (w.nodes n).dyndepPending = true) (m : Path)
    (hm : ((w.setNode n g).nodes m).dyndepPending = true) : (w.nodes m).dyndepPending = true := by
  by_cases hmn : m = n
  · subst hmn
    rw [setNode_nodes_self] at hm
    exact h hm
  · rwa [setNode_nodes_ne _ hmn] at hm

lemma Quiet.setNode {g : Node → Node} (hedge : (g (w.nodes n)).inEdge = (w.nodes n).inEdge)
    (hout : (w.nodes n).outEdges ⊆ (g (w.nodes n)).outEdges)
    (hpending : (g (w.nodes n)).dyndepPending = true → (w.nodes n).dyndepPending = true) :
    Quiet x w (w.setNode n g) where
  grows := .setNode (fun e he => by rw [hedge, he]) hout
  want := rfl
  ready := rfl
  pools := rfl
  wantedEdges := rfl
  commandEdges := rfl
  weight _ := rfl
  pending := setNode_pending hpending
  events := by
    refine ⟨[], by simp [World.setNode], by simp, fun _ _ => .inl rfl, fun _ => .inl rfl,
      fun m => .inl ?_⟩
    exact setNode_forall (P := fun _ a b => b.inEdge = a.inEdge) (fun _ _ => rfl) hedge m

lemma Quiet.setEdge (hphony : (g (w.edges e)).phony = (w.edges e).phony)
    (hpool : (g (w.edges e)).pool = (w.edges e).pool)
    (hslot : (g (w.edges e)).jobSlot = (w.edges e).jobSlot)
    (hin : (g (w.edges e)).inputs = (w.edges e).inputs)
    (hout : (w.edges e).outputs ⊆ (g (w.edges e)).outputs)
    (hkept : (w.edges e).dyndep = none →
      (g (w.edges e)).dyndep = none ∧ (g (w.edges e)).outputs = (w.edges e).outputs)
    (hweight : (g (w.edges e)).criticalPathWeight = (w.edges e).criticalPathWeight)
    (hready : x = some e ∨ (g (w.edges e)).outputsReady = (w.edges e).outputsReady) :
    Quiet x w (w.setEdge e g) where
  grows := .setEdge hphony hpool hslot (by rw [hin]; exact List.Subset.refl _) hout hkept
  want := rfl
  ready := rfl
  pools := rfl
  wantedEdges := rfl
  commandEdges := rfl
  weight := setEdge_forall (P := fun a b => b.criticalPathWeight = a.criticalPathWeight)
    (fun _ => rfl) hweight
  pending _ h := h
  events := by
    refine ⟨[], by simp [World.setEdge], by simp, fun f hf => .inl ?_, fun f => .inl ?_,
      fun _ => .inl rfl⟩
    · by_cases hfe : f = e
      · subst hfe
        rw [setEdge_edges_self]
        exact hready.resolve_left hf
      · rw [setEdge_edges_ne _ hfe]
    · exact setEdge_forall (P := fun a b => b.inputs = a.inputs) (fun _ => rfl) hin f

lemma Quiet.produce (h : w.producer n = none) :
    Quiet x w
      ((w.log (.produced n w.snapshot)).setNode n fun m => { m with inEdge := some e }) where
  grows := by
    refine IsTrans.trans _ (w.log (.produced n w.snapshot)) _
      (.of_eq rfl rfl ⟨[_], rfl⟩ rfl rfl) (.setNode (fun f hf => ?_) (List.Subset.refl _))
    rw [producer] at h
    rw [World.log, h] at hf
    cases hf
  want := rfl
  ready := rfl
  pools := rfl
  wantedEdges := rfl
  commandEdges := rfl
  weight _ := rfl
  pending := setNode_pending (w := w.log _) (fun h => h)
  events := by
    refine ⟨[.produced n w.snapshot], rfl, by simpa [Event.Quiet] using w.snapshot_since,
      fun _ _ => .inl rfl, fun _ => .inl rfl, fun m => ?_⟩
    by_cases hm : m = n
    · subst hm
      exact .inr ⟨w.snapshot, by simp⟩
    · exact .inl (by rw [producer, setNode_nodes_ne _ hm]; rfl)

lemma Quiet.link (l : List Path) :
    Quiet x w ((w.log (.linked e w.snapshot)).setEdge e fun d =>
      { d with implicitInputs := d.implicitInputs ++ l }) where
  grows := by
    refine IsTrans.trans _ (w.log (.linked e w.snapshot)) _
      (.of_eq rfl rfl ⟨[_], rfl⟩ rfl rfl)
      (.setEdge rfl rfl rfl (fun i hi => ?_) (List.Subset.refl _) fun h => ⟨h, rfl⟩)
    simp only [Edge.inputs, List.mem_append] at hi ⊢
    tauto
  want := rfl
  ready := rfl
  pools := rfl
  wantedEdges := rfl
  commandEdges := rfl
  weight := setEdge_forall (w := w.log _)
    (P := fun a b => b.criticalPathWeight = a.criticalPathWeight) (fun _ => rfl) rfl
  pending _ h := h
  events := by
    refine ⟨[.linked e w.snapshot], rfl, by simpa [Event.Quiet] using w.snapshot_since,
      fun f _ => .inl ?_, fun f => ?_, fun _ => .inl rfl⟩
    · exact setEdge_forall (w := w.log _) (P := fun a b => b.outputsReady = a.outputsReady)
        (fun _ => rfl) rfl f
    · by_cases hf : f = e
      · subst hf
        exact .inr ⟨w.snapshot, by simp⟩
      · exact .inl (by rw [setEdge_edges_ne _ hf]; rfl)

/-- The visit of an edge as a whole: the event that tells of it comes first. -/
lemma Quiet.visit (h : Quiet (some e) (w.log (.scanned e w.snapshot)) w') : Quiet none w w' := by
  have hlog : Quiet (some e) w (w.log (.scanned e w.snapshot)) := .log w.snapshot_since
  have hall : Quiet (some e) w w' := IsTrans.trans _ _ _ hlog h
  obtain ⟨l, ht, hq, ha⟩ := h.events
  refine { hall with events := ⟨.scanned e w.snapshot :: l, ?_, fun ev hev => ?_, ?_⟩ }
  · rw [ht, World.log, List.append_assoc]
    rfl
  · rcases List.mem_cons.mp hev with rfl | hev
    · exact w.snapshot_since
    · exact (hq ev hev).of_quiet hlog
  · refine ⟨fun f _ => ?_, fun f => ?_, fun m => ?_⟩
    · by_cases hf : f = e
      · subst hf
        exact .inr ⟨w.snapshot, by simp, rfl⟩
      · exact (ha.ready f (by simpa using Ne.symm hf)).imp_right
          fun ⟨s, hs, hready⟩ => ⟨s, List.mem_cons_of_mem _ hs, hready⟩
    · exact (ha.inputs f).imp_right fun ⟨s, hs⟩ => ⟨s, List.mem_cons_of_mem _ hs⟩
    · exact (ha.producer m).imp_right fun ⟨s, hs⟩ => ⟨s, List.mem_cons_of_mem _ hs⟩

end Quiet

section Scan

variable {x : Option EdgeId} {w : World} {e : EdgeId} {env : Env}

lemma note_quiet {ev : Snapshot → Event} (h : (ev w.snapshot).Quiet w) :
    Moves (Quiet x) w (note ev) := .modify (.log h)

lemma record_quiet (h : ev.Quiet w) : Moves (Quiet x) w (record ev) :=
  Moves.modify (.log h)

lemma rangeOver_quiet {α : Type} (env : Env) (l : List α) : Moves (Quiet x) w (rangeOver env l) :=
  Moves.get_bind (.bind (.modify (.of_eq rfl rfl rfl rfl rfl rfl rfl rfl rfl
    (List.append_nil _).symm (by simp))) fun _ _ _ => .pure _)

lemma updNode_quiet {n : Path} {g : Node → Node}
    (hedge : (g (w.nodes n)).inEdge = (w.nodes n).inEdge)
    (hout : (w.nodes n).outEdges ⊆ (g (w.nodes n)).outEdges)
    (hpending : (g (w.nodes n)).dyndepPending = true → (w.nodes n).dyndepPending = true) :
    Moves (Quiet x) w (updNode n g) :=
  Moves.modify (.setNode hedge hout hpending)

lemma statIfNecessary_quiet (n : Path) : Moves (Quiet x) w (statIfNecessary n) := by
  refine .bind (getNode_moves n) fun _ t _ => .ite (fun _ => .pure _) fun _ => ?_
  exact .get_bind (.bind (orError_moves _) fun _ _ _ =>
    updNode_quiet rfl (List.Subset.refl _) id)

lemma addOutEdges_quiet (nodes : List Path) : Moves (Quiet x) w
    (forEach nodes fun n => updNode n fun m => { m with outEdges := m.outEdges ++ [e] }) :=
  Moves.forEach fun _ _ _ => updNode_quiet rfl (List.subset_append_left _ _) id

lemma addOutEdges_setEdge (nodes : List Path) (g : Edge → Edge) :
    (do forEach nodes fun n => updNode n fun m => { m with outEdges := m.outEdges ++ [e] }
        updEdge e g : M Unit) w =
      (do updEdge e g
          forEach nodes fun n =>
            updNode n fun m => { m with outEdges := m.outEdges ++ [e] }) w := by
  induction nodes generalizing w with
  | nil => rfl
  | cons n nodes ih => exact ih

lemma addImplicitInputs_quiet (nodes : List Path) :
    Moves (Quiet x) w (addImplicitInputs e nodes) := by
  have h : Moves (Quiet x) w (do
      note (.linked e)
      updEdge e fun d => { d with implicitInputs := d.implicitInputs ++ nodes }
      forEach nodes fun n => updNode n fun m => { m with outEdges := m.outEdges ++ [e] }) :=
    IsTrans.trans _ _ _ (Quiet.link nodes) (addOutEdges_quiet nodes)
  rw [Moves] at h ⊢
  rw [addImplicitInputs, bind_apply]
  simp only [note, modify_apply, addOutEdges_setEdge]
  exact h

lemma loadDeps_quiet (env : Env) : Moves (Quiet x) w (loadDeps env e) :=
  loadDeps_moves env fun nodes _ => addImplicitInputs_quiet nodes

lemma connectOutput_quiet (o : Path) : Moves (Quiet x) w (connectOutput e o) := by
  refine .bind (getNode_moves o) fun m t hm => .ite (fun _ => .throw _) fun h => ?_
  obtain ⟨rfl, rfl⟩ := getNode_ok.mp hm
  exact Quiet.produce (by simpa [producer] using h)

lemma setRestat_quiet (restat : Bool) : Moves (Quiet x) w (setRestat e restat) := by
  cases restat with
  | false => exact .modify (Std.Refl.refl w)
  | true =>
    exact .modify (.of_eq rfl rfl rfl rfl rfl rfl rfl rfl rfl (List.append_nil _).symm (by simp))

lemma setRestat_edges {restat : Bool} {u : Unit} {t : World}
    (hok : setRestat e restat w = .ok u t) : t.edges = w.edges := by
  rw [setRestat, modify_ok] at hok
  rw [← hok]
  split <;> rfl

lemma updateDyndepEdge_quiet {d : Dyndeps} (hdyndep : (w.edges e).dyndep ≠ none) :
    Moves (Quiet x) w (updateDyndepEdge e d) := by
  refine .bind (setRestat_quiet _) fun _ t ht => ?_
  rw [← setRestat_edges ht] at hdyndep
  refine .bind (.modify (.setEdge rfl rfl rfl rfl (List.subset_append_left _ _)
    (fun h => absurd h hdyndep) rfl (.inr rfl))) fun _ _ _ => ?_
  refine .bind (.forEach fun o _ _ => connectOutput_quiet o) fun _ _ _ => ?_
  exact IsTrans.trans _ _ _ (Quiet.link _) (addOutEdges_quiet _)

lemma loadDyndeps_quiet (env : Env) (node : Path) : Moves (Quiet x) w (loadDyndeps env node) := by
  refine .bind (updNode_quiet rfl (List.Subset.refl _) (by simp)) fun _ _ _ => ?_
  refine .bind (loadDyndepFile_moves env node) fun ddf _ _ => ?_
  refine .bind (note_quiet trivial) fun _ _ _ => ?_
  refine .bind (getNode_moves node) fun m _ _ => ?_
  refine .bind (.forEach fun e _ _ => updateIfNamed_moves node ddf
    fun p _ _ hd => updateDyndepEdge_quiet (by rw [hd]; simp)) fun _ t _ => .get_bind ?_
  split
  · exact .throw _
  · exact .pure _

/-! ### The walk -/

lemma recomputeOutputDirty_quiet {newest : Option Path} {command : GoString} (o : Path) :
    Moves (Quiet x) w (recomputeOutputDirty env e newest command o) := by
  refine .get_bind ?_
  cases newest with
  | none => exact .pure _
  | some i =>
    exact .ite (fun _ => .bind (updNode_quiet rfl (List.Subset.refl _) id) fun _ _ _ =>
      Moves.pure _) fun _ => .pure _

lemma recomputeOutputsDirty_quiet {newest : Option Path} :
    Moves (Quiet x) w (recomputeOutputsDirty env e newest) := by
  refine .get_bind ?_
  generalize (w.edges e).outputs = os
  generalize w.evaluateCommand e true = command
  induction os generalizing w with
  | nil => exact .pure _
  | cons o os ih =>
    exact .bind (recomputeOutputDirty_quiet o) fun _ _ _ =>
      Moves.ite (fun _ => .pure _) fun _ => ih

lemma verifyDAG_moves {R : World → World → Prop} [Std.Refl R] {node : Path} {stack : List Path} :
    Moves R w (verifyDAG node e stack) := by
  refine .get_bind (.ite (fun _ => .pure _) fun _ => ?_)
  simp only
  split
  · exact .throw _
  · split
    · exact .throw _
    · exact .throw _

lemma markEdge_quiet {g : Edge → Edge} (h : g (w.edges e) = { w.edges e with
      mark := (g (w.edges e)).mark, outputsReady := (g (w.edges e)).outputsReady
      depsLoaded := (g (w.edges e)).depsLoaded, depsMissing := (g (w.edges e)).depsMissing }) :
    Moves (Quiet (some e)) w (updEdge e g) := by
  refine .modify (.setEdge ?_ ?_ ?_ ?_ ?_ ?_ ?_ (.inl rfl)) <;> rw [h]
  · rfl
  · exact List.Subset.refl _
  · exact fun h => ⟨h, rfl⟩

section Visit

variable {visit : Path → List Path → M (List Path)}
  (hvisit : ∀ w n vs, Moves (Quiet none) w (visit n vs))

include hvisit

lemma visitInput_quiet (v : Visit) (i : Path) :
    Moves (Quiet (some e)) w (visitInput visit e v i) := by
  refine .bind (Quiet.exempt (hvisit _ _ _)) fun vs t _ => .get_bind ?_
  cases t.producer i with
  | none => exact .pure _
  | some f =>
    exact .ite (fun _ => .bind (markEdge_quiet rfl) fun _ _ _ => .pure _)
      fun _ => .pure _

lemma visitInputs_quiet (check : Bool) (v : Visit) (is : List Path) :
    Moves (Quiet (some e)) w (visitInputs visit e check v is) := by
  induction is generalizing v w with
  | nil => exact .pure _
  | cons i is ih =>
    refine .bind (visitInput_quiet hvisit v i) fun v _ _ => .ite (fun _ => ?_) fun _ =>
      ih v
    exact .bind (.get_bind (.ite (fun _ => .pure _) fun _ => .pure _))
      fun v _ _ => ih v

lemma visitDyndep_quiet (vs : List Path) : Moves (Quiet x) w (visitDyndep env visit e vs) := by
  refine .get_bind ?_
  cases (w.edges e).dyndep with
  | none => exact .pure _
  | some d =>
    refine .ite (fun _ => ?_) fun _ => .pure _
    refine .bind (Quiet.exempt (hvisit _ _ _)) fun vs t _ => .get_bind
      (.ite (fun _ => ?_) fun _ => .pure _)
    exact .bind (record_quiet trivial) fun _ _ _ =>
      Moves.bind (loadDyndeps_quiet env d) fun _ _ _ => .pure _

lemma openEdge_quiet (env : Env) (e : EdgeId) (vs : List Path) : Moves (Quiet (some e)) w (do
    updEdge e fun x => { x with mark := .inStack, outputsReady := true, depsMissing := false }
    let validations ← visitDyndepOnce env visit e vs
    forEach (← getEdge e).outputs statIfNecessary
    let dirty ← loadDepsOnce env e
    let edge ← getEdge e
    pure (Visit.mk dirty none (validations ++ edge.validations))) := by
  refine .bind (markEdge_quiet rfl) fun _ _ _ => ?_
  refine .bind (.bind (getEdge_moves e) fun _ _ _ => .ite (fun _ => .pure _)
    fun _ => visitDyndep_quiet hvisit vs) fun _ _ _ => ?_
  refine .bind (getEdge_moves e) fun _ _ _ => ?_
  refine .bind (.forEach fun o _ _ => statIfNecessary_quiet o) fun _ _ _ => ?_
  refine .bind (.bind (getEdge_moves e) fun _ _ _ => .ite (fun _ => .pure _)
    fun _ => ?_) fun _ _ _ => .bind (getEdge_moves e) fun _ _ _ => .pure _
  refine .bind (markEdge_quiet rfl) fun _ _ _ => .bind (loadDeps_quiet env) fun _ _ _ => ?_
  exact .ite (fun _ => .pure _) fun _ =>
    Moves.bind (markEdge_quiet rfl) fun _ _ _ => .pure _

omit hvisit in
lemma closeEdge_quiet (v : Visit) : Moves (Quiet (some e)) w (closeEdge env e v) := by
  refine .bind (.ite (fun _ => .pure _) fun _ => recomputeOutputsDirty_quiet)
    fun d _ _ => ?_
  refine .bind (.bind (getEdge_moves e) fun _ _ _ => .ite (fun _ => ?_) fun _ =>
    Moves.pure _) fun _ _ _ => .bind (markEdge_quiet rfl) fun _ _ _ => .pure _
  exact .forEach fun o _ t => updNode_quiet rfl (List.Subset.refl _) id

lemma visitEdge_quiet (env : Env) (e : EdgeId) (v : Visit) : Moves (Quiet (some e)) w (do
    let v ← visitInputs visit e true v (← getEdge e).explicitInputs
    let v ← visitInputs visit e true v (← getEdge e).implicitInputs
    let v ← visitInputs visit e false v (← getEdge e).orderOnlyInputs
    closeEdge env e v) := by
  refine .bind (getEdge_moves e) fun _ _ _ => ?_
  refine .bind (visitInputs_quiet hvisit _ _ _) fun _ _ _ => ?_
  refine .bind (getEdge_moves e) fun _ _ _ => ?_
  refine .bind (visitInputs_quiet hvisit _ _ _) fun _ _ _ => ?_
  refine .bind (getEdge_moves e) fun _ _ _ => ?_
  exact .bind (visitInputs_quiet hvisit _ _ _) fun _ _ _ => closeEdge_quiet _

lemma recomputeEdgeDirty_quiet (vs : List Path) :
    Moves (Quiet none) w (recomputeEdgeDirty env visit e vs) := by
  have h := Moves.bind (s := w.log (.scanned e w.snapshot)) (openEdge_quiet hvisit env e vs)
    fun v _ _ => visitEdge_quiet hvisit env e v
  exact Quiet.visit h

end Visit

lemma recomputeNodeDirty_quiet (env : Env) (fuel : Nat) (n : Path) (stack vs : List Path) :
    Moves (Quiet none) w (recomputeNodeDirty env fuel n stack vs) := by
  induction fuel generalizing w n stack vs with
  | zero => exact .throw _
  | succ fuel ih =>
    refine .bind (getNode_moves n) fun m t _ => ?_
    cases m.inEdge with
    | none =>
      refine .bind (.bind (getNode_moves n) fun _ _ _ => .ite (fun _ => .pure _)
        fun _ => ?_) fun _ _ _ => .pure _
      exact .bind (statIfNecessary_quiet n) fun _ t _ => updNode_quiet rfl (List.Subset.refl _) id
    | some e =>
      refine .bind (getEdge_moves e) fun _ _ _ => .ite (fun _ => .pure _) fun _ => ?_
      exact .bind verifyDAG_moves fun _ _ _ =>
        recomputeEdgeDirty_quiet (fun _ _ _ => ih _ _ _) vs

lemma recomputeQueue_quiet (env : Env) (fuel : Nat) (nodes vs : List Path) :
    Moves (Quiet none) w (recomputeQueue env fuel nodes vs) := by
  induction fuel generalizing w nodes vs with
  | zero =>
    cases nodes with
    | nil => exact .pure _
    | cons n nodes => exact .throw _
  | succ fuel ih =>
    cases nodes with
    | nil => exact .pure _
    | cons n nodes =>
      exact .bind (recomputeNodeDirty_quiet env _ n _ _) fun _ _ _ => ih _ _

lemma recomputeDirty_quiet (env : Env) (fuel : Nat) (n : Path) :
    Moves (Quiet none) w (recomputeDirty env fuel n) := recomputeQueue_quiet env fuel _ _

end Scan

end Reninja
