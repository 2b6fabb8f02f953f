import Mathlib.Data.List.Nodup
import Mathlib.Data.List.Pairwise
import Reninja.Manifest.Steps

/-!
# The two directions of every link

An edge lists its inputs and outputs, a node lists the edges that read it and names the edge
that produces it. The parser, the two loaders of dependencies and the loader of dyndep files
update these lists separately; here is when the two directions agree.
-/

namespace Reninja

open Program State World

variable {st st' : State} {g : Edge → Edge} {n : Path} {e : EdgeId} {env : Env}
variable {add : Path → Edge → Edge} {w w' : World}

def World.LinksAgree (w : World) : Prop :=
  ∀ n e, (n ∈ (w.edges e).inputs ↔ e ∈ (w.nodes n).outEdges) ∧
    (n ∈ (w.edges e).outputs ↔ w.producer n = some e)

/-- From `w` to `w'` edges have got the new inputs `I` and the new outputs `O`, in both
directions. -/
structure LinkChange (I O : EdgeId → Path → Prop) (w w' : World) : Prop where
  inputs : ∀ e n, n ∈ (w'.edges e).inputs ↔ n ∈ (w.edges e).inputs ∨ I e n
  outEdges : ∀ e n, e ∈ (w'.nodes n).outEdges ↔ e ∈ (w.nodes n).outEdges ∨ I e n
  outputs : ∀ e n, n ∈ (w'.edges e).outputs ↔ n ∈ (w.edges e).outputs ∨ O e n
  producer : ∀ e n, w'.producer n = some e ↔ w.producer n = some e ∨ O e n

lemma LinkChange.linksAgree {I O : EdgeId → Path → Prop} (h : LinkChange I O w w')
    (hw : w.LinksAgree) : w'.LinksAgree := by
  intro n e
  rw [h.inputs, h.outEdges, h.outputs, h.producer, (hw n e).1, (hw n e).2]
  exact ⟨Iff.rfl, Iff.rfl⟩

/-- Nothing changes in the lists. -/
structure SameLinks (w w' : World) : Prop where
  inputs : ∀ e, (w'.edges e).inputs = (w.edges e).inputs
  outputs : ∀ e, (w'.edges e).outputs = (w.edges e).outputs
  outEdges : ∀ n, (w'.nodes n).outEdges = (w.nodes n).outEdges
  producer : ∀ n, w'.producer n = w.producer n

instance : Std.Refl SameLinks := ⟨fun _ => ⟨fun _ => rfl, fun _ => rfl, fun _ => rfl, fun _ => rfl⟩⟩

lemma SameLinks.linksAgree (h : SameLinks w w') (hw : w.LinksAgree) : w'.LinksAgree := by
  intro n e
  rw [h.inputs, h.outEdges, h.outputs, h.producer]
  exact hw n e

lemma World.sameLinks_setEdge (w : World) (e : EdgeId)
    (hi : (g (w.edges e)).inputs = (w.edges e).inputs)
    (ho : (g (w.edges e)).outputs = (w.edges e).outputs) : SameLinks w (w.setEdge e g) := by
  refine ⟨?_, ?_, fun _ => rfl, fun _ => rfl⟩
  · exact setEdge_forall (P := fun a b => b.inputs = a.inputs) (fun _ => rfl) hi
  · exact setEdge_forall (P := fun a b => b.outputs = a.outputs) (fun _ => rfl) ho

lemma World.sameLinks_setNode (w : World) (n : Path) {g : Node → Node}
    (hi : (g (w.nodes n)).inEdge = (w.nodes n).inEdge)
    (ho : (g (w.nodes n)).outEdges = (w.nodes n).outEdges) : SameLinks w (w.setNode n g) := by
  refine ⟨fun _ => rfl, fun _ => rfl, ?_, ?_⟩
  · exact setNode_forall (P := fun _ a b => b.outEdges = a.outEdges) (fun _ _ => rfl) ho
  · exact setNode_forall (P := fun _ a b => b.inEdge = a.inEdge) (fun _ _ => rfl) hi

/-! ### Parsing -/

/-- Inputs know of their edges and outputs of their producers, and as long as no edge has lost an
input no node knows of others. Edges that do not exist have no links. -/
structure State.Linked (st : State) : Prop where
  inputs : ∀ n e, n ∈ (st.world.edges e).inputs → e ∈ (st.world.nodes n).outEdges
  outEdges : st.dropped = [] →
    ∀ n e, e ∈ (st.world.nodes n).outEdges → n ∈ (st.world.edges e).inputs
  outputs : ∀ n e, n ∈ (st.world.edges e).outputs ↔ st.world.producer n = some e
  unused : ∀ e ≥ st.world.edgeCount,
    (st.world.edges e).inputs = [] ∧ (st.world.edges e).outputs = []

lemma State.Linked.agree {st : State} (h : st.Linked) (hd : st.dropped = []) :
    st.world.LinksAgree :=
  fun n e => ⟨⟨h.inputs n e, h.outEdges hd n e⟩, h.outputs n e⟩

lemma State.Linked.of_change {I O : EdgeId → Path → Prop} (h : st.Linked)
    (hc : LinkChange I O st.world st'.world) (hd : st'.dropped = st.dropped)
    (hn : st.world.edgeCount ≤ st'.world.edgeCount) (hI : ∀ e n, I e n → e < st'.world.edgeCount)
    (hO : ∀ e n, O e n → e < st'.world.edgeCount) : st'.Linked := by
  refine ⟨fun n e hne => ?_, fun hd' n e hne => ?_, fun n e => ?_, fun e he => ?_⟩
  · exact (hc.outEdges e n).mpr (((hc.inputs e n).mp hne).imp_left (h.inputs n e))
  · exact (hc.inputs e n).mpr (((hc.outEdges e n).mp hne).imp_left (h.outEdges (hd ▸ hd') n e))
  · rw [hc.outputs, hc.producer, h.outputs]
  obtain ⟨hi, ho⟩ := h.unused e (by omega)
  constructor
  · apply List.eq_nil_iff_forall_not_mem.mpr
    intro n hmem
    rcases (hc.inputs e n).mp hmem with hmem | hmem
    · simp [hi] at hmem
    · exact absurd (hI e n hmem) (Nat.not_lt.mpr he)
  · apply List.eq_nil_iff_forall_not_mem.mpr
    intro n hmem
    rcases (hc.outputs e n).mp hmem with hmem | hmem
    · simp [ho] at hmem
    · exact absurd (hO e n hmem) (Nat.not_lt.mpr he)

lemma State.Linked.of_same {st st' : State} (h : st.Linked) (hs : SameLinks st.world st'.world)
    (hd : st'.dropped = st.dropped) (hn : ∀ e ≥ st'.world.edgeCount, e ≥ st.world.edgeCount ∨
      (st.world.edges e).inputs = [] ∧ (st.world.edges e).outputs = []) : st'.Linked where
  inputs n e := by
    rw [hs.inputs, hs.outEdges]
    exact h.inputs n e
  outEdges hd' n e := by
    rw [hs.inputs, hs.outEdges]
    exact h.outEdges (hd ▸ hd') n e
  outputs n e := by
    rw [hs.outputs, hs.producer]
    exact h.outputs n e
  unused e he := by
    rw [hs.inputs, hs.outputs]
    exact (hn e he).elim (h.unused e) id

lemma State.addOut_linkChange (hok : st.addOut n e = .ok st') :
    LinkChange (fun _ _ => False) (fun f m => f = e ∧ m = n) st.world st'.world ∧
      st'.world.edgeCount = st.world.edgeCount := by
  unfold addOut at hok
  split at hok
  · exact absurd hok (by simp)
  rename_i hp
  obtain rfl := Except.ok.inj hok
  refine ⟨⟨fun f m => ?_, fun f m => ?_, fun f m => ?_, fun f m => ?_⟩, ?_⟩
  · by_cases hf : f = e
    · subst hf
      simp [setNode, setEdge, Edge.inputs]
    · simp [setNode, setEdge, setEdge_edges_ne _ hf]
  · by_cases hm : m = n
    · subst hm
      simp [setNode, setEdge]
    · simp [setNode, setEdge, setNode_nodes_ne _ hm]
  · by_cases hf : f = e
    · subst hf
      simp [setNode, setEdge]
    · simp [setNode, setEdge, setEdge_edges_ne _ hf, hf]
  · by_cases hm : m = n
    · subst hm
      have hp' : (st.world.nodes m).inEdge = none := hp
      simp [setNode, setEdge, producer, eq_comm, hp']
    · simp [setNode, setEdge, producer, setNode_nodes_ne _ hm, hm]
  · simp [setNode, setEdge, World.setNode, World.setEdge]

lemma State.addIn_linkChange {st : State} (n : Path)
    (hi : ∀ m, m ∈ (add n (st.world.edges e)).inputs ↔ m ∈ (st.world.edges e).inputs ∨ m = n)
    (ho : (add n (st.world.edges e)).outputs = (st.world.edges e).outputs) :
    LinkChange (fun f m => f = e ∧ m = n) (fun _ _ => False) st.world (st.addIn add n e).world := by
  refine ⟨fun f m => ?_, fun f m => ?_, fun f m => ?_, fun f m => ?_⟩
  · by_cases hf : f = e
    · subst hf
      simp [addIn, setNode, setEdge, hi]
    · simp [addIn, setNode, setEdge, setEdge_edges_ne _ hf, hf]
  · by_cases hm : m = n
    · subst hm
      simp [addIn, setNode, setEdge]
    · simp [addIn, setNode, setEdge, setNode_nodes_ne _ hm, hm]
  · by_cases hf : f = e
    · subst hf
      simp [addIn, setNode, setEdge, ho]
    · simp [addIn, setNode, setEdge, setEdge_edges_ne _ hf]
  · by_cases hm : m = n
    · subst hm
      simp [addIn, setNode, setEdge, producer]
    · simp [addIn, setNode, setEdge, producer,
        setNode_nodes_ne _ hm]

@[simp] lemma State.touch_dropped (st : State) (n : Path) : (st.touch n).dropped = st.dropped := by
  unfold touch
  split <;> rfl

lemma State.addOut_dropped (h : st.addOut n e = .ok st') : st'.dropped = st.dropped := by
  unfold addOut at h
  split at h
  · exact absurd h (by simp)
  · obtain rfl := Except.ok.inj h
    exact st.touch_dropped n

namespace State.Linked

variable {st st' : State} {e : EdgeId}

lemma addEdge (h : st.Linked) (rule : Rule) (s : ScopeId) : (st.addEdge rule s).Linked := by
  obtain ⟨hi, ho⟩ := h.unused st.world.edgeCount (Nat.le_refl _)
  have same := st.world.sameLinks_setEdge st.world.edgeCount
    (g := fun _ => { phony := rule.phony, scope := s, parents := st.parents s }) hi.symm ho.symm
  exact h.of_same ⟨same.inputs, same.outputs, fun _ => rfl, fun _ => rfl⟩ rfl
    fun f hf => .inl (Nat.le_of_succ_le hf)

lemma removeLastEdge (h : st.Linked) (he : st.IsLast e) (hi : (st.world.edges e).inputs = [])
    (ho : (st.world.edges e).outputs = []) : st.removeLastEdge.Linked := by
  have hl : st.world.edgeCount - 1 = e := by
    rw [← he]
    rfl
  have same := st.world.sameLinks_setEdge e (g := fun _ => {}) hi.symm ho.symm
  have hs : SameLinks st.world st.removeLastEdge.world := by
    refine ⟨fun f => ?_, fun f => ?_, fun _ => rfl, fun _ => rfl⟩
    · rw [← same.inputs f, State.removeLastEdge, hl]
      rfl
    · rw [← same.outputs f, State.removeLastEdge, hl]
      rfl
  refine h.of_same hs rfl fun f hf => ?_
  by_cases hfe : f = e
  · exact .inr (hfe ▸ ⟨hi, ho⟩)
  · have : f ≥ e := by
      simpa only [State.removeLastEdge, hl] using hf
    exact .inl (by rw [← he]; omega)

lemma addOut (h : st.Linked) (he : st.IsLast e) (hok : st.addOut n e = .ok st') : st'.Linked := by
  obtain ⟨hchange, hcount⟩ := addOut_linkChange hok
  refine h.of_change hchange (addOut_dropped hok) (Nat.le_of_eq hcount.symm)
    (fun _ _ => False.elim) ?_
  rintro f m ⟨rfl, -⟩
  rw [hcount]
  exact he ▸ Nat.lt_succ_self f

lemma addIn (h : st.Linked) (he : st.IsLast e) (n : Path)
    (hi : ∀ x m, m ∈ (add n x).inputs ↔ m ∈ x.inputs ∨ m = n)
    (ho : ∀ x, (add n x).outputs = x.outputs) : (st.addIn add n e).Linked := by
  have hcount := Parser.addIn_edgeCount (e := e) add st n
  refine h.of_change (addIn_linkChange n (hi _) (ho _)) (st.touch_dropped n)
    (Nat.le_of_eq hcount.symm) ?_ fun _ _ => False.elim
  rintro f m ⟨rfl, -⟩
  rw [hcount]
  exact he ▸ Nat.lt_succ_self f

lemma touch (h : st.Linked) (n : Path) : (st.touch n).Linked := by
  have hw := st.touch_world n
  refine h.of_same (hw ▸ Std.Refl.refl (r := SameLinks) _) (st.touch_dropped n) fun f hf => ?_
  exact .inl (hw ▸ hf)

lemma setEdge (h : st.Linked) (hi : ∀ x, (g x).inputs = x.inputs)
    (ho : ∀ x, (g x).outputs = x.outputs) : (st.setEdge e g).Linked :=
  h.of_same (sameLinks_setEdge _ _ (hi _) (ho _)) rfl fun _ => .inl

lemma setNode (h : st.Linked) {g : Node → Node} (hi : ∀ x, (g x).inEdge = x.inEdge)
    (ho : ∀ x, (g x).outEdges = x.outEdges) : (st.setNode n g).Linked :=
  h.of_same (sameLinks_setNode _ _ (hi _) (ho _)) rfl fun _ => .inl

/-- The edge loses the input, but the input does not lose the edge. -/
lemma removeInput (h : st.Linked) (n : Path) : (st.removeInput e n).Linked := by
  have hinputs (m : Path) (f : EdgeId) : m ∈ ((st.removeInput e n).world.edges f).inputs ↔
      m ∈ (st.world.edges f).inputs ∧ (f = e → m ≠ n) := by
    by_cases hf : f = e
    · subst hf
      simp only [State.removeInput, State.setEdge, setEdge_edges_self, Edge.inputs,
        List.mem_append, List.mem_filter, decide_eq_true_eq, true_implies, or_and_right]
    · simp [State.removeInput, State.setEdge, setEdge_edges_ne _ hf, hf]
  have houtputs (f : EdgeId) :
      ((st.removeInput e n).world.edges f).outputs = (st.world.edges f).outputs := by
    by_cases hf : f = e
    · subst hf
      simp [State.removeInput, State.setEdge]
    · simp [State.removeInput, State.setEdge, setEdge_edges_ne _ hf]
  refine ⟨fun m f hm => h.inputs m f ((hinputs m f).mp hm).1, fun hd m f hm => ?_,
    fun m f => houtputs f ▸ h.outputs m f, fun f hf => ⟨?_, houtputs f ▸ (h.unused f hf).2⟩⟩
  · simp only [State.removeInput] at hd
    split at hd
    · simp at hd
    · rename_i hn
      have hread := h.outEdges hd m f hm
      refine (hinputs m f).mpr ⟨hread, ?_⟩
      rintro rfl rfl
      exact hn hread
  · refine List.eq_nil_iff_forall_not_mem.mpr fun m hm => ?_
    simpa [(h.unused f hf).1] using ((hinputs m f).mp hm).1

end State.Linked

/-- Every step keeps the links, also one that takes an input away. -/
lemma ParseStep.linked (h : ParseStep st st') (hs : st.Linked) : st'.Linked := by
  have hsame : SameLinks st.world st.world := Std.Refl.refl (r := SameLinks) _
  cases h with
  | newScope | addRule => exact hs.of_same hsame rfl fun _ => .inl
  | addPool =>
    exact hs.of_same ⟨fun _ => rfl, fun _ => rfl, fun _ => rfl, fun _ => rfl⟩ rfl fun _ => .inl
  | addBinding s v value =>
    unfold State.addBinding
    split <;> exact hs.of_same ⟨fun _ => rfl, fun _ => rfl, fun _ => rfl, fun _ => rfl⟩ rfl
      fun _ => .inl
  | addDefault n h =>
    unfold State.addDefault at h
    split at h
    · obtain rfl := Except.ok.inj h
      exact hs.of_same hsame rfl fun _ => .inl
    · exact absurd h (by simp)
  | addEdge rule s => exact hs.addEdge rule s
  | removeLastEdge he hi ho => exact hs.removeLastEdge he hi ho
  | setPool | setImplicitOuts => exact hs.setEdge (fun _ => rfl) fun _ => rfl
  | addOut he n h => exact hs.addOut he h
  | addExplicitIn he n | addImplicitIn he n | addOrderOnlyIn he n =>
    refine hs.addIn he n (fun x m => ?_) fun _ => rfl
    simp only [Edge.inputs, List.mem_append, List.mem_singleton]
    tauto
  | addValidation he n =>
    refine State.Linked.setNode ?_ (fun _ => rfl) fun _ => rfl
    exact (hs.touch n).setEdge (fun _ => rfl) fun _ => rfl
  | setDyndep he n =>
    refine State.Linked.setEdge ?_ (fun _ => rfl) fun _ => rfl
    exact (hs.touch n).setNode (fun _ => rfl) fun _ => rfl
  | removeInput he n => exact hs.removeInput n

lemma State.initial_linked (disk : Disk) : (initial disk).Linked := by
  constructor <;> simp [initial, Edge.inputs, producer]

lemma Parses.linked {opts : ParserOptions} {disk : Disk} {filename : GoString} {st : State}
    (h : Parses env opts disk filename st) : st.Linked :=
  h.steps.within (I := State.Linked) (fun _ _ => ParseStep.linked) (initial_linked disk)

/-! ### Loading dependencies -/

def LinksKept (w w' : World) : Prop := w.LinksAgree → w'.LinksAgree

instance : Std.Refl LinksKept := ⟨fun _ h => h⟩

instance : IsTrans World LinksKept := ⟨fun _ _ _ h₁ h₂ h => h₂ (h₁ h)⟩

section Load

variable {e : EdgeId} {w w' : World}
variable {ddf : DyndepFile} {d : Dyndeps}
variable {os : List Path}

/-- The nodes `ns` know that `e` reads them. -/
structure Readers (e : EdgeId) (ns : List Path) (w w' : World) : Prop where
  edges : w'.edges = w.edges
  outEdges : ∀ f n, f ∈ (w'.nodes n).outEdges ↔ f ∈ (w.nodes n).outEdges ∨ f = e ∧ n ∈ ns
  producer : ∀ n, w'.producer n = w.producer n

lemma readers_setNode (e : EdgeId) (n : Path) (w : World) :
    Readers e [n] w (w.setNode n fun m => { m with outEdges := m.outEdges ++ [e] }) := by
  refine ⟨rfl, fun f m => ?_, fun m => ?_⟩
  all_goals
    by_cases hm : m = n
    · subst hm
      simp [producer]
    · simp [producer, setNode_nodes_ne _ hm, hm]

lemma forEach_readers (e : EdgeId) (ns : List Path) (w : World) :
    ∃ w', forEach ns (fun n => updNode n fun m => { m with outEdges := m.outEdges ++ [e] }) w =
      .ok () w' ∧ Readers e ns w w' := by
  induction ns generalizing w with
  | nil => exact ⟨w, rfl, rfl, by simp, fun _ => rfl⟩
  | cons n ns ih =>
    have first := readers_setNode e n w
    obtain ⟨w', hok, rest⟩ := ih (w.setNode n fun m => { m with outEdges := m.outEdges ++ [e] })
    refine ⟨w', bind_ok.mpr ⟨(), _, rfl, hok⟩, rest.edges, fun f m => ?_, fun m => ?_⟩
    · rw [rest.outEdges, first.outEdges]
      simp only [List.mem_cons, List.not_mem_nil, or_false]
      tauto
    · rw [rest.producer, first.producer]

lemma Readers.linkChange {ns : List Path} (h : Readers e ns w w') :
    LinkChange (fun f n => f = e ∧ n ∈ ns) (fun _ _ => False) w
      (w'.setEdge e fun x => { x with implicitInputs := x.implicitInputs ++ ns }) := by
  refine ⟨fun f n => ?_, fun f n => h.outEdges f n, fun f n => ?_, fun f n => ?_⟩
  · by_cases hf : f = e
    · subst hf
      simp only [setEdge_edges_self, h.edges, Edge.inputs, List.mem_append]
      tauto
    · simp [setEdge_edges_ne _ hf, h.edges, hf]
  · by_cases hf : f = e
    · subst hf
      simp [h.edges]
    · simp [setEdge_edges_ne _ hf, h.edges]
  · simp [h.producer]

lemma note_linksKept (ev : Snapshot → Event) : Moves LinksKept w (note ev) :=
  Moves.modify fun h => h

lemma addImplicitInputs_linksKept (ns : List Path) :
    Moves LinksKept w (addImplicitInputs e ns) := by
  refine .bind (note_linksKept _) fun _ t _ => ?_
  obtain ⟨t', hok, readers⟩ := forEach_readers e ns t
  rw [Moves, bind_apply, hok]
  exact readers.linkChange.linksAgree

lemma loadDeps_linksKept (env : Env) : Moves LinksKept w (loadDeps env e) :=
  loadDeps_moves env fun ns _ => addImplicitInputs_linksKept ns

/-! ### Loading dyndep files -/

/-- The nodes `os` are produced by `e` now. -/
structure Produces (e : EdgeId) (os : List Path) (w w' : World) : Prop where
  edges : w'.edges = w.edges
  outEdges : ∀ n, (w'.nodes n).outEdges = (w.nodes n).outEdges
  producer : ∀ n, w'.producer n = if n ∈ os then some e else w.producer n

lemma connectOutput_produces {o : Path} (h : w.producer o = none) :
    ∃ w', connectOutput e o w = .ok () w' ∧ Produces e [o] w w' := by
  refine ⟨((w.log (.produced o w.snapshot)).setNode o fun m => { m with inEdge := some e }), ?_, ?_⟩
  · have hn : ¬ ((w.nodes o).inEdge).isSome = true := by
      rw [show (w.nodes o).inEdge = none from h]
      simp
    rw [connectOutput, bind_apply, show getNode o w = .ok (w.nodes o) w from rfl]
    simp only [hn]
    rfl
  · refine ⟨rfl, fun n => ?_, fun n => ?_⟩
    all_goals
      by_cases hn : n = o
      · subst hn
        simp [producer]
      · simp [producer, setNode_nodes_ne _ hn, hn]

lemma connectOutputs_produces (hnodup : os.Nodup) (h : ∀ o ∈ os, w.producer o = none) :
    ∃ w', forEach os (connectOutput e) w = .ok () w' ∧ Produces e os w w' := by
  induction os generalizing w with
  | nil => exact ⟨w, rfl, rfl, fun _ => rfl, by simp⟩
  | cons o os ih =>
    obtain ⟨hno, hnodup⟩ := List.nodup_cons.mp hnodup
    obtain ⟨w₁, hok₁, first⟩ := connectOutput_produces (e := e) (h o (by simp))
    have hrest : ∀ o' ∈ os, w₁.producer o' = none := by
      intro o' ho'
      have hne : o' ≠ o := by
        rintro rfl
        exact hno ho'
      rw [first.producer]
      simpa [hne] using h o' (by simp [ho'])
    obtain ⟨w₂, hok₂, rest⟩ := ih hnodup hrest
    refine ⟨w₂, bind_ok.mpr ⟨(), w₁, hok₁, hok₂⟩, rest.edges.trans first.edges, fun n => ?_,
      fun n => ?_⟩
    · rw [rest.outEdges, first.outEdges]
    · rw [rest.producer, first.producer]
      by_cases hn : n ∈ os <;> simp [hn]

/-- A statement of a dyndep file whose outputs are not given out, or are all given to its own
edge. -/
def Unclaimed (w : World) (p : EdgeId × Dyndeps) : Prop :=
  (∀ o ∈ p.2.implicitOutputs, w.producer o = none) ∨
    ∀ o ∈ p.2.implicitOutputs, w.producer o = some p.1

/-- What holds while the statements of a dyndep file are applied. -/
structure Applying (ddf : DyndepFile) (w : World) : Prop where
  agree : w.LinksAgree
  unclaimed : ∀ p ∈ ddf, Unclaimed w p

def StillApplying (ddf : DyndepFile) (w w' : World) : Prop := Applying ddf w → Applying ddf w'

instance (ddf : DyndepFile) : Std.Refl (StillApplying ddf) := ⟨fun _ h => h⟩

instance (ddf : DyndepFile) : IsTrans World (StillApplying ddf) :=
  ⟨fun _ _ _ h₁ h₂ h => h₂ (h₁ h)⟩

lemma linksAgree_of_known_outputs (hw : w.LinksAgree) (hos : ∀ o ∈ os, w.producer o = some e)
    (hi : (g (w.edges e)).inputs = (w.edges e).inputs)
    (ho : (g (w.edges e)).outputs = (w.edges e).outputs ++ os) : (w.setEdge e g).LinksAgree := by
  intro n f
  by_cases hf : f = e
  · subst hf
    simp only [setEdge_edges_self, setEdge_nodes, setEdge_producer, hi, ho,
      List.mem_append]
    refine ⟨(hw n f).1, ?_⟩
    rw [(hw n f).2]
    exact ⟨fun h => h.elim id (hos n), Or.inl⟩
  · rw [setEdge_edges_ne _ hf]
    exact hw n f

def withOutputs (d : Dyndeps) (x : Edge) : Edge :=
  { x with
    outputs := x.outputs ++ d.implicitOutputs
    implicitOuts := x.implicitOuts + d.implicitOutputs.length }

def withInputs (d : Dyndeps) (x : Edge) : Edge :=
  { x with implicitInputs := x.implicitInputs ++ d.implicitInputs }

lemma linkChange_of_statement {w₃ w₅ : World}
    (hout : Produces e d.implicitOutputs (w.setEdge e (withOutputs d)) w₃)
    (hin : Readers e d.implicitInputs (w₃.setEdge e (withInputs d)) w₅)
    (hnew : ∀ o ∈ d.implicitOutputs, w.producer o = none) :
    LinkChange (fun f n => f = e ∧ n ∈ d.implicitInputs) (fun f n => f = e ∧ n ∈ d.implicitOutputs)
      w w₅ := by
  refine ⟨fun f n => ?_, fun f n => ?_, fun f n => ?_, fun f n => ?_⟩
  · rw [hin.edges]
    by_cases hf : f = e
    · subst hf
      simp only [setEdge_edges_self, hout.edges, withInputs, withOutputs, Edge.inputs,
        List.mem_append]
      tauto
    · simp [setEdge_edges_ne _ hf, hout.edges, hf]
  · rw [hin.outEdges, setEdge_nodes, hout.outEdges, setEdge_nodes]
  · rw [hin.edges]
    by_cases hf : f = e
    · subst hf
      simp [hout.edges, withInputs, withOutputs]
    · simp [setEdge_edges_ne _ hf, hout.edges, hf]
  · rw [hin.producer, setEdge_producer, hout.producer, setEdge_producer]
    by_cases hn : n ∈ d.implicitOutputs
    · simp [hn, hnew n hn, eq_comm]
    · simp [hn]

/-- The part of `updateDyndepEdge` after its first two steps. -/
def connectStatement (e : EdgeId) (d : Dyndeps) : M Unit := do
  forEach d.implicitOutputs (connectOutput e)
  note (.linked e)
  updEdge e (withInputs d)
  forEach d.implicitInputs fun n => updNode n fun m => { m with outEdges := m.outEdges ++ [e] }

lemma updateDyndepEdge_eq (e : EdgeId) (d : Dyndeps) (w : World) :
    updateDyndepEdge e d w =
      connectStatement e d ((finalState (setRestat e d.restat w)).setEdge e (withOutputs d)) := rfl

lemma setRestat_graph (e : EdgeId) (restat : Bool) (w : World) :
    (finalState (setRestat e restat w)).edges = w.edges ∧
      (finalState (setRestat e restat w)).nodes = w.nodes := by
  cases restat <;> exact ⟨rfl, rfl⟩

lemma implicitOutputs_disjoint (hnodup : (ddf.flatMap fun p => p.2.implicitOutputs).Nodup)
    {p q : EdgeId × Dyndeps} (hp : p ∈ ddf) (hq : q ∈ ddf) (hne : p ≠ q) :
    List.Disjoint p.2.implicitOutputs q.2.implicitOutputs := by
  have hpair := (List.nodup_flatMap.mp hnodup).2
  have : Std.Symm (Function.onFun List.Disjoint fun p : EdgeId × Dyndeps => p.2.implicitOutputs) :=
    ⟨fun _ _ h _ ha hb => h hb ha⟩
  exact hpair.forall hp hq hne

lemma updateDyndepEdge_new (hnodup : d.implicitOutputs.Nodup)
    (hnew : ∀ o ∈ d.implicitOutputs, w.producer o = none) :
    ∃ w', updateDyndepEdge e d w = .ok () w' ∧
      LinkChange (fun f n => f = e ∧ n ∈ d.implicitInputs)
        (fun f n => f = e ∧ n ∈ d.implicitOutputs) w w' := by
  obtain ⟨hedges, hnodes⟩ := setRestat_graph e d.restat w
  have heq := updateDyndepEdge_eq e d w
  generalize finalState (setRestat e d.restat w) = w₁ at hedges hnodes heq
  have hprod : ∀ n, w₁.producer n = w.producer n := fun n => by rw [producer, hnodes]; rfl
  have hnew₁ : ∀ o ∈ d.implicitOutputs, w₁.producer o = none := fun o ho => by
    rw [hprod, hnew o ho]
  obtain ⟨w₃, hok₃, hout⟩ := connectOutputs_produces (e := e)
    (w := w₁.setEdge e (withOutputs d)) hnodup hnew₁
  obtain ⟨w₅, hok₅, hin⟩ := forEach_readers e d.implicitInputs
    ((w₃.log (.linked e w₃.snapshot)).setEdge e (withInputs d))
  have change := linkChange_of_statement hout
    (⟨hin.edges, hin.outEdges, hin.producer⟩ : Readers e _ (w₃.setEdge e (withInputs d)) w₅) hnew₁
  refine ⟨w₅, ?_, ?_⟩
  · rw [heq]
    exact bind_ok.mpr ⟨(), w₃, hok₃, bind_ok.mpr ⟨(), _, rfl, bind_ok.mpr ⟨(), _, rfl, hok₅⟩⟩⟩
  · refine ⟨fun f n => ?_, fun f n => ?_, fun f n => ?_, fun f n => ?_⟩
    · rw [change.inputs, hedges]
    · rw [change.outEdges, hnodes]
    · rw [change.outputs, hedges]
    · rw [change.producer, hprod]

/-- The second time, for an edge that reads the dyndep file twice, the loop stops at the first
output; the edge has it already. -/
lemma updateDyndepEdge_again (hw : w.LinksAgree)
    (hown : ∀ o ∈ d.implicitOutputs, w.producer o = some e) (hne : d.implicitOutputs ≠ []) :
    ∃ err w', updateDyndepEdge e d w = .error err w' ∧ w'.LinksAgree ∧
      ∀ n, w'.producer n = w.producer n := by
  obtain ⟨hedges, hnodes⟩ := setRestat_graph e d.restat w
  have heq := updateDyndepEdge_eq e d w
  generalize finalState (setRestat e d.restat w) = w₁ at hedges hnodes heq
  have hprod : ∀ n, w₁.producer n = w.producer n := fun n => by rw [producer, hnodes]; rfl
  have hagree : w₁.LinksAgree := by
    intro n f
    rw [hedges, hnodes, hprod]
    exact hw n f
  obtain ⟨o, os, hos⟩ := List.exists_cons_of_ne_nil hne
  have hsome : (w₁.nodes o).inEdge = some e := by
    rw [hnodes]
    exact hown o (by simp [hos])
  refine ⟨.error ("multiple rules generate " ++ o), w₁.setEdge e (withOutputs d), ?_, ?_,
    hprod⟩
  · rw [heq, connectStatement, bind_apply, hos, forEach, bind_apply, connectOutput, bind_apply,
      show getNode o (w₁.setEdge e (withOutputs d)) =
        .ok (w₁.nodes o) (w₁.setEdge e (withOutputs d)) from rfl]
    simp only [hsome, Option.isSome_some, if_true]
    rfl
  · exact linksAgree_of_known_outputs hagree (fun o ho => by rw [hprod]; exact hown o ho) rfl rfl

lemma updateDyndepEdge_applying (hnodup : (ddf.flatMap fun p => p.2.implicitOutputs).Nodup)
    {p : EdgeId × Dyndeps} (hp : p ∈ ddf) :
    Moves (StillApplying ddf) w (updateDyndepEdge p.1 p.2) := by
  intro inv
  by_cases hnil : p.2.implicitOutputs ≠ [] ∧ ∀ o ∈ p.2.implicitOutputs, w.producer o = some p.1
  · obtain ⟨err, w', heq, hagree, hprod⟩ := updateDyndepEdge_again inv.agree hnil.2 hnil.1
    rw [heq]
    refine ⟨hagree, fun q hq => ?_⟩
    simp only [finalState, Unclaimed, hprod]
    exact inv.unclaimed q hq
  · have hnew : ∀ o ∈ p.2.implicitOutputs, w.producer o = none := by
      rcases inv.unclaimed p hp with h | h
      · exact h
      · intro o ho
        exact absurd ⟨List.ne_nil_of_mem ho, h⟩ hnil
    obtain ⟨w', hok, change⟩ := updateDyndepEdge_new (e := p.1)
      ((List.nodup_flatMap.mp hnodup).1 p hp) hnew
    rw [hok]
    refine ⟨change.linksAgree inv.agree, fun q hq => ?_⟩
    by_cases hqp : p = q
    · subst hqp
      exact Or.inr fun o ho => (change.producer p.1 o).mpr (Or.inr ⟨rfl, ho⟩)
    · have hsame : ∀ o ∈ q.2.implicitOutputs, w'.producer o = w.producer o := by
        intro o ho
        have hno : o ∉ p.2.implicitOutputs := fun hop =>
          implicitOutputs_disjoint hnodup hp hq hqp hop ho
        apply Option.ext
        intro f
        rw [change.producer]
        simp [hno]
      rcases inv.unclaimed q hq with h | h
      · exact Or.inl fun o ho => (hsame o ho).trans (h o ho)
      · exact Or.inr fun o ho => (hsame o ho).trans (h o ho)

def NewOutputs (w : World) (ddf : DyndepFile) : Prop :=
  (ddf.flatMap fun p => p.2.implicitOutputs).Nodup ∧
    ∀ p ∈ ddf, ∀ o ∈ p.2.implicitOutputs, w.producer o = none

/-- What the dyndep file says now; nothing when it cannot be read. -/
def dyndepStatements (env : Env) (w : World) (node : Path) : DyndepFile :=
  match loadDyndepFile env node w with
  | .ok ddf _ => ddf
  | .error _ _ => []

lemma resolveDyndeps_congr {v : World} (h : ∀ n, v.producer n = w.producer n)
    (stmts : List (GoString × Dyndeps)) (ddf : DyndepFile) :
    resolveDyndeps v stmts ddf = resolveDyndeps w stmts ddf := by
  induction stmts generalizing ddf with
  | nil => rfl
  | cons stmt stmts ih =>
    simp only [resolveDyndeps, h]
    cases w.producer stmt.1 with
    | none => rfl
    | some f =>
      simp only
      split
      · rfl
      · exact ih _

lemma loadDyndepFile_ok {node : Path} {v v' : World} (h : loadDyndepFile env node v = .ok ddf v')
    (hdisk : v.disk = w.disk) (hprod : ∀ n, v.producer n = w.producer n) :
    v' = v ∧ dyndepStatements env w node = ddf := by
  rw [loadDyndepFile, bind_apply, get_apply] at h
  simp only [hdisk] at h
  rw [dyndepStatements, loadDyndepFile, bind_apply, get_apply]
  simp only
  match hr : w.disk.readFile node with
  | .error err =>
    rw [hr] at h
    exact absurd h throw_ok
  | .ok none =>
    rw [hr] at h
    exact absurd h throw_ok
  | .ok (some c) =>
    rw [hr] at h
    obtain ⟨stmts, u, hstmts, h⟩ := bind_ok.mp h
    obtain ⟨hparse, rfl⟩ := orError_ok.mp hstmts
    obtain ⟨hres, rfl⟩ := orError_ok.mp h
    rw [resolveDyndeps_congr hprod] at hres
    refine ⟨rfl, ?_⟩
    simp only [bind_apply, hparse, hres, orError, pure_apply]

lemma loadDyndeps_linksKept (env : Env) (node : Path)
    (h : NewOutputs w (dyndepStatements env w node)) :
    Moves LinksKept w (loadDyndeps env node) := by
  have same := w.sameLinks_setNode node (g := fun m => { m with dyndepPending := false }) rfl rfl
  refine .bind (.modify same.linksAgree) fun _ w₁ h₁ => ?_
  obtain rfl := modify_ok.mp h₁
  refine .bind (loadDyndepFile_moves env node) fun ddf w₂ h₂ => ?_
  obtain ⟨rfl, rfl⟩ := loadDyndepFile_ok (w := w) h₂ rfl same.producer
  refine .bind (note_linksKept _) fun _ w₃ h₃ => ?_
  obtain rfl := note_ok.mp h₃
  refine .bind (getNode_moves node) fun m w₄ h₄ => ?_
  obtain ⟨-, rfl⟩ := getNode_ok.mp h₄
  refine .bind ?_ fun _ t _ => .get_bind ?_
  · intro agree
    refine Applying.agree (Moves.forEach (R := StillApplying (dyndepStatements env w node)) ?_
      ⟨agree, ?_⟩)
    · intro e _ t
      refine updateIfNamed_moves _ _ fun p hp he _ => ?_
      subst he
      exact updateDyndepEdge_applying h.1 hp
    · intro p hp
      refine Or.inl fun o ho => ?_
      rw [log_producer, same.producer]
      exact h.2 p hp o ho
  · split
    · exact .throw _
    · exact .pure _

end Load

/-! ### Whole runs -/

/-- The states reached by parsing a manifest and then loading dependencies and dyndep files,
with any contents and any outcome; in between, everything but the links may change. If `safe`,
then the parse takes no input away and the dyndep files give out new outputs only. -/
inductive GraphReached (env : Env) (safe : Prop) : World → Prop
  | parsed {opts : ParserOptions} {disk : Disk} {filename : GoString} {st : State}
      (h : Parses env opts disk filename st) (hsafe : safe → st.dropped = []) :
      GraphReached env safe st.world
  | loadDeps {w : World} (h : GraphReached env safe w) (e : EdgeId) :
      GraphReached env safe (finalState (loadDeps env e w))
  | loadDyndeps {w : World} (h : GraphReached env safe w) (node : Path)
      (hsafe : safe → NewOutputs w (dyndepStatements env w node)) :
      GraphReached env safe (finalState (loadDyndeps env node w))
  | elsewhere {w w' : World} (h : GraphReached env safe w) (hs : SameLinks w w') :
      GraphReached env safe w'

/-- In every run whose steps are safe, the two directions agree all the time. -/
theorem graphReached_linksAgree {env : Env} {w : World} (h : GraphReached env True w) :
    w.LinksAgree := by
  induction h with
  | parsed h hsafe => exact h.linked.agree (hsafe trivial)
  | loadDeps _ e ih => exact loadDeps_linksKept env ih
  | loadDyndeps _ node hsafe ih => exact loadDyndeps_linksKept env node (hsafe trivial) ih
  | elsewhere _ hs ih => exact hs.linksAgree ih

def parsedState (env : Env) (manifest : GoString) (files : Path → Option DiskEntry) :
    Option State :=
  let disk : Disk :=
    { entries := Function.update files "build.ninja" (some (.file 1 manifest false)) }
  match Parser.parseFile env {} 2 "build.ninja" { state := initial disk } with
  | .ok _ p => some p.state
  | .error _ _ => none

lemma parses_of_parsedState {manifest : GoString} {files : Path → Option DiskEntry}
    {q : State → Bool} (h : (parsedState env manifest files).any q = true) :
    ∃ disk filename st, Parses env {} disk filename st ∧ q st = true := by
  rw [parsedState] at h
  generalize hr : Parser.parseFile _ _ _ _ _ = r at h
  cases r with
  | ok u p => exact ⟨_, _, p.state, ⟨2, p, hr, rfl⟩, h⟩
  | error f p => exact absurd h (by simp)

/-- Two edges, the first of which has a dyndep file. -/
def dyndepManifest : GoString :=
  "rule r\n command = c\nbuild a: r d\n dyndep = d\nbuild b: r\n"

def dyndepFiles : Path → Option DiskEntry :=
  fun p => if p = "d" then some (.file 1 [] false) else none

def givingOut (out : Path) : Env where
  parseDyndep _ := .ok [("a", { implicitOutputs := [out] })]

instance (w : World) (ddf : DyndepFile) : Decidable (NewOutputs w ddf) := by
  unfold NewOutputs
  infer_instance

/-- A dyndep file that gives out the new output `c`. -/
theorem graphReached_linksAgree_dyndep :
    ∃ w : World, GraphReached (givingOut [99]) True w ∧ [99] ∈ (w.edges 0).outputs ∧
      w.LinksAgree := by
  have eval : (parsedState (givingOut [99]) dyndepManifest dyndepFiles).any (fun st =>
      st.dropped = [] ∧ NewOutputs st.world (dyndepStatements (givingOut [99]) st.world [100]) ∧
        [99] ∈ ((finalState (loadDyndeps (givingOut [99]) [100] st.world)).edges 0).outputs) := by
    decide +kernel
  obtain ⟨disk, filename, st, hst, facts⟩ := parses_of_parsedState eval
  obtain ⟨hd, hnew, hout⟩ := of_decide_eq_true facts
  have parsed : GraphReached (givingOut [99]) True st.world := .parsed hst fun _ => hd
  have reached := parsed.loadDyndeps [100] fun _ => hnew
  exact ⟨_, reached, hout, graphReached_linksAgree reached⟩

/-- Two ways for the directions to differ. A phony statement that names itself loses the input,
but the node keeps the edge. A dyndep file that gives `b`, which the second edge produces, to the
first one fails to load after the first one has listed it. -/
theorem graphReached_links_differ :
    (∃ w, GraphReached {} False w ∧ [97] ∉ (w.edges 0).inputs ∧ 0 ∈ (w.nodes [97]).outEdges ∧
      ¬ w.LinksAgree) ∧
    ∃ w, GraphReached (givingOut [98]) False w ∧ [98] ∈ (w.edges 0).outputs ∧
      w.producer [98] = some 1 ∧ ¬ w.LinksAgree := by
  constructor
  · have eval : (parsedState {} "build a: phony a\n" fun _ => none).any (fun st =>
        [97] ∉ (st.world.edges 0).inputs ∧ 0 ∈ (st.world.nodes [97]).outEdges) := by
      decide +kernel
    obtain ⟨disk, filename, st, hst, facts⟩ := parses_of_parsedState eval
    obtain ⟨hin, hout⟩ := of_decide_eq_true facts
    refine ⟨st.world, .parsed hst (fun h => h.elim), hin, hout, ?_⟩
    intro agree
    exact hin ((agree _ _).1.mpr hout)
  · have eval : (parsedState (givingOut [98]) dyndepManifest dyndepFiles).any (fun st =>
        [98] ∈ ((finalState (loadDyndeps (givingOut [98]) [100] st.world)).edges 0).outputs ∧
          (finalState (loadDyndeps (givingOut [98]) [100] st.world)).producer [98] = some 1) := by
      decide +kernel
    obtain ⟨disk, filename, st, hst, facts⟩ := parses_of_parsedState eval
    obtain ⟨hmem, hprod⟩ := of_decide_eq_true facts
    refine ⟨_, .loadDyndeps (.parsed hst (fun h => h.elim)) [100]
      (fun h => h.elim), hmem, hprod, ?_⟩
    intro agree
    have := (agree _ _).2.mp hmem
    rw [hprod] at this
    exact absurd (Option.some.inj this) (by simp)

end Reninja
