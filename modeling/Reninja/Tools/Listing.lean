import Reninja.Clean.Targets
import Reninja.Library.Postorder
import Reninja.Plan.CriticalPath

/-!
# Listings of dependencies

The walks behind the tools that list commands and inputs: `CommandCollector`, `InputsCollector`
and `PrintCommands`. They keep different marks, of nodes, of edges, or of both. All of them are
walks in post-order, two over edges and one over nodes.
-/

namespace Reninja

open Filter Relation Postorder List

structure CommandCollector where
  visitedNodes : List Path := []
  visitedEdges : List EdgeId := []
  inEdges : List EdgeId := []

def CommandCollector.collectFrom (w : World) :
    Nat → CommandCollector → Path → Option CommandCollector
  | 0, _, _ => none
  | fuel + 1, c, node =>
    if node ∈ c.visitedNodes then some c
    else
      let c := { c with visitedNodes := node :: c.visitedNodes }
      match w.producer node with
      | none => some c
      | some edge =>
        if edge ∈ c.visitedEdges then some c
        else do
          let c := { c with visitedEdges := edge :: c.visitedEdges }
          let c ← (w.edges edge).inputs.foldlM (collectFrom w fuel) c
          pure (if (w.edges edge).phony then c else { c with inEdges := c.inEdges ++ [edge] })

structure InputsCollector where
  inputs : List Path := []
  visited : List Path := []

def World.isPhonyOutput (w : World) (n : Path) : Bool :=
  (w.producer n).any fun e => (w.edges e).phony

def InputsCollector.visitInput (w : World)
    (visitNode : InputsCollector → Path → Option InputsCollector) (c : InputsCollector)
    (input : Path) : Option InputsCollector :=
  if input ∈ c.visited then some c
  else do
    let c := { c with visited := input :: c.visited }
    let c ← visitNode c input
    pure (if w.isPhonyOutput input then c else { c with inputs := c.inputs ++ [input] })

def InputsCollector.visitNode (w : World) : Nat → InputsCollector → Path → Option InputsCollector
  | 0, _, _ => none
  | fuel + 1, c, n =>
    match w.producer n with
    | none => some c
    | some e => (w.edges e).inputs.foldlM (visitInput w (visitNode w fuel)) c

inductive PrintCommandMode where
  | single | all
  deriving DecidableEq, Repr

/-- The edges that have been seen, and the text that has been printed. -/
structure Printer where
  seen : List EdgeId := []
  stdout : GoString := []

def Printer.printCommands (w : World) (mode : PrintCommandMode) :
    Nat → Printer → Option EdgeId → Option Printer
  | 0, _, _ => none
  | _ + 1, p, none => some p
  | fuel + 1, p, some edge =>
    if edge ∈ p.seen then some p
    else do
      let p := { p with seen := edge :: p.seen }
      let p ← match mode with
        | .all => (w.edges edge).inputs.foldlM (fun p input =>
            printCommands w mode fuel p (w.producer input)) p
        | .single => pure p
      pure (if (w.edges edge).phony then p
        else { p with stdout := p.stdout ++ (w.evaluateCommand edge false ++ [10]) })

/-! ### Commands -/

def World.commands (w : World) (es : List EdgeId) : List EdgeId :=
  es.filter fun e => !(w.edges e).phony

lemma World.commands_append (w : World) (es : List EdgeId) (e : EdgeId) :
    w.commands (es ++ [e]) = w.commands es ++ if (w.edges e).phony then [] else [e] := by
  rw [commands, commands, filter_append]
  cases h : (w.edges e).phony <;> simp [h]

section Commands

variable {w : World} {s s' : Tour EdgeId} {fuel : Nat}

/-- The marks of nodes tell nothing that the marks of edges do not tell. -/
structure CommandCollector.Follows (w : World) (c : CommandCollector) (s : Tour EdgeId) : Prop where
  edges : c.visitedEdges = s.visited
  inEdges : c.inEdges = w.commands s.listed
  nodes : ∀ n ∈ c.visitedNodes, ∀ e, w.producer n = some e → e ∈ s.visited

namespace CommandCollector

variable {c : CommandCollector}
variable {n : Path}

lemma Follows.node (h : Follows w c s) (hn : ∀ e, w.producer n = some e → e ∈ s.visited) :
    Follows w { c with visitedNodes := n :: c.visitedNodes } s :=
  ⟨h.edges, h.inEdges, forall_mem_cons.mpr ⟨hn, h.nodes⟩⟩

lemma Follows.mark (h : Follows w c s) {e : EdgeId} (hn : w.producer n = some e) :
    Follows w { c with visitedNodes := n :: c.visitedNodes, visitedEdges := e :: c.visitedEdges }
      (s.mark e) where
  edges := by rw [h.edges]; rfl
  inEdges := h.inEdges
  nodes := by
    refine forall_mem_cons.mpr ⟨fun f hf => ?_, fun m hm f hf => ?_⟩
    · rw [hn, Option.some.injEq] at hf
      exact hf ▸ mem_cons_self
    · exact mem_cons_of_mem e (h.nodes m hm f hf)

lemma Follows.list (h : Follows w c s) (e : EdgeId) :
    Follows w (if (w.edges e).phony then c else { c with inEdges := c.inEdges ++ [e] })
      (s.list e) := by
  have hlist : w.commands (s.list e).listed =
      c.inEdges ++ if (w.edges e).phony then [] else [e] := by
    rw [h.inEdges]
    exact w.commands_append s.listed e
  cases hphony : (w.edges e).phony with
  | true => exact ⟨h.edges, by simpa [hphony] using hlist.symm, h.nodes⟩
  | false => exact ⟨h.edges, by simpa [hphony] using hlist.symm, h.nodes⟩

lemma collectFrom_leaf (hc : Follows w c s) (hn : w.producer n = none) :
    ∃ c', collectFrom w (fuel + 1) c n = some c' ∧ Follows w c' s := by
  rw [collectFrom]
  split
  · exact ⟨c, rfl, hc⟩
  · simp only [hn]
    exact ⟨_, rfl, hc.node (by simp [hn])⟩

lemma collectFrom_simulates (w : World) (fuel : Nat) :
    Simulates (Follows w) w.producer (visit w.deps fuel) (collectFrom w (fuel + 1)) := by
  induction fuel with
  | zero =>
    intro n c s s' hc h
    cases hn : w.producer n with
    | none =>
      rw [hn] at h
      obtain rfl : s = s' := Option.some.inj h
      exact collectFrom_leaf hc hn
    | some e =>
      rw [hn] at h
      cases h
  | succ fuel ih =>
    intro n c s s' hc h
    cases hn : w.producer n with
    | none =>
      rw [hn] at h
      obtain rfl : s = s' := Option.some.inj h
      exact collectFrom_leaf hc hn
    | some e =>
      rw [hn, Option.elim_some, visit] at h
      rw [collectFrom]
      by_cases hnode : n ∈ c.visitedNodes
      · rw [if_pos (hc.nodes n hnode e hn)] at h
        obtain rfl : s = s' := Option.some.inj h
        exact ⟨c, if_pos hnode, hc⟩
      rw [if_neg hnode]
      simp only [hn]
      by_cases hedge : e ∈ s.visited
      · rw [if_pos hedge] at h
        obtain rfl : s = s' := Option.some.inj h
        rw [if_pos (hc.edges ▸ hedge)]
        exact ⟨_, rfl, hc.node fun f hf => Option.some.inj (hn.symm.trans hf) ▸ hedge⟩
      · rw [if_neg hedge] at h
        obtain ⟨s₁, h₁, rfl⟩ := Option.map_eq_some_iff.mp h
        obtain ⟨c₁, hc₁, hR⟩ := ih.foldlM (hc.mark hn) h₁
        rw [if_neg (hc.edges ▸ hedge), hc₁]
        exact ⟨_, rfl, hR.list e⟩

end CommandCollector

namespace Printer

def text (w : World) (es : List EdgeId) : GoString :=
  es.flatMap fun e => w.evaluateCommand e false ++ [10]

structure Follows (w : World) (p : Printer) (s : Tour EdgeId) : Prop where
  seen : p.seen = s.visited
  stdout : p.stdout = text w (w.commands s.listed)

variable {p : Printer}

lemma Follows.list (h : Follows w p s) (e : EdgeId) :
    Follows w (if (w.edges e).phony then p
      else { p with stdout := p.stdout ++ (w.evaluateCommand e false ++ [10]) }) (s.list e) := by
  have hlist : text w (w.commands (s.list e).listed) =
      p.stdout ++ text w (if (w.edges e).phony then [] else [e]) := by
    rw [h.stdout, text, text, text, ← flatMap_append, ← w.commands_append]
    rfl
  cases hphony : (w.edges e).phony with
  | true => exact ⟨h.seen, by simpa [hphony, text] using hlist.symm⟩
  | false => exact ⟨h.seen, by simpa [hphony, text] using hlist.symm⟩

lemma printCommands_simulates (w : World) (fuel : Nat) :
    Simulates (Follows w) id (visit w.deps fuel) (printCommands w .all (fuel + 1)) := by
  induction fuel with
  | zero =>
    intro edge p s s' hp h
    cases edge with
    | none =>
      obtain rfl : s = s' := Option.some.inj h
      exact ⟨p, rfl, hp⟩
    | some e => cases h
  | succ fuel ih =>
    intro edge p s s' hp h
    cases edge with
    | none =>
      obtain rfl : s = s' := Option.some.inj h
      exact ⟨p, rfl, hp⟩
    | some e =>
      rw [id, Option.elim_some, visit] at h
      rw [printCommands]
      by_cases hedge : e ∈ s.visited
      · rw [if_pos hedge] at h
        obtain rfl : s = s' := Option.some.inj h
        rw [if_pos (hp.seen ▸ hedge)]
        exact ⟨p, rfl, hp⟩
      · rw [if_neg hedge] at h
        obtain ⟨s₁, h₁, rfl⟩ := Option.map_eq_some_iff.mp h
        have hstep : Simulates (Follows w) w.producer (visit w.deps fuel) fun p input =>
            printCommands w .all (fuel + 1) p (w.producer input) :=
          fun input => ih (w.producer input)
        have hmark : Follows w { p with seen := e :: p.seen } (s.mark e) :=
          ⟨by rw [hp.seen]; rfl, hp.stdout⟩
        obtain ⟨p₁, hp₁, hR⟩ := hstep.foldlM hmark h₁
        rw [if_neg (hp.seen ▸ hedge)]
        simp only [hp₁]
        exact ⟨_, rfl, hR.list e⟩

end Printer

end Commands

section Inputs

variable {w : World} {s s' : Tour Path} {c : InputsCollector} {fuel : Nat}

namespace InputsCollector

structure Follows (w : World) (c : InputsCollector) (s : Tour Path) : Prop where
  visited : c.visited = s.visited
  inputs : c.inputs = s.listed.filter fun n => !w.isPhonyOutput n

lemma Follows.list (h : Follows w c s) (n : Path) :
    Follows w (if w.isPhonyOutput n then c else { c with inputs := c.inputs ++ [n] })
      (s.list n) := by
  have hlist : (s.list n).listed.filter (fun n => !w.isPhonyOutput n) =
      c.inputs ++ [n].filter (fun n => !w.isPhonyOutput n) := by
    rw [h.inputs, ← filter_append]
    rfl
  cases hphony : w.isPhonyOutput n with
  | true => exact ⟨h.visited, by simpa [hphony] using hlist.symm⟩
  | false => exact ⟨h.visited, by simpa [hphony] using hlist.symm⟩

lemma visitNode_follows
    (hsim : Simulates (Follows w) some (visit w.inputsOf fuel) (visitInput w (visitNode w fuel)))
    (hc : Follows w c s) {n : Path}
    (h : (w.inputsOf n).foldlM (visit w.inputsOf fuel) s = some s') :
    ∃ c', visitNode w (fuel + 1) c n = some c' ∧ Follows w c' s' := by
  rw [← filterMap_some (l := w.inputsOf n)] at h
  obtain ⟨c', hc', hR⟩ := hsim.foldlM hc h
  refine ⟨c', ?_, hR⟩
  rw [visitNode]
  unfold World.inputsOf at hc'
  cases hn : w.producer n with
  | none =>
    rw [hn] at hc'
    exact hc'
  | some e =>
    rw [hn] at hc'
    exact hc'

lemma visitInput_simulates (w : World) (fuel : Nat) :
    Simulates (Follows w) some (visit w.inputsOf fuel) (visitInput w (visitNode w fuel)) := by
  induction fuel with
  | zero =>
    intro n c s s' hc h
    cases h
  | succ fuel ih =>
    intro n c s s' hc h
    rw [Option.elim_some, visit] at h
    rw [visitInput]
    by_cases hn : n ∈ s.visited
    · rw [if_pos hn] at h
      obtain rfl : s = s' := Option.some.inj h
      exact ⟨c, if_pos (hc.visited ▸ hn), hc⟩
    · rw [if_neg hn] at h
      obtain ⟨s₁, h₁, rfl⟩ := Option.map_eq_some_iff.mp h
      have hmark : Follows w { c with visited := n :: c.visited } (s.mark n) :=
        ⟨by rw [hc.visited]; rfl, hc.inputs⟩
      obtain ⟨c₁, hc₁, hR⟩ := visitNode_follows ih hmark h₁
      rw [if_neg (hc.visited ▸ hn)]
      simp only [hc₁]
      exact ⟨_, rfl, hR.list n⟩

end InputsCollector

end Inputs

/-! ### The listings -/

section Listings

variable {w : World} {starts : List Path}

/-- The edges with a command that can be reached from the starts through inputs, each once, and
without a cycle after all that they depend on. -/
structure ListsCommands (w : World) (starts : List Path) (es : List EdgeId) : Prop where
  nodup : es.Nodup
  mem_iff : ∀ e, e ∈ es ↔ (w.edges e).phony = false ∧
    ∃ n ∈ starts, ∃ f, w.producer n = some f ∧ ReflTransGen w.DependsOn f e
  after : (∀ e, ¬ TransGen w.DependsOn e e) →
    ∀ l e r, es = l ++ e :: r → ∀ f ∈ es, TransGen w.DependsOn e f → f ∈ l

/-- One node is an input of the edge that produces the other. -/
def World.MadeFrom (w : World) (n m : Path) : Prop := m ∈ w.inputsOf n

/-- The transitive inputs of the starts that are not outputs of phony edges, each once, and without
a cycle after all that they are made from. -/
structure ListsInputs (w : World) (starts : List Path) (ns : List Path) : Prop where
  nodup : ns.Nodup
  mem_iff : ∀ n, n ∈ ns ↔ w.isPhonyOutput n = false ∧ ∃ m ∈ starts, TransGen w.MadeFrom m n
  after : (∀ e, ¬ TransGen w.DependsOn e e) →
    ∀ l n r, ns = l ++ n :: r → ∀ m ∈ ns, TransGen w.MadeFrom n m → m ∈ l

lemma listsCommands_of_isPostorder {es : List EdgeId}
    (h : IsPostorder w.deps (starts.filterMap w.producer) es) :
    ListsCommands w starts (w.commands es) where
  nodup := h.nodup.filter _
  mem_iff e := by
    rw [World.commands, mem_filter, h.mem_iff, and_comm]
    simp only [mem_filterMap, Bool.not_eq_true']
    constructor
    · rintro ⟨hphony, f, ⟨n, hn, hf⟩, hfe⟩
      exact ⟨hphony, n, hn, f, hf, hfe⟩
    · rintro ⟨hphony, n, hn, f, hf, hfe⟩
      exact ⟨hphony, f, ⟨n, hn, hf⟩, hfe⟩
  after hacyclic l e r hsplit f hf hef :=
    h.mem_of_filter hacyclic hsplit hef (mem_filter.mp hf).2

lemma dependsOn_of_madeFrom {n m : Path} (h : TransGen w.MadeFrom n m) {f : EdgeId}
    (hf : w.producer m = some f) : ∃ e, w.producer n = some e ∧ TransGen w.DependsOn e f := by
  have hstep {n m : Path} (h : w.MadeFrom n m) {f : EdgeId} (hf : w.producer m = some f) :
      ∃ e, w.producer n = some e ∧ w.DependsOn e f := by
    unfold World.MadeFrom World.inputsOf at h
    cases hn : w.producer n with
    | none =>
      rw [hn] at h
      cases h
    | some e =>
      rw [hn] at h
      exact ⟨e, rfl, mem_filterMap.mpr ⟨m, h, hf⟩⟩
  induction h generalizing f with
  | single h =>
    obtain ⟨e, he, hef⟩ := hstep h hf
    exact ⟨e, he, .single hef⟩
  | tail _ h ih =>
    obtain ⟨g, hg, hgf⟩ := hstep h hf
    obtain ⟨e, he, heg⟩ := ih hg
    exact ⟨e, he, heg.tail hgf⟩

lemma madeFrom_acyclic (h : ∀ e, ¬ TransGen w.DependsOn e e) (n : Path) :
    ¬ TransGen w.MadeFrom n n := by
  intro hn
  cases he : w.producer n with
  | none =>
    obtain ⟨m, hm, -⟩ := TransGen.head'_iff.mp hn
    unfold World.MadeFrom World.inputsOf at hm
    rw [he] at hm
    cases hm
  | some e =>
    obtain ⟨f, hf, hef⟩ := dependsOn_of_madeFrom hn he
    rw [he, Option.some.injEq] at hf
    exact h e (hf ▸ hef)

lemma listsInputs_of_isPostorder {ns : List Path}
    (h : IsPostorder w.inputsOf (starts.flatMap w.inputsOf) ns) :
    ListsInputs w starts (ns.filter fun n => !w.isPhonyOutput n) where
  nodup := h.nodup.filter _
  mem_iff n := by
    rw [mem_filter, h.mem_iff, and_comm]
    simp only [mem_flatMap, Bool.not_eq_true']
    constructor
    · rintro ⟨hphony, m, ⟨start, hstart, hm⟩, hmn⟩
      exact ⟨hphony, start, hstart, TransGen.head'_iff.mpr ⟨m, hm, hmn⟩⟩
    · rintro ⟨hphony, start, hstart, hn⟩
      obtain ⟨m, hm, hmn⟩ := TransGen.head'_iff.mp hn
      exact ⟨hphony, m, ⟨start, hstart, hm⟩, hmn⟩
  after hacyclic l n r hsplit m hm hnm :=
    h.mem_of_filter (madeFrom_acyclic hacyclic) hsplit hnm (mem_filter.mp hm).2

lemma visitNodes_follows {s s' : Tour Path} {c : InputsCollector} {fuel : Nat}
    (hc : c.Follows w s)
    (h : (starts.flatMap w.inputsOf).foldlM (visit w.inputsOf fuel) s = some s') :
    ∃ c', starts.foldlM (InputsCollector.visitNode w (fuel + 1)) c = some c' ∧ c'.Follows w s' := by
  induction starts generalizing c s with
  | nil =>
    obtain rfl : s = s' := Option.some.inj h
    exact ⟨c, rfl, hc⟩
  | cons n starts ih =>
    rw [flatMap_cons, foldlM_append] at h
    obtain ⟨s₁, h₁, h₂⟩ := Option.bind_eq_some_iff.mp h
    obtain ⟨c₁, hc₁, hR₁⟩ :=
      InputsCollector.visitNode_follows (InputsCollector.visitInput_simulates w fuel) hc h₁
    obtain ⟨c₂, hc₂, hR₂⟩ := ih hR₁ h₂
    exact ⟨c₂, by rw [foldlM_cons, hc₁]; exact hc₂, hR₂⟩

lemma eventually_listed {α σ β : Type} [DecidableEq α] {next : α → List α} {as : List α}
    {t : Tour α} {R : σ → Tour α → Prop} {run : Nat → Option σ} {out : σ → β} {b : β}
    (ht : ∀ᶠ fuel in atTop, as.foldlM (visit next fuel) {} = some t)
    (hrun : ∀ fuel, as.foldlM (visit next fuel) {} = some t →
      ∃ c, run (fuel + 1) = some c ∧ R c t)
    (hout : ∀ c, R c t → out c = b) : ∀ᶠ fuel in atTop, (run fuel).map out = some b := by
  refine Acyclic.eventually_succ (ht.mono fun fuel hfuel => ?_)
  obtain ⟨c, hc, hR⟩ := hrun fuel hfuel
  rw [hc, Option.map_some, hout c hR]

/-- **Listings of dependencies.** From any start nodes, on any graph, the three walks end.
`CollectFrom` and `PrintCommands` list the commands that the starts need, `VisitNode` the inputs. -/
theorem listings_exact (w : World) (hw : ∀ n e, w.producer n = some e → e < w.edgeCount)
    (starts : List Path) :
    (∃ es, ListsCommands w starts es ∧
      (∀ᶠ fuel in atTop, (starts.foldlM (CommandCollector.collectFrom w fuel) {}).map
        CommandCollector.inEdges = some es) ∧
      ∀ᶠ fuel in atTop, (starts.foldlM (fun p n =>
        Printer.printCommands w .all fuel p (w.producer n)) {}).map Printer.stdout =
          some (Printer.text w es)) ∧
    ∃ ns, ListsInputs w starts ns ∧
      ∀ᶠ fuel in atTop, (starts.foldlM (InputsCollector.visitNode w fuel) {}).map
        InputsCollector.inputs = some ns := by
  constructor
  · obtain ⟨t, ht, hpost⟩ := exists_isPostorder (World.deps_finite hw) (fun e f h => ⟨e, h⟩)
      (starts.filterMap w.producer)
    refine ⟨w.commands t.listed, listsCommands_of_isPostorder hpost, ?_, ?_⟩
    · refine eventually_listed (R := CommandCollector.Follows w) ht (fun fuel h => ?_)
        fun _ hR => hR.inEdges
      exact (CommandCollector.collectFrom_simulates w fuel).foldlM ⟨rfl, rfl, nofun⟩ h
    · refine eventually_listed (R := Printer.Follows w) ht (fun fuel h => ?_)
        fun _ hR => hR.stdout
      have hstep : Simulates (Printer.Follows w) w.producer (visit w.deps fuel) fun p n =>
          Printer.printCommands w .all (fuel + 1) p (w.producer n) :=
        fun n => Printer.printCommands_simulates w fuel (w.producer n)
      exact hstep.foldlM ⟨rfl, rfl⟩ h
  · obtain ⟨t, ht, hpost⟩ := exists_isPostorder (Cleaner.inputsOf_finite hw) (fun n m h => ⟨n, h⟩)
      (starts.flatMap w.inputsOf)
    refine ⟨_, listsInputs_of_isPostorder hpost, ?_⟩
    exact eventually_listed ht (fun fuel h => visitNodes_follows ⟨rfl, rfl⟩ h) fun _ hR => hR.inputs

def twoEdgeCycle : World where
  edgeCount := 2
  edges := fun e => if e = 0 then { outputs := [[97]], explicitInputs := [[98]] }
    else { outputs := [[98]], explicitInputs := [[97]] }
  nodes := fun n => if n = [97] then { inEdge := some 0 } else if n = [98] then { inEdge := some 1 }
    else {}

lemma twoEdgeCycle_finite :
    ∀ n e, twoEdgeCycle.producer n = some e → e < twoEdgeCycle.edgeCount := by
  intro n e he
  by_cases ha : n = [97]
  · simp only [World.producer, twoEdgeCycle, if_pos ha, Option.some.injEq] at he
    exact he ▸ Nat.two_pos
  · by_cases hb : n = [98]
    · simp only [World.producer, twoEdgeCycle, if_neg ha, if_pos hb, Option.some.injEq] at he
      exact he ▸ Nat.one_lt_two
    · simp [World.producer, twoEdgeCycle, ha, hb] at he

theorem listings_exact_twoEdgeCycle :
    (∀ n e, twoEdgeCycle.producer n = some e → e < twoEdgeCycle.edgeCount) ∧
      ∃ ns, ListsInputs twoEdgeCycle [[97]] ns ∧
        ∀ᶠ fuel in atTop, ([[97]].foldlM (InputsCollector.visitNode twoEdgeCycle fuel) {}).map
          InputsCollector.inputs = some ns :=
  ⟨twoEdgeCycle_finite, (listings_exact twoEdgeCycle twoEdgeCycle_finite [[97]]).2⟩

end Listings

end Reninja
