import Reninja.Plan.Steps

/-!
# The calls of a builder to its plan

A builder adds its targets, prepares the queue, takes work, and tells the plan which edges have
finished and which nodes have become clean. Here are the states that such calls lead to, in any
order and with any outcome, and what each call does to a state in the steps of the plan.
-/

namespace Reninja

open Program

variable {w w' : World} {k : Nat}

/-- One call of a builder to its plan. `CleanNode` is called for an output of a command that is
about to finish. -/
inductive Call where
  | addTarget (n : Path)
  | prepareQueue
  | findWork
  | edgeFinished (e : EdgeId) (r : EdgeResult)
  | cleanNode (e : EdgeId) (n : Path)
  | loadDyndeps (n : Path)

/-- Make a call; `FindWork` returns an edge. -/
def Call.run (env : Env) (fuel : Nat) : Call → M (Option EdgeId)
  | .addTarget n => do let _ ← builderAddTarget env fuel n; pure none
  | .prepareQueue => do Reninja.prepareQueue env fuel; pure none
  | .findWork => Reninja.findWork
  | .edgeFinished e r => do let _ ← Reninja.edgeFinished env fuel e r; pure none
  | .cleanNode _ n => do Reninja.cleanNode env fuel n; pure none
  | .loadDyndeps n => do builderLoadDyndeps env fuel (Reninja.edgeFinished env fuel) n; pure none

section Drop

variable {α : Type} {m : M α} {w w' : World} {found : Option EdgeId}

lemma finalState_drop : finalState ((do let _ ← m; pure none : M (Option EdgeId)) w) =
    finalState (m w) := finalState_bind fun _ _ => rfl

lemma drop_ok (hok : (do let _ ← m; pure none : M (Option EdgeId)) w = .ok found w') :
    ∃ a, m w = .ok a w' := by
  obtain ⟨a, t, hm, hpure⟩ := bind_ok.mp hok
  obtain ⟨-, rfl⟩ := pure_ok.mp hpure
  exact ⟨a, hm⟩

end Drop

/-- How far a builder is: whether the queue is prepared, the edges that `FindWork` has returned
and that were not passed to `EdgeFinished` since, and the command whose outputs are being
cleaned. -/
structure Run where
  prepared : Bool := false
  running : List EdgeId := []
  finishing : Option EdgeId := none

/-- The calls that a builder makes: it passes each edge that `FindWork` has returned to
`EdgeFinished` once, and before that cleans outputs of the edge if it is a command that has
succeeded. -/
def Run.Allows (r : Run) (w : World) : Call → Prop
  | .addTarget _ | .prepareQueue => r.prepared = false
  | .findWork => r.prepared = true ∧ r.finishing = none
  | .edgeFinished e result => e ∈ r.running ∧
      (r.finishing = none ∨ r.finishing = some e ∧ result = .succeeded)
  | .cleanNode e n => e ∈ r.running ∧ (w.edges e).phony = false ∧
      n ∈ (w.edges e).outputs ∧ (r.finishing = none ∨ r.finishing = some e)
  | .loadDyndeps n => r.prepared = true ∧ r.finishing = none ∧
      (w.nodes n).dyndepPending = true

def Run.after (r : Run) : Call → Option EdgeId → Run
  | .prepareQueue, _ => { r with prepared := true }
  | .findWork, found => { r with running := r.running ++ found.toList }
  | .edgeFinished e _, _ => { r with running := r.running.erase e, finishing := none }
  | .cleanNode e _, _ => { r with finishing := some e }
  | _, _ => r

/-- A plan that nothing was added to. -/
structure World.Unplanned (w : World) : Prop where
  want : w.want = fun _ => none
  ready : w.ready = []
  unused : ∀ p, (w.pools p).currentUse = 0
  delayed : ∀ p, (w.pools p).delayed = []
  wantedEdges : w.wantedEdges = 0
  commandEdges : w.commandEdges = 0
  trace : w.trace = []

/-- What the builder and its commands change between two calls: the disk, the logs and the times
at which commands were started; and it is told which commands have been reaped. -/
def World.Elsewhere (w w' : World) : Prop :=
  ∃ (start : EdgeId → TimeStamp) (reaped : List (EdgeId × Bool)), w' = { w with
    disk := w'.disk, buildLog := w'.buildLog, depsLog := w'.depsLog
    edges := fun e => { w.edges e with commandStartTime := start e }
    trace := w.trace ++ reaped.map fun p => .reaped p.1 p.2 }

def World.Feeds (w : World) (e f : EdgeId) : Prop :=
  ∃ o ∈ (w.edges e).outputs, f ∈ (w.nodes o).outEdges

def World.Acyclic (w : World) : Prop := ∀ e, ¬ Relation.TransGen w.Feeds e e

/-- The states between the calls of a builder to the plan of an acyclic graph, as long as no call
has failed. -/
inductive Reached (env : Env) : Run → World → Prop
  | start (w : World) (h : w.Unplanned) : Reached env {} w
  | call (r : Run) (w w' : World) (c : Call) (fuel : Nat) (found : Option EdgeId)
      (h : Reached env r w) (hacyclic : w.Acyclic) (hallows : r.Allows w c)
      (hok : c.run env fuel w = .ok found w') : Reached env (r.after c found) w'
  | elsewhere (r : Run) (w w' : World) (h : Reached env r w) (hw : w.Elsewhere w') :
      Reached env r w'

/-- The states that a builder comes to: those between its calls, and the one in which a call has
failed. -/
def Visited (env : Env) (w : World) : Prop :=
  ∃ r w₀, Reached env r w₀ ∧ (w = w₀ ∨ ∃ c fuel, w₀.Acyclic ∧ r.Allows w₀ c ∧
    w = finalState (c.run env fuel w₀))

/-- The states that a builder comes to, with how far it is then: those between its calls, and the
one in which a call has failed. A call that fails has taken its edge. -/
inductive Seen (env : Env) : Run → World → Prop
  | between (r : Run) (w : World) (h : Reached env r w) : Seen env r w
  | failed (r : Run) (w w' : World) (c : Call) (fuel : Nat) (f : Failure) (h : Reached env r w)
      (hacyclic : w.Acyclic) (hallows : r.Allows w c) (hfail : c.run env fuel w = .error f w')
      (hf : f ≠ .outOfFuel) : Seen env (r.after c none) w'

namespace World

variable (w : World)

def acquire (e : EdgeId) (js : Jobserver) : World :=
  let slot := js.offers js.taken
  ({ w with jobserver := some { js with taken := js.taken + 1 } }.log (.acquired slot)).setEdge e
    fun x => { x with jobSlot := slot }

def take (e : EdgeId) : World := { w with ready := w.ready.erase e }.log (.found e)

end World

lemma findWork_apply (w : World) : findWork w =
    match w.peek, w.jobserver with
    | none, _ => .ok none w
    | some e, none => .ok (some e) (w.take e)
    | some e, some js =>
      if (js.offers js.taken).valid then .ok (some e) ((w.acquire e js).take e)
      else .ok none (w.acquire e js) := by
  simp only [findWork, bind_apply, get_apply]
  cases w.peek with
  | none => rfl
  | some e =>
    cases w.jobserver with
    | none => rfl
    | some js =>
      cases h : (js.offers js.taken).valid <;>
        simp only [tryAcquire, updEdge, record, bind_apply, modify_apply, pure_apply, h,
          Bool.false_eq_true, if_false, if_true, World.acquire, World.take]

/-- Ask the jobserver, if there is one, for the slot of an edge. -/
inductive World.Asks (w : World) (e : EdgeId) : World → Prop
  | free (h : w.jobserver = none) : w.Asks e w
  | slot (js : Jobserver) (h : w.jobserver = some js) : w.Asks e (w.acquire e js)

lemma findWork_cases (w : World) : (w.peek = none ∧ findWork w = .ok none w) ∨
    ∃ e t, w.peek = some e ∧ w.Asks e t ∧
      (findWork w = .ok none t ∨ findWork w = .ok (some e) (t.take e)) := by
  rw [findWork_apply]
  cases hp : w.peek with
  | none => exact .inl ⟨rfl, rfl⟩
  | some e =>
    refine .inr ?_
    cases hj : w.jobserver with
    | none => exact ⟨e, w, rfl, .free hj, .inr rfl⟩
    | some js =>
      refine ⟨e, w.acquire e js, rfl, .slot js hj, ?_⟩
      by_cases hv : (js.offers js.taken).valid = true
      · exact .inr (if_pos hv)
      · exact .inl (if_neg hv)

/-- Acquiring a slot changes nothing else of an edge. -/
lemma World.acquire_edges (w : World) (e : EdgeId) (js : Jobserver) (f : EdgeId) :
    ∃ slot, (w.acquire e js).edges f = { w.edges f with jobSlot := slot } := by
  rw [World.acquire]
  exact World.setEdge_forall (P := fun a b => ∃ slot, b = { a with jobSlot := slot })
    (fun x => ⟨x.jobSlot, rfl⟩) ⟨_, rfl⟩ f

/-- What was recorded is recorded, and an edge without a dyndep binding keeps its outputs. -/
structure Frames (w w' : World) : Prop where
  trace : ∃ t, w'.trace = w.trace ++ t
  kept : ∀ e, (w.edges e).dyndep = none →
    (w'.edges e).dyndep = none ∧ (w'.edges e).outputs = (w.edges e).outputs

lemma Grows.frames (h : Grows w w') : Frames w w' := ⟨h.trace, h.kept⟩

lemma World.Asks.frames {w t : World} {e : EdgeId} (h : w.Asks e t) : Frames w t := by
  cases h with
  | free _ => exact ⟨⟨[], (List.append_nil _).symm⟩, fun f hf => ⟨hf, rfl⟩⟩
  | slot js _ =>
    refine ⟨⟨_, rfl⟩, fun f hf => ?_⟩
    obtain ⟨slot, hslot⟩ := w.acquire_edges e js f
    rw [hslot]
    exact ⟨hf, rfl⟩

lemma Call.run_steps {c : Call} (hc : c ≠ .findWork) (env : Env) (fuel : Nat) (w : World) :
    Steps .any w (finalState (c.run env fuel w)) := by
  cases c with
  | addTarget n =>
    rw [Call.run, finalState_drop]
    exact builderAddTarget_steps env fuel n
  | prepareQueue =>
    rw [Call.run, finalState_drop]
    exact prepareQueue_steps (fun _ _ => trivial) env fuel trivial fun _ _ _ _ => trivial
  | findWork => exact absurd rfl hc
  | edgeFinished e result =>
    rw [Call.run, finalState_drop]
    exact edgeFinished_steps env fuel result (.inr trivial)
  | cleanNode e n =>
    rw [Call.run, finalState_drop]
    exact cleanNode_steps (fun _ _ => trivial) env fuel n
  | loadDyndeps n =>
    rw [Call.run, finalState_drop]
    exact builderLoadDyndeps_steps
      (fun t e he => edgeFinished_steps env fuel .succeeded (.inl he)) n

lemma Call.run_frames (c : Call) (env : Env) (fuel : Nat) {w : World} :
    Frames w (finalState (c.run env fuel w)) := by
  by_cases hc : c = .findWork
  · subst hc
    rw [Call.run]
    rcases findWork_cases w with ⟨-, hok⟩ | ⟨e, t, -, hasks, hok⟩
    · rw [hok]
      exact ⟨⟨[], (List.append_nil _).symm⟩, fun f hf => ⟨hf, rfl⟩⟩
    · obtain ⟨l, hl⟩ := hasks.frames.trace
      rcases hok with hok | hok
      · rw [hok]
        exact hasks.frames
      · rw [hok]
        refine ⟨⟨l ++ [.found e], ?_⟩, hasks.frames.kept⟩
        rw [← List.append_assoc, ← hl]
        rfl
  · exact (Steps.grows (Call.run_steps hc env fuel w)).frames

/-! ### Given runs -/

/-- The edges are numbered in the order in which they feed each other, as far as there are any. -/
def World.Ordered (k : Nat) (w : World) : Prop :=
  ∀ e < k, ∀ o ∈ (w.edges e).outputs, ∀ f ∈ (w.nodes o).outEdges, e < f

instance (k : Nat) (w : World) : Decidable (w.Ordered k) :=
  inferInstanceAs (Decidable (∀ e < k, _))

def World.Bounded (k : Nat) (w : World) : Prop :=
  ∀ e, k ≤ e → (w.edges e).dyndep = none ∧ (w.edges e).outputs = []

lemma World.Bounded.frames (h : w.Bounded k) (hf : Frames w w') : w'.Bounded k := by
  intro e he
  obtain ⟨hd, ho⟩ := h e he
  obtain ⟨hd', ho'⟩ := hf.kept e hd
  exact ⟨hd', ho'.trans ho⟩

lemma World.Bounded.acyclic {w : World} (h : w.Bounded k) (ho : w.Ordered k) : w.Acyclic := by
  have hlt : ∀ e f, w.Feeds e f → (e : Nat) < f := by
    rintro e f ⟨o, hmem, hout⟩
    by_cases he : e < k
    · exact ho e he o hmem f hout
    · rw [(h e (Nat.le_of_not_lt he)).2] at hmem
      cases hmem
  intro e he
  have htrans : ∀ f, Relation.TransGen w.Feeds e f → (e : Nat) < f := by
    intro f hf
    induction hf with
    | single h => exact hlt _ _ h
    | tail _ h ih => exact Nat.lt_trans ih (hlt _ _ h)
  exact Nat.lt_irrefl e (htrans e he)

instance (r : Run) (w : World) (c : Call) : Decidable (r.Allows w c) := by
  cases c <;> unfold Run.Allows <;> infer_instance

/-- What a builder does next: it calls the plan, or a command writes a file. -/
inductive Act where
  | call (c : Call)
  | write (p : Path) (content : GoString)

/-- Act in a given order; nothing when a call fails or is not allowed. -/
def runActs (env : Env) (fuel k : Nat) : List Act → Run → World → Option (Run × World)
  | [], r, w => some (r, w)
  | .write p content :: acts, r, w =>
    runActs env fuel k acts r { w with disk := w.disk.put p content false }
  | .call c :: acts, r, w =>
    if r.Allows w c ∧ w.Ordered k then
      match c.run env fuel w with
      | .ok found w' => runActs env fuel k acts (r.after c found) w'
      | .error _ _ => none
    else
      none

lemma Reached.runActs {env : Env} {fuel k : Nat} {acts : List Act} {r r' : Run}
    (h : Reached env r w) (hk : w.Bounded k)
    (hrun : Reninja.runActs env fuel k acts r w = some (r', w')) : Reached env r' w' := by
  induction acts generalizing r w with
  | nil =>
    cases hrun
    exact h
  | cons act acts ih =>
    cases act with
    | write p content =>
      have hw : w.Elsewhere { w with disk := w.disk.put p content false } :=
        ⟨fun e => (w.edges e).commandStartTime, [], by rw [List.map_nil, List.append_nil]⟩
      exact ih (.elsewhere r w _ h hw) hk hrun
    | call c =>
      rw [Reninja.runActs] at hrun
      split at hrun
      · rename_i hallows
        split at hrun
        · rename_i found t hok
          have hframes := c.run_frames env fuel (w := w)
          rw [hok] at hframes
          exact ih (.call r w t c fuel found h (hk.acyclic hallows.2) hallows.1 hok)
            (hk.frames hframes) hrun
        · cases hrun
      · cases hrun

/-- What holds at the end of a given run holds in a state between the calls of a builder. -/
lemma exists_of_runActs {env : Env} (fuel : Nat) (acts : List Act) {w : World}
    {P : Run → World → Prop} [∀ r w, Decidable (P r w)] (hw : w.Unplanned) (hk : w.Bounded k)
    (h : ((runActs env fuel k acts {} w).any fun s => decide (P s.1 s.2)) = true) :
    ∃ r w', Reached env r w' ∧ P r w' := by
  cases hrun : runActs env fuel k acts {} w with
  | none =>
    rw [hrun] at h
    cases h
  | some s =>
    rw [hrun] at h
    exact ⟨s.1, s.2, Reached.runActs (.start w hw) hk hrun, of_decide_eq_true h⟩

end Reninja
