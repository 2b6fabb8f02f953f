import Reninja.Build.Runs
import Reninja.Plan.Counters
import Reninja.Plan.Pools

/-!
# A build is a run of its plan

The main loop tells the plan of each edge that it has taken exactly once, whatever the runner does,
as long as the runner returns the commands that were started, each of them once. So every moment of
a build is a state between two calls to the plan, and what holds in all of these holds throughout
the build; here it follows that a build succeeds only when all that was wanted has been made.
-/

namespace Reninja

open Program Relation List

variable {found : Option EdgeId}

/-! ### The graph during a build -/

/-- The graph has only been added to. -/
structure World.Widens (w w' : World) : Prop extends Frames w w' where
  phony : ∀ e, (w'.edges e).phony = (w.edges e).phony
  outputs : ∀ e, (w.edges e).outputs ⊆ (w'.edges e).outputs
  outEdges : ∀ n, (w.nodes n).outEdges ⊆ (w'.nodes n).outEdges

section Graph

variable {env : Env} {fuel : Nat} {w w' w'' : World} {run run' run'' : Run}

lemma World.Widens.of_same (hedges : ∀ e, (w'.edges e).phony = (w.edges e).phony ∧
      (w'.edges e).outputs = (w.edges e).outputs ∧ (w'.edges e).dyndep = (w.edges e).dyndep)
    (hnodes : w'.nodes = w.nodes) (l : List Event) (htrace : w'.trace = w.trace ++ l) :
    w.Widens w' where
  trace := ⟨l, htrace⟩
  kept e h := ⟨(hedges e).2.2.trans h, (hedges e).2.1⟩
  phony e := (hedges e).1
  outputs e := (hedges e).2.1 ▸ List.Subset.refl _
  outEdges _ := hnodes ▸ List.Subset.refl _

lemma World.Widens.trans (h₁ : w.Widens w') (h₂ : w'.Widens w'') : w.Widens w'' where
  trace := by
    obtain ⟨l₁, hl₁⟩ := h₁.trace
    obtain ⟨l₂, hl₂⟩ := h₂.trace
    exact ⟨l₁ ++ l₂, by rw [hl₂, hl₁, append_assoc]⟩
  kept e h :=
    have hw' := h₁.kept e h
    have hw'' := h₂.kept e hw'.1
    ⟨hw''.1, hw''.2.trans hw'.2⟩
  phony e := (h₂.phony e).trans (h₁.phony e)
  outputs e := List.Subset.trans (h₁.outputs e) (h₂.outputs e)
  outEdges n := List.Subset.trans (h₁.outEdges n) (h₂.outEdges n)

/-- A graph that is acyclic in the end was acyclic before. -/
lemma World.Widens.acyclic (h : w.Widens w') (hacyclic : w'.Acyclic) : w.Acyclic := fun e he =>
  hacyclic e (he.lift id fun _ _ ⟨o, ho, hf⟩ => ⟨o, h.outputs _ ho, h.outEdges o hf⟩)

lemma Grows.widens (h : Grows w w') : w.Widens w' := ⟨h.frames, h.phony, h.outputs, h.outEdges⟩

lemma World.Elsewhere.widens (h : w.Elsewhere w') : w.Widens w' := by
  obtain ⟨start, reaped, hw⟩ := h
  rw [hw]
  exact .of_same (fun _ => ⟨rfl, rfl, rfl⟩) rfl _ rfl

lemma World.Asks.widens {e : EdgeId} (h : w.Asks e w') : w.Widens w' := by
  cases h with
  | free _ => exact .of_same (fun _ => ⟨rfl, rfl, rfl⟩) rfl [] (append_nil _).symm
  | slot js _ =>
    refine .of_same (fun f => ?_) rfl _ rfl
    obtain ⟨slot, hslot⟩ := w.acquire_edges e js f
    rw [hslot]
    exact ⟨rfl, rfl, rfl⟩

lemma Call.run_widens {c : Call} (hok : c.run env fuel w = .ok found w') : w.Widens w' := by
  by_cases hc : c = .findWork
  · subst hc
    rw [Call.run] at hok
    rcases findWork_cases w with ⟨-, hw⟩ | ⟨e, t, -, hasks, hw | hw⟩
    · cases hw.symm.trans hok
      exact .of_same (fun _ => ⟨rfl, rfl, rfl⟩) rfl [] (append_nil _).symm
    · cases hw.symm.trans hok
      exact hasks.widens
    · cases hw.symm.trans hok
      exact hasks.widens.trans (.of_same (fun _ => ⟨rfl, rfl, rfl⟩) rfl _ rfl)
  · have hgrows := (Call.run_steps hc env fuel w).grows
    rw [hok] at hgrows
    exact hgrows.widens

/-! ### Following the plan -/

/-- A builder that is as far as `run` comes to be as far as `run'` by calls to its plan, if the
graph is acyclic in the end. -/
structure Follows (env : Env) (run : Run) (w : World) (run' : Run) (w' : World) : Prop where
  widens : w.Widens w'
  reached : w'.Acyclic → Reached env run w → Reached env run' w'

lemma Follows.trans (h₁ : Follows env run w run' w') (h₂ : Follows env run' w' run'' w'') :
    Follows env run w run'' w'' :=
  ⟨h₁.widens.trans h₂.widens, fun hacyclic hreached =>
    h₂.reached hacyclic (h₁.reached (h₂.widens.acyclic hacyclic) hreached)⟩

lemma Follows.elsewhere (h : w.Elsewhere w') : Follows env run w run w' :=
  ⟨h.widens, fun _ hreached => .elsewhere run w w' hreached h⟩

lemma Follows.call {c : Call} (hallows : run.Allows w c) (hok : c.run env fuel w = .ok found w') :
    Follows env run w (run.after c found) w' :=
  have hwidens := Call.run_widens hok
  ⟨hwidens, fun hacyclic hreached =>
    .call run w w' c fuel found hreached (hwidens.acyclic hacyclic) hallows hok⟩

/-! ### Finishing a command -/

variable {e : EdgeId}

lemma edgeFinished_follows {result : EdgeResult} (run : Run) (hrun : e ∈ run.running)
    (hfinishing : run.finishing = none ∨ run.finishing = some e ∧ result = .succeeded)
    (hok : edgeFinished env fuel e result w = .ok true w') :
    Follows env run w { run with running := run.running.erase e, finishing := none } w' :=
  .call (c := .edgeFinished e result) ⟨hrun, hfinishing⟩
    (bind_ok.mpr ⟨true, w', hok, pure_ok.mpr ⟨rfl, rfl⟩⟩)

lemma restatOutputs_follows {restat : Bool} {acc acc' : Restat} {os : List Path}
    (hrun : e ∈ run.running) (hphony : (w.edges e).phony = false) (hos : os ⊆ (w.edges e).outputs)
    (hfinishing : run.finishing = none ∨ run.finishing = some e)
    (hok : restatOutputs env fuel restat acc os w = .ok (some acc') w') :
    ∃ finishing, (finishing = none ∨ finishing = some e) ∧
      Follows env run w { run with finishing := finishing } w' := by
  induction os generalizing run w acc with
  | nil =>
    obtain ⟨-, rfl⟩ := pure_ok.mp hok
    exact ⟨run.finishing, hfinishing, .elsewhere (Std.Refl.refl w)⟩
  | cons o os ih =>
    obtain ⟨ho, hos⟩ := cons_subset.mp hos
    simp only [restatOutputs, bind_ok, get_ok, orError_ok] at hok
    obtain ⟨_, _, ⟨rfl, rfl⟩, mtime, _, ⟨-, rfl⟩, hok⟩ := hok
    split at hok
    · cases (pure_ok.mp hok).1
    · split at hok
      · obtain ⟨_, w₁, hclean, hok⟩ := bind_ok.mp hok
        have hcall : Follows env run w { run with finishing := some e } w₁ :=
          .call (c := .cleanNode e o) ⟨hrun, hphony, ho, hfinishing⟩
            (bind_ok.mpr ⟨_, w₁, hclean, pure_ok.mpr ⟨rfl, rfl⟩⟩)
        obtain ⟨finishing, hend, hrest⟩ := @ih w₁ { run with finishing := some e } _ hrun
          ((hcall.widens.phony e).trans hphony)
          (List.Subset.trans hos (hcall.widens.outputs e)) (.inr rfl) hok
        exact ⟨finishing, hend, hcall.trans hrest⟩
      · exact ih hrun hphony hos hfinishing hok

lemma computeRecordMtime_follows {mtime : TimeStamp} (hrun : e ∈ run.running)
    (hphony : (w.edges e).phony = false) (hfinishing : run.finishing = none)
    (hok : computeRecordMtime env fuel e w = .ok (some mtime) w') :
    ∃ finishing, (finishing = none ∨ finishing = some e) ∧
      Follows env run w { run with finishing := finishing } w' := by
  have hkeep : Follows env run w { run with finishing := run.finishing } w :=
    .elsewhere (Std.Refl.refl w)
  rw [computeRecordMtime, get_bind_ok] at hok
  split at hok
  · obtain ⟨-, rfl⟩ := pure_ok.mp hok
    exact ⟨_, .inl hfinishing, hkeep⟩
  · split at hok
    · obtain ⟨acc, w₁, hrestat, hok⟩ := bind_ok.mp hok
      cases acc with
      | none => cases (pure_ok.mp hok).1
      | some acc =>
        obtain ⟨-, rfl⟩ := pure_ok.mp hok
        exact restatOutputs_follows hrun hphony (List.Subset.refl _) (.inl hfinishing) hrestat
    · obtain ⟨-, rfl⟩ := pure_ok.mp hok
      exact ⟨_, .inl hfinishing, hkeep⟩

lemma World.elsewhere_logs (w : World) (log : Option (Path → Option LogEntry))
    (deps : Option DepsLog) : w.Elsewhere { w with buildLog := log, depsLog := deps } :=
  ⟨fun e => (w.edges e).commandStartTime, [], by simp⟩

lemma recordIdIfMissing_elsewhere (n : Path) : Moves World.Elsewhere w (recordIdIfMissing n) := by
  refine .get_bind ?_
  cases w.depsLog with
  | none => exact .throw _
  | some l =>
    refine .ite (fun _ => .pure _) fun _ => ?_
    refine .ite (fun _ => .throw _) fun _ => .ite (fun _ => .throw _) fun _ => ?_
    exact .modify (w.elsewhere_logs _ _)

lemma recordOutputDeps_elsewhere (nodes os : List Path) :
    Moves World.Elsewhere w (recordOutputDeps nodes os) := by
  induction os generalizing w with
  | nil => exact .pure _
  | cons o os ih =>
    refine .get_bind (.bind (orError_moves _) fun _ _ _ => ?_)
    refine .ite (fun _ => .pure _) fun _ => .bind ?_ fun _ _ _ => ih
    refine .get_bind (.bind (.forEach fun n _ _ => recordIdIfMissing_elsewhere n)
      fun _ t _ => .ite (fun _ => .pure _) fun _ => .ite (fun _ => .throw _)
      fun _ => .modify (t.elsewhere_logs _ _))

lemma recordFinished_elsewhere (depsType : GoString) (nodes : List Path) (mtime : TimeStamp) :
    Moves World.Elsewhere w (recordFinished env e depsType nodes mtime) := by
  refine .bind (.modify ?_) fun _ _ _ => .bind ?_ fun _ _ _ => ?_
  · split
    · exact w.elsewhere_disk _
    · exact Std.Refl.refl w
  · refine .get_bind (.ite (fun _ => .get_bind ?_) fun _ => .pure _)
    exact .bind (getEdge_moves e) fun _ _ _ => .forEach fun o _ t =>
      Moves.modify (t.elsewhere_logs _ _)
  · refine .bind (getEdge_moves e) fun _ _ _ => .ite (fun _ => ?_) fun _ => .pure _
    exact .ite (fun _ => .throw _) fun _ => recordOutputDeps_elsewhere _ _

/-- A command that has succeeded is finished once, after its unchanged outputs were cleaned. -/
lemma finishSuccess_follows {depsType : GoString} {nodes : List Path} (hrun : e ∈ run.running)
    (hphony : (w.edges e).phony = false) (hfinishing : run.finishing = none)
    (hok : finishSuccess env fuel e depsType nodes w = .ok true w') :
    Follows env run w { run with running := run.running.erase e, finishing := none } w' := by
  obtain ⟨mtime, w₁, hmtime, hok⟩ := bind_ok.mp hok
  cases mtime with
  | none => cases (pure_ok.mp hok).1
  | some mtime =>
    obtain ⟨done, w₂, hfinish, hok⟩ := bind_ok.mp hok
    cases done with
    | false => cases (pure_ok.mp hok).1
    | true =>
      obtain ⟨finishing, hend, hclean⟩ := computeRecordMtime_follows hrun hphony hfinishing hmtime
      have hfinished : Follows env { run with finishing := finishing } w₁ _ w₂ :=
        edgeFinished_follows _ hrun (hend.imp_right fun h => ⟨h, rfl⟩) hfinish
      have hrecord : w₂.Elsewhere w' := (recordFinished_elsewhere _ _ _).of_ok hok
      exact (hclean.trans hfinished).trans (.elsewhere hrecord)

end Graph

/-! ### The loop -/

variable {ρ : Type}

/-- A runner that returns the commands it has started, each of them once. `active` lists those that
it has not returned yet. -/
structure CommandRunner.Returns (r : CommandRunner ρ) (active : ρ → List EdgeId) : Prop where
  canRunMore : ∀ w s, active (r.canRunMore w s).2 = active s
  startCommand : ∀ {e w s disk s'}, r.startCommand e w s = (.ok (), disk, s') →
    (active s').Perm (e :: active s)
  waitForCommand : ∀ {w s result disk s'}, r.waitForCommand w s = (some result, disk, s') →
    (active s).Perm (result.edge :: active s')
  cacheResult : ∀ w result nodes s, active (r.cacheResult w result nodes s) = active s
  cancel : ∀ s, active (r.cancel s) = active s

/-- The plan has been told of all edges but the commands that the runner has. -/
structure Moment.Plans (active : ρ → List EdgeId) (m : Moment) (b : Builder ρ) (run : Run) :
    Prop where
  prepared : run.prepared = true
  finishing : run.finishing = none
  running : run.running.Perm (active b.runner)
  pending : run.running.length = m.pending
  command : ∀ e ∈ run.running, (b.world.edges e).phony = false

section Loop

variable {env : Env} {r : CommandRunner ρ} {active : ρ → List EdgeId} {b b' : Builder ρ}
  {m m' : Moment} {fuel : Nat} {run : Run}
variable {w : World} {e : EdgeId}

lemma Moment.Plans.command_of (h : m.Plans active b run) (hw : b.world.Widens w)
    (he : e ∈ run.running) : (w.edges e).phony = false :=
  (hw.phony e).trans (h.command e he)

lemma findWork_follows (env : Env) {found : Option EdgeId} (h : m.Plans active b run)
    (hok : lift findWork b = .ok found b') : b'.runner = b.runner ∧
      Follows env run b.world { run with running := run.running ++ found.toList } b'.world := by
  obtain ⟨w, hfind, rfl⟩ := lift_ok hok
  have hcall : Call.findWork.run env 0 b.world = .ok found w := hfind
  exact ⟨rfl, .call (c := .findWork) ⟨h.prepared, h.finishing⟩ hcall⟩

lemma Moment.Plans.startFound {capacity : Int} {b₁ : Builder ρ} (hr : r.Returns active)
    (h : m.Plans active b run) (hfind : lift findWork b = .ok (some e) b₁)
    (hok : startFound env r fuel m capacity e b₁ = .ok (.ok m') b') :
    ∃ run', Follows env run b.world run' b'.world ∧ m'.Plans active b' run' := by
  obtain ⟨hrunner, hfound⟩ := findWork_follows env h hfind
  have hmem : e ∈ run.running ++ [e] := mem_append_right _ mem_cons_self
  rcases startFound_cases hok with ⟨_, herr, -⟩ | ⟨-, hfinish, hm⟩ |
    ⟨b₂, c, hphony, hstart, hask, hm⟩
  · cases herr
  · -- a phony edge is finished at once
    cases hm
    obtain ⟨w, hdone, rfl⟩ := lift_ok hfinish
    have hfinished := edgeFinished_follows { run with running := run.running ++ [e] } hmem
      (.inl h.finishing) hdone
    have hperm : ((run.running ++ [e]).erase e).Perm run.running := by
      simpa using (perm_append_singleton e run.running).erase e
    have hall := hfound.trans hfinished
    refine ⟨_, hall, h.prepared, rfl, ?_, hperm.length_eq.trans h.pending, fun f hf => ?_⟩
    · rw [hrunner]
      exact hperm.trans h.running
    · exact h.command_of hall.widens (hperm.mem_iff.mp hf)
  · cases hm
    obtain ⟨helse, w, disk, hstarted⟩ := startEdge_ok hphony hstart
    obtain rfl := canRunMore_ok hask
    have hsame : Follows env { run with running := run.running ++ [e] } b₁.world _ b₂.world :=
      .elsewhere helse
    have hall := hfound.trans hsame
    refine ⟨_, hall, h.prepared, h.finishing, ?_, by simp [h.pending], fun f hf => ?_⟩
    · have hperm := hr.startCommand hstarted
      rw [hrunner] at hperm
      rw [hr.canRunMore]
      calc run.running ++ [e]
        _ |>.Perm (e :: run.running) := perm_append_singleton e _
        _ |>.Perm (e :: active b.runner) := h.running.cons e
        _ |>.Perm (active b₂.runner) := hperm.symm
    · rcases mem_append.mp hf with hf | hf
      · exact h.command_of hall.widens hf
      · rw [mem_singleton.mp hf, hsame.widens.phony e, hphony]

lemma Moment.Plans.foundNothing {b₁ : Builder ρ} (env : Env) (h : m.Plans active b run)
    (hb₁ : b₁ = b ∨ lift findWork b = .ok none b₁) :
    Follows env run b.world run b₁.world ∧ m.Plans active b₁ run := by
  rcases hb₁ with rfl | hfind
  · exact ⟨.elsewhere (Std.Refl.refl _), h⟩
  · obtain ⟨hrunner, hfound⟩ := findWork_follows env h hfind
    rw [Option.toList_none, append_nil] at hfound
    exact ⟨hfound, h.prepared, h.finishing, hrunner ▸ h.running, h.pending,
      fun f hf => h.command_of hfound.widens hf⟩

/-- The plan is told of the command that the runner has returned. -/
lemma Moment.Plans.reap (hr : r.Returns active) (h : m.Plans active b run)
    (hok : reap env r fuel m b = .ok (.ok m') b') :
    ∃ run', Follows env run b.world run' b'.world ∧ m'.Plans active b' run' := by
  rcases reap_cases hok with ⟨_, herr, -⟩ |
    ⟨result, disk, s, result', done, b₁, hwait, hfinish, hafter⟩
  · cases herr
  obtain ⟨hedge, depsType, nodes, w, w₁, helse, hrunner, hdone⟩ := finishCommand_cases hfinish
  rcases afterCommand_cases hafter with ⟨_, herr, -⟩ | ⟨hd, ⟨left, hm⟩, hworld, hcancel⟩
  · cases herr
  cases hm
  have hperm : run.running.Perm (result.edge :: active s) :=
    h.running.trans (hr.waitForCommand hwait)
  have hmem : result.edge ∈ run.running := hperm.mem_iff.mpr mem_cons_self
  have hwaited : Follows env run b.world run w₁ :=
    .elsewhere (IsTrans.trans _ _ _ (b.world.elsewhere_disk disk) helse)
  have hphony := h.command_of hwaited.widens hmem
  have hfinished : Follows env run w₁
      { run with running := run.running.erase result.edge, finishing := none } b'.world := by
    have hdone := hdone hd
    rw [hedge] at hdone
    rw [hworld]
    split at hdone
    · exact finishSuccess_follows hmem hphony h.finishing hdone
    · exact edgeFinished_follows run hmem (.inl h.finishing) hdone
  have hactive : active b'.runner = active s := by
    rcases hcancel with hc | hc
    · rw [hc, hrunner, hr.cacheResult]
    · rw [hc, hr.cancel, hrunner, hr.cacheResult]
  have hall := hwaited.trans hfinished
  refine ⟨_, hall, h.prepared, rfl, ?_, ?_, fun f hf => ?_⟩
  · rw [hactive]
    simpa using hperm.erase result.edge
  · simp [length_erase_of_mem hmem, h.pending]
  · exact h.command_of hall.widens (mem_of_mem_erase hf)

lemma Moment.Plans.loopStep (hr : r.Returns active) (h : m.Plans active b run)
    (hok : loopStep env r fuel m b = .ok (.ok m') b') :
    ∃ run', Follows env run b.world run' b'.world ∧ m'.Plans active b' run' := by
  rcases loopStep_cases hok with ⟨_, herr, -⟩ | ⟨c, hask, hm⟩ | ⟨capacity, e, b₁, hfind, hstart⟩ |
    ⟨b₁, hb₁, hreap | ⟨-, -, herr⟩⟩
  · cases herr
  · cases hm
    obtain rfl := canRunMore_ok hask
    exact ⟨run, .elsewhere (Std.Refl.refl _), h.prepared, h.finishing,
      (hr.canRunMore _ _).symm ▸ h.running, h.pending, h.command⟩
  · exact h.startFound hr hfind hstart
  · obtain ⟨hfound, h₁⟩ := h.foundNothing env hb₁
    obtain ⟨run', hfollows, h'⟩ := h₁.reap hr hreap
    exact ⟨run', hfound.trans hfollows, h'⟩
  · cases herr

variable {b₁ : Builder ρ}

/-- All moments of a build are states between calls to the plan. -/
lemma LoopReached.follows (hr : r.Returns active) (hactive : active b.runner = [])
    (h : LoopReached env r b m b₁) :
    ∃ run, Follows env {} b.world run b₁.world ∧ m.Plans active b₁ run := by
  obtain ⟨fuel, b₀, hprepare, hsteps⟩ := h
  obtain ⟨w, hw, rfl⟩ := lift_ok hprepare
  have hstart : Follows env {} b.world { prepared := true } w :=
    .call (c := .prepareQueue) rfl (bind_ok.mpr ⟨_, w, hw, pure_ok.mpr ⟨rfl, rfl⟩⟩)
  generalize hx : ((m, b₁) : Moment × Builder ρ) = x at hsteps
  have hkeep : ∃ run, Follows env {} b.world run x.2.world ∧ x.1.Plans active x.2 run := by
    clear hx
    induction hsteps with
    | refl =>
      exact ⟨_, hstart, rfl, rfl, by simp [hactive], rfl, by simp⟩
    | tail _ hstep ih =>
      obtain ⟨fuel, hok⟩ := hstep
      obtain ⟨run, hfollows, hplans⟩ := ih
      obtain ⟨run', hstep, hplans'⟩ := hplans.loopStep hr hok
      exact ⟨run', hfollows.trans hstep, hplans'⟩
  subst hx
  exact hkeep

/-- The last step of a successful build has found nothing more to do. -/
lemma loopStep_success
    (hok : loopStep env r fuel m b = .ok (.error ⟨ExitStatus.success, none⟩) b') :
    b'.world.moreToDo = false ∧ (b' = b ∨ lift findWork b = .ok none b') := by
  rcases loopStep_cases hok with h | ⟨_, -, h⟩ | ⟨_, _, _, -, hstart⟩ |
    ⟨b₁, hb₁, hreap | ⟨hdone, rfl, -⟩⟩
  · simp [Fails] at h
  · simp at h
  · rcases startFound_cases hstart with h | ⟨-, -, h⟩ | ⟨_, _, -, -, -, h⟩ <;> simp [Fails] at h
  · rcases reap_cases hreap with h | ⟨_, _, _, _, _, _, -, -, hafter⟩
    · simp [Fails] at h
    · rcases afterCommand_cases hafter with h | ⟨-, ⟨_, h⟩, -⟩ <;> simp [Fails] at h
  · exact ⟨hdone, hb₁⟩

lemma build_success_follows (hr : r.Returns active) (hactive : active b.runner = [])
    (hok : build env r fuel b = .ok ⟨ExitStatus.success, none⟩ b') :
    ∃ run, Follows env {} b.world run b'.world ∧ run.running.Perm (active b'.runner) ∧
      b.world.moreToDo = true ∧ b'.world.moreToDo = false := by
  obtain ⟨hmore, m, b₁, fuel₁, hreached, hlast⟩ := build_ok hok
  obtain ⟨run, hfollows, hplans⟩ := hreached.follows hr hactive
  obtain ⟨hdone, hend⟩ := loopStep_success hlast
  obtain ⟨hfound, hplans'⟩ := hplans.foundNothing env hend
  exact ⟨run, hfollows.trans hfound, hplans'.running, hmore, hdone⟩

/-! ### A dry run -/

lemma dryCommandRunner_returns : dryCommandRunner.Returns id where
  canRunMore _ _ := rfl
  startCommand h := by
    cases h
    exact perm_append_singleton _ _
  waitForCommand {w s result disk s'} h := by
    cases s with
    | nil => cases h
    | cons e s =>
      cases h
      exact .refl _
  cacheResult _ _ _ _ := rfl
  cancel _ := rfl

def dryRun : Env where
  dryRun := true

/-- A dry run that is to make the command in the pool of depth one. -/
def dryBuilder : Builder (List EdgeId) where
  world := finalState ((Call.addTarget [101]).run dryRun 9 dyndepOnPooled)
  runner := []

lemma dryBuilder_reached : Reached dryRun {} dryBuilder.world :=
  .call {} _ _ (.addTarget [101]) 9 none (.start _ dyndepOnPooled_unplanned)
    (dyndepOnPooled_bounded.acyclic (by decide)) rfl rfl

lemma dryBuilder_acyclic {run : Run} (h : Follows dryRun {} dryBuilder.world run w)
    (ho : w.Ordered 3) : w.Acyclic :=
  have hbounded : dryBuilder.world.Bounded 3 :=
    dyndepOnPooled_bounded.frames (Call.run_frames (.addTarget [101]) dryRun 9)
  (hbounded.frames h.widens.toFrames).acyclic ho

/-- The moments of the dry run. -/
def dryMoment : Nat → Moment × Builder (List EdgeId)
  | 0 => ({ failuresAllowed := 1 }, finalState (lift (prepareQueue dryRun 9) dryBuilder))
  | n + 1 =>
    match loopStep dryRun dryCommandRunner 9 (dryMoment n).1 (dryMoment n).2 with
    | .ok (.ok m) b => (m, b)
    | _ => dryMoment n

lemma dryMoment_reached :
    LoopReached dryRun dryCommandRunner dryBuilder (dryMoment 2).1 (dryMoment 2).2 :=
  ⟨9, _, rfl, .tail (b := dryMoment 1) (.single ⟨9, rfl⟩) ⟨9, rfl⟩⟩

lemma dryMoment_acyclic : (dryMoment 2).2.world.Acyclic := by
  obtain ⟨run, hfollows, -⟩ := dryMoment_reached.follows dryCommandRunner_returns rfl
  exact dryBuilder_acyclic hfollows (by decide)

/-! ### What a build keeps -/

lemma Settled.commandsWanted_ne_nil (h : Settled w) (hmore : w.moreToDo = true) :
    w.commandsWanted ≠ [] := by
  intro hnil
  have hcommand := h.counted.commandEdges
  rw [hnil] at hcommand
  simp only [World.moreToDo, Bool.and_eq_true, decide_eq_true_eq] at hmore
  simp only [length_nil] at hcommand
  omega

lemma Settled.wantedSet_eq_empty (h : Settled w) (hdone : w.moreToDo = false)
    (hwanted : w.commandsWanted ≠ []) : w.wantedSet = ∅ := by
  have hedges := h.counted.wantedEdges
  have hcommand := h.counted.commandEdges
  simp only [World.moreToDo, Bool.and_eq_false_iff, decide_eq_false_iff_not, not_lt] at hdone
  rcases hdone with hdone | hdone
  · rw [← Set.ncard_eq_zero h.counted.finite]
    omega
  · rcases h.anchored with hnone | ⟨e, -, he⟩
    · rw [hnone, length_nil] at hcommand
      exact absurd (length_eq_zero_iff.mp (by omega)) hwanted
    · exact absurd (h.commandEdges_pos he) (by omega)

lemma World.Widens.commandsWanted_ne_nil {w w' : World} (h : w.Widens w')
    (hwanted : w.commandsWanted ≠ []) : w'.commandsWanted ≠ [] := by
  obtain ⟨l, hl⟩ := h.trace
  rw [World.commandsWanted_append (funext h.phony) hl]
  simp [hwanted]

/-- A command that runs is wanted. -/
lemma Pooled.wants {l : List EdgeId} (h : Pooled l w) (he : e ∈ l) : e ∈ w.wantedSet := by
  rcases h.placed e (h.mem_puts_of_found (h.running.subset he)) with hw | ⟨hw, -⟩ | ⟨-, -, -, hl⟩
  · simp [World.wantedSet, World.Wants, hw]
  · simp [World.wantedSet, World.Wants, hw]
  · exact absurd he hl

/-- **A build makes only the calls that a builder may make.** With a runner that returns each
command it was given once, every moment of a build of an acyclic graph is a state between two calls
to the plan. The edges that the plan has handed out and was not told of are the commands that the
runner has, and they are as many as the loop waits for. -/
theorem build_follows_plan (hr : r.Returns active) (hb : Reached env {} b.world)
    (hactive : active b.runner = []) (hreached : LoopReached env r b m b₁)
    (hacyclic : b₁.world.Acyclic) : ∃ run, Reached env run b₁.world ∧ m.Plans active b₁ run := by
  obtain ⟨run, hfollows, hplans⟩ := hreached.follows hr hactive
  exact ⟨run, hfollows.reached hacyclic hb, hplans⟩

/-- While the command runs, the plan was not told of it. -/
theorem build_follows_plan_dryMoment : (dryMoment 2).2.runner = [0] ∧
    ∃ run, Reached dryRun run (dryMoment 2).2.world ∧
      (dryMoment 2).1.Plans id (dryMoment 2).2 run :=
  ⟨rfl, build_follows_plan dryCommandRunner_returns dryBuilder_reached rfl dryMoment_reached
    dryMoment_acyclic⟩

/-- **A build that succeeds is complete.** When `Build` returns success without an error, no edge
is wanted any more; after a calm run the runner has no command left either. -/
theorem build_success_complete (hr : r.Returns active) (hb : Reached env {} b.world)
    (hactive : active b.runner = [])
    (hok : build env r fuel b = .ok ⟨ExitStatus.success, none⟩ b') (hacyclic : b'.world.Acyclic) :
    b'.world.wantedSet = ∅ ∧ (Calm b'.world.trace → active b'.runner = []) := by
  obtain ⟨run, hfollows, hperm, hmore, hdone⟩ := build_success_follows hr hactive hok
  have hreach := hfollows.reached hacyclic hb
  have hwanted := hfollows.widens.commandsWanted_ne_nil
    (hb.counts.settled.commandsWanted_ne_nil hmore)
  have hempty := hreach.counts.settled.wantedSet_eq_empty hdone hwanted
  refine ⟨hempty, fun hcalm => ?_⟩
  have hrunning : run.running = [] := eq_nil_iff_forall_not_mem.mpr fun e he => by
    have hwants := (hreach.pools hcalm).1.wants he
    rw [hempty] at hwants
    exact hwants
  rwa [hrunning, nil_perm] at hperm

/-- What `Build` returns can be computed. -/
lemma build_eq_of_exit {exit : Exit} (h : (match build env r fuel b with
      | .ok exit' _ => decide (exit' = exit)
      | .error _ _ => false) = true) :
    build env r fuel b = .ok exit (finalState (build env r fuel b)) := by
  split at h
  · rename_i exit' b' hok
    rw [hok, of_decide_eq_true h]
    rfl
  · cases h

theorem build_success_complete_dryBuilder : ∃ b', build dryRun dryCommandRunner 9 dryBuilder =
    .ok ⟨ExitStatus.success, none⟩ b' ∧ b'.world.wantedSet = ∅ ∧ b'.runner = [] := by
  have hok : build dryRun dryCommandRunner 9 dryBuilder = .ok ⟨ExitStatus.success, none⟩
      (finalState (build dryRun dryCommandRunner 9 dryBuilder)) :=
        build_eq_of_exit (by decide +kernel)
  obtain ⟨run, hfollows, -⟩ := build_success_follows dryCommandRunner_returns rfl hok
  obtain ⟨hempty, hleft⟩ := build_success_complete dryCommandRunner_returns dryBuilder_reached rfl
    hok (dryBuilder_acyclic hfollows (by decide +kernel))
  exact ⟨_, hok, hempty, hleft (by decide +kernel)⟩

/-- **The runner keeps to the pools.** Throughout a calm build of an acyclic graph, the runner has
each of its commands once, and of a pool with a limit no more than that many. -/
theorem build_pool_depth (hr : r.Returns active) (hb : Reached env {} b.world)
    (hactive : active b.runner = []) (hreached : LoopReached env r b m b₁)
    (hacyclic : b₁.world.Acyclic) (hcalm : Calm b₁.world.trace) :
    (active b₁.runner).Nodup ∧ ∀ p, (b₁.world.pools p).depth ≠ 0 →
      ((active b₁.runner).countP fun e => (b₁.world.edges e).pool = p) ≤
        (b₁.world.pools p).depth := by
  obtain ⟨run, hfollows, hplans⟩ := hreached.follows hr hactive
  have hpooled := ((hfollows.reached hacyclic hb).pools hcalm).1
  have hperm := hplans.running
  refine ⟨hperm.nodup_iff.mp (nodup_iff_count_le_one.mpr fun e => ?_), fun p hp => ?_⟩
  · have hone := nodup_iff_count_le_one.mp hpooled.once e
    have hsum := hpooled.conserved e
    have hrun := hpooled.running.count_le e
    omega
  · have huse := hpooled.use p hp
    have hbound := hpooled.bound p hp
    rw [countP_append] at huse
    rw [← hperm.countP_eq]
    omega

theorem build_pool_depth_dryMoment : ((dryMoment 2).2.world.pools 1).depth = 1 ∧
    ((dryMoment 2).2.runner.countP fun e => ((dryMoment 2).2.world.edges e).pool = 1) ≤
      ((dryMoment 2).2.world.pools 1).depth :=
  ⟨rfl, (build_pool_depth dryCommandRunner_returns dryBuilder_reached rfl dryMoment_reached
    dryMoment_acyclic (by decide)).2 1 (by decide)⟩

end Loop

end Reninja
