import Reninja.Build.Finish
import Reninja.Build.Loop
import Reninja.Plan.Calls

/-!
# Runs of the main loop

The moments that `Build` comes to, and what each step from one to the next does: one inversion
lemma for each function of the loop. The results about builds are proved from these.
-/

namespace Reninja

open Program Relation

variable {ρ : Type}
variable {status : ExitStatus} {e : EdgeId}
variable {done : Except GoString Bool} {result result' : Result}

section Runs

variable (env : Env) (r : CommandRunner ρ)

def LoopStep (x y : Moment × Builder ρ) : Prop :=
  ∃ fuel, loopStep env r fuel x.1 x.2 = .ok (.ok y.1) y.2

/-- The moments that a call of `Build` comes to. -/
def LoopReached (b : Builder ρ) (m : Moment) (b₁ : Builder ρ) : Prop :=
  ∃ fuel b₀, lift (prepareQueue env fuel) b = .ok () b₀ ∧
    ReflTransGen (LoopStep env r) ({ failuresAllowed := env.failuresAllowed }, b₀) (m, b₁)

end Runs

variable {env : Env} {r : CommandRunner ρ} {b b' : Builder ρ} {m : Moment} {fuel : Nat}
  {exit : Exit}

lemma buildLoop_ok (hok : buildLoop env r fuel m b = .ok exit b') :
    ∃ m₁ b₁ fuel₁, ReflTransGen (LoopStep env r) (m, b) (m₁, b₁) ∧
      loopStep env r fuel₁ m₁ b₁ = .ok (.error exit) b' := by
  induction fuel generalizing m b with
  | zero => exact absurd hok throw_ok
  | succ fuel ih =>
    obtain ⟨out, b₁, hstep, hrest⟩ := bind_ok.mp hok
    cases out with
    | error exit' =>
      obtain ⟨rfl, rfl⟩ := pure_ok.mp hrest
      exact ⟨m, b, fuel, .refl, hstep⟩
    | ok m₁ =>
      obtain ⟨m₂, b₂, fuel₂, hsteps, hlast⟩ := ih hrest
      exact ⟨m₂, b₂, fuel₂, .head ⟨fuel, hstep⟩ hsteps, hlast⟩

/-- Every return of `Build` is the last step of a run of its loop. -/
lemma build_ok (hok : build env r fuel b = .ok exit b') : b.world.moreToDo = true ∧
    ∃ m b₁ fuel₁, LoopReached env r b m b₁ ∧ loopStep env r fuel₁ m b₁ = .ok (.error exit) b' := by
  rw [build, get_bind_ok] at hok
  split at hok
  · exact absurd hok throw_ok
  · rename_i hmore
    obtain ⟨_, b₀, hprepare, hloop⟩ := bind_ok.mp hok
    obtain ⟨m, b₁, fuel₁, hsteps, hlast⟩ := buildLoop_ok hloop
    exact ⟨by simpa using hmore, m, b₁, fuel₁, ⟨fuel, b₀, hprepare, hsteps⟩, hlast⟩

/-! ### Starting an edge -/

instance : Std.Refl World.Elsewhere :=
  ⟨fun w => ⟨fun e => (w.edges e).commandStartTime, [], by simp⟩⟩

instance : IsTrans World World.Elsewhere where
  trans w₁ w₂ w₃ h₁ h₂ := by
    obtain ⟨start₁, reaped₁, h₁⟩ := h₁
    obtain ⟨start₂, reaped₂, h₂⟩ := h₂
    refine ⟨start₂, reaped₁ ++ reaped₂, ?_⟩
    rw [h₂, h₁]
    simp

section Start

variable {w : World}

lemma World.elsewhere_disk (w : World) (disk : Disk) : w.Elsewhere { w with disk := disk } :=
  ⟨fun e => (w.edges e).commandStartTime, [], by simp⟩

lemma touchLockFile_elsewhere : Moves World.Elsewhere w (touchLockFile env) := by
  refine .get_bind ?_
  cases w.disk.writeFile env.lockFilePath [] with
  | error err => exact .get_bind (.pure _)
  | ok disk =>
    exact .bind (.modify (w.elsewhere_disk disk)) fun _ _ _ => .get_bind (.pure _)

lemma makeOutputDirs_elsewhere (buildStart : TimeStamp) (os : List Path) :
    Moves World.Elsewhere w (makeOutputDirs env buildStart os) := by
  induction os generalizing buildStart w with
  | nil => exact .pure _
  | cons o os ih =>
    refine .get_bind (.bind (orError_moves _) fun _ _ _ => ?_)
    refine .ite (fun _ => ?_) fun _ => ih _
    exact .bind touchLockFile_elsewhere fun _ _ _ => ih _

lemma setStart_elsewhere (e : EdgeId) (buildStart : TimeStamp) :
    Moves World.Elsewhere w (updEdge e fun x => { x with commandStartTime := buildStart }) := by
  refine .modify ⟨fun f => if f = e then buildStart else (w.edges f).commandStartTime, [], ?_⟩
  rw [List.map_nil, List.append_nil, World.setEdge]
  congr 1
  funext f
  by_cases hf : f = e
  · subst hf
    simp
  · simp [hf]

lemma prepareEdge_elsewhere (e : EdgeId) : Moves World.Elsewhere w (prepareEdge env e) := by
  refine .bind (getEdge_moves e) fun _ _ _ => ?_
  refine .bind (makeOutputDirs_elsewhere _ _) fun _ _ _ => ?_
  refine .bind (setStart_elsewhere e _) fun _ t _ => .get_bind ?_
  have hrsp : ∀ u, Moves World.Elsewhere u (if t.getBinding e .rspfile ≠ [] then do
      let disk ← orError (t.disk.writeFile (t.getBinding e .rspfile)
        (t.getBinding e .rspfileContent))
      modify fun w => { w with disk := disk }
    else pure () : M Unit) := fun u =>
    Moves.ite (fun _ => .bind (orError_moves _) fun _ v _ =>
      Moves.modify (v.elsewhere_disk _)) fun _ => .pure _
  refine .ite (fun _ => ?_) fun _ => hrsp t
  exact .bind (orError_moves _) fun _ _ _ => hrsp _

end Start

/-- What starting a command changes: the runner has started it. -/
lemma startEdge_ok (hphony : (b.world.edges e).phony = false)
    (hok : startEdge env r e b = .ok () b') : b.world.Elsewhere b'.world ∧
      ∃ w disk, r.startCommand e w b.runner = (.ok (), disk, b'.runner) := by
  rw [startEdge, get_bind_ok] at hok
  simp only [hphony, Bool.false_eq_true, if_false] at hok
  obtain ⟨_, _, hprepare, hok⟩ := bind_ok.mp hok
  obtain ⟨w, hw, rfl⟩ := lift_ok hprepare
  have helse : b.world.Elsewhere w := (prepareEdge_elsewhere e).of_ok hw
  rw [startCommand, get_bind_ok] at hok
  rcases hstart : r.startCommand e w b.runner with ⟨started, disk, s⟩
  simp only [hstart] at hok
  obtain ⟨_, _, hset, hok⟩ := bind_ok.mp hok
  cases hset
  cases started with
  | error err => exact absurd hok throw_ok
  | ok _ =>
    obtain ⟨-, rfl⟩ := pure_ok.mp hok
    exact ⟨IsTrans.trans _ _ _ helse (w.elsewhere_disk disk), w, disk, hstart⟩

/-! ### The steps -/

variable {out : Except Exit Moment}

/-- `Build` returns an error, or a status other than success. -/
def Fails (out : Except Exit Moment) : Prop :=
  ∃ exit : Exit, out = .error exit ∧ exit ≠ ⟨ExitStatus.success, none⟩

lemma fails_of_status {exit : Exit} (h : exit.status ≠ ExitStatus.success) : Fails (.error exit) :=
  ⟨exit, rfl, fun heq => h (congrArg Exit.status heq)⟩

lemma fails_of_err {err : GoString} : Fails (.error ⟨status, some err⟩) :=
  ⟨_, rfl, fun heq => by cases congrArg Exit.err heq⟩

lemma fails_of_stop {err : Option GoString} (hstatus : status ≠ ExitStatus.success)
    (hok : (do return .error (← stop env r status err) : B ρ (Except Exit Moment)) b = .ok out b') :
    Fails out := by
  obtain ⟨exit, _, hstop, hok⟩ := bind_ok.mp hok
  obtain ⟨rfl, -⟩ := pure_ok.mp hok
  obtain ⟨_, _, -, hstop⟩ := bind_ok.mp hstop
  rw [← (pure_ok.mp hstop).1]
  exact fails_of_status hstatus

lemma closeBuildLog_ok {u : Unit} (hok : lift (closeBuildLog e) b = .ok u b') : b' = b := by
  obtain ⟨w, hclose, rfl⟩ := lift_ok hok
  rw [closeBuildLog, get_bind_ok] at hclose
  split at hclose
  · exact absurd hclose throw_ok
  · obtain ⟨-, rfl⟩ := pure_ok.mp hclose
    rfl

/-- An edge that was found cannot be started, is finished at once, or is a command that runs. -/
lemma startFound_cases {capacity : Int} (hok : startFound env r fuel m capacity e b = .ok out b') :
    Fails out ∨
    (b.world.edges e).phony = true ∧ lift (edgeFinished env fuel e .succeeded) b = .ok true b' ∧
      out = .ok m ∨
    ∃ b₁ c, (b.world.edges e).phony = false ∧ startEdge env r e b = .ok () b₁ ∧
      canRunMore r b₁ = .ok c b' ∧
      out = .ok { m with pending := m.pending + 1, capacity := some (min (capacity - 1) c) } := by
  obtain ⟨_, b₁, hclose, hrest⟩ := bind_ok.mp hok
  rw [closeBuildLog_ok hclose] at hrest
  obtain ⟨started, b₁, hstart, hrest⟩ := bind_ok.mp hrest
  cases started with
  | error err => exact .inl (fails_of_stop (by decide) hrest)
  | ok u =>
    have hstart := attempt_ok hstart
    rw [get_bind_ok] at hrest
    cases hphony : (b.world.edges e).phony with
    | true =>
      have hb : b₁ = b := by
        rw [startEdge, bind_apply, get_apply] at hstart
        simp only [hphony, if_true] at hstart
        exact (pure_ok.mp hstart).2.symm
      rw [hb, if_pos hphony] at hrest
      obtain ⟨finished, b₂, hfinish, hrest⟩ := bind_ok.mp hrest
      rcases finished with err | (_ | _)
      · exact .inl (fails_of_stop (by decide) hrest)
      · exact .inl (fails_of_stop (by decide) hrest)
      · obtain ⟨rfl, rfl⟩ := pure_ok.mp hrest
        exact .inr (.inl ⟨rfl, attempt_ok hfinish, rfl⟩)
    | false =>
      have hphony₁ : (b₁.world.edges e).phony = false := by
        obtain ⟨⟨start, reaped, hw⟩, -⟩ := startEdge_ok hphony hstart
        rw [hw]
        exact hphony
      rw [hphony₁, if_neg Bool.false_ne_true] at hrest
      obtain ⟨c, b₂, hask, hrest⟩ := bind_ok.mp hrest
      obtain ⟨rfl, rfl⟩ := pure_ok.mp hrest
      exact .inr (.inr ⟨b₁, c, rfl, hstart, hask, rfl⟩)

lemma canRunMore_ok {c : Int} (hok : canRunMore r b = .ok c b') :
    b' = { b with runner := (r.canRunMore b.world b.runner).2 } := by
  rw [canRunMore, get_bind_ok] at hok
  obtain ⟨_, _, hset, hok⟩ := bind_ok.mp hok
  cases hset
  exact (pure_ok.mp hok).2.symm

lemma extractDeps_elsewhere (env : Env) (w : World) (e : EdgeId) (depsType : GoString) :
    Moves World.Elsewhere w (extractDeps env e depsType) := by
  refine .get_bind (.ite (fun _ => .throw _) fun _ => ?_)
  refine .ite (fun _ => .ite (fun _ => .throw _) fun _ => ?_) fun _ => .throw _
  refine .bind (orError_moves _) fun content _ _ => ?_
  split
  · exact .pure _
  · refine .bind (orError_moves _) fun _ _ _ => .bind ?_ fun _ _ _ => .pure _
    refine .ite (fun _ => .pure _) fun _ => .get_bind ?_
    exact .ite (fun _ => .throw _) fun _ => .modify (World.elsewhere_disk _ _)

lemma attempt_lift_ok {α : Type} {p : M α} {done : Except GoString α}
    (hok : attempt (lift p) b = .ok done b') :
    b' = { b with world := finalState (p b.world) } ∧
      ∀ a, done = .ok a → p b.world = .ok a b'.world := by
  rw [attempt, lift] at hok
  cases hp : p b.world with
  | ok a w =>
    rw [hp] at hok
    cases hok
    exact ⟨rfl, fun _ h => by cases h; rfl⟩
  | error f w =>
    rw [hp] at hok
    cases f <;> cases hok
    exact ⟨rfl, fun _ h => by cases h⟩

lemma extractFrom_cases {depsType : GoString} {nodes : List Path}
    (hok : extractFrom env result depsType b = .ok (result', nodes) b') :
    result'.edge = result.edge ∧ ∃ w, b.world.Elsewhere w ∧ b' = { b with world := w } := by
  rw [extractFrom] at hok
  split at hok
  · obtain ⟨h, rfl⟩ := pure_ok.mp hok
    cases h
    exact ⟨rfl, _, Std.Refl.refl _, rfl⟩
  · obtain ⟨extracted, b₁, hextract, hok⟩ := bind_ok.mp hok
    obtain ⟨rfl, -⟩ := attempt_lift_ok hextract
    have hw := extractDeps_elsewhere env b.world result.edge depsType
    cases extracted with
    | ok deps =>
      obtain ⟨h, rfl⟩ := pure_ok.mp hok
      cases h
      exact ⟨rfl, _, hw, rfl⟩
    | error err =>
      simp only at hok
      split at hok <;>
      · obtain ⟨h, rfl⟩ := pure_ok.mp hok
        cases h
        exact ⟨rfl, _, hw, rfl⟩

/-- `FinishCommand` looks at the depfile, gives the result to the cache and tells the plan. -/
lemma finishCommand_cases (hok : finishCommand env r fuel result b = .ok (result', done) b') :
    result'.edge = result.edge ∧ ∃ depsType nodes w w₁, b.world.Elsewhere w₁ ∧
      b'.runner = r.cacheResult w result' nodes b.runner ∧
      (done = .ok true → (if result'.success then
        finishSuccess env fuel result'.edge depsType nodes
      else edgeFinished env fuel result'.edge .failed) w₁ = .ok true b'.world) := by
  simp only [finishCommand, bind_ok, get_ok, modify_ok] at hok
  obtain ⟨_, _, ⟨rfl, rfl⟩, ⟨result₁, nodes⟩, b₁, hextract, _, _, rfl, _, b₂, hrecord, done, b₃,
    hdone, hok⟩ := hok
  obtain ⟨h, rfl⟩ := pure_ok.mp hok
  cases h
  obtain ⟨hedge, w, hw, rfl⟩ := extractFrom_cases hextract
  obtain ⟨w₁, hlog, rfl⟩ := lift_ok hrecord
  obtain rfl := record_ok.mp hlog
  obtain ⟨rfl, hfinish⟩ := attempt_lift_ok hdone
  have hlogged : w.Elsewhere (w.log (.reaped result₁.edge result₁.success)) :=
    ⟨fun e => (w.edges e).commandStartTime, [(result₁.edge, result₁.success)], rfl⟩
  exact ⟨hedge, _, nodes, w, _, IsTrans.trans _ _ _ hw hlogged, rfl, hfinish true⟩

lemma setFailureCode_ok {u : Unit} (hok : setFailureCode status b = .ok u b') :
    b'.world = b.world ∧ b'.runner = b.runner := by
  rw [setFailureCode, modify_ok] at hok
  subst hok
  split <;> exact ⟨rfl, rfl⟩

lemma afterCommand_cases {result : Result} (hok : afterCommand env r m result done b = .ok out b') :
    Fails out ∨
    done = .ok true ∧ (∃ left, out = .ok { pending := m.pending - 1, failuresAllowed := left }) ∧
      b'.world = b.world ∧ (b'.runner = b.runner ∨ b'.runner = r.cancel b.runner) := by
  have hfails : ∀ err, Fails (.error
      ⟨if result.success then ExitStatus.failure else result.status, err⟩) := fun err => by
    refine fails_of_status ?_
    cases hsuccess : result.success with
    | true => simp [ExitStatus.success, ExitStatus.failure]
    | false => simpa [Result.success] using hsuccess
  obtain ⟨_, b₁, hset, hok⟩ := bind_ok.mp hok
  obtain ⟨hworld, hrunner⟩ := setFailureCode_ok hset
  rcases done with err | (_ | _)
  · obtain ⟨_, _, -, hok⟩ := bind_ok.mp hok
    obtain ⟨_, _, -, hok⟩ := bind_ok.mp hok
    obtain ⟨rfl, -⟩ := pure_ok.mp hok
    exact .inl (hfails _)
  · obtain ⟨_, _, -, hok⟩ := bind_ok.mp hok
    obtain ⟨_, _, -, hok⟩ := bind_ok.mp hok
    obtain ⟨rfl, -⟩ := pure_ok.mp hok
    exact .inl (hfails _)
  · refine .inr ⟨rfl, ?_⟩
    generalize (if result.success then m.failuresAllowed else m.failuresAllowed - 1) = left at hok
    rw [← hworld, ← hrunner]
    by_cases hcancel : result.success = false ∧ left = 0
    · rw [if_pos hcancel] at hok
      obtain ⟨_, _, hmodify, hok⟩ := bind_ok.mp hok
      obtain rfl := modify_ok.mp hmodify
      obtain ⟨rfl, rfl⟩ := pure_ok.mp hok
      exact ⟨⟨left, rfl⟩, rfl, .inr rfl⟩
    · rw [if_neg hcancel] at hok
      obtain ⟨rfl, rfl⟩ := pure_ok.mp hok
      exact ⟨⟨left, rfl⟩, rfl, .inl rfl⟩

lemma reap_cases (hok : reap env r fuel m b = .ok out b') :
    Fails out ∨
    ∃ result disk s result' done b₁, r.waitForCommand b.world b.runner = (some result, disk, s) ∧
      finishCommand env r fuel result
        { b with world := { b.world with disk := disk }, runner := s } = .ok (result', done) b₁ ∧
      afterCommand env r m result' done b₁ = .ok out b' := by
  rw [reap, get_bind_ok] at hok
  rcases hwait : r.waitForCommand b.world b.runner with ⟨result, disk, s⟩
  simp only [hwait] at hok
  obtain ⟨_, _, hset, hok⟩ := bind_ok.mp hok
  cases hset
  cases hfilter : result.filter fun x => x.status ≠ ExitStatus.interrupted with
  | none =>
    rw [hfilter] at hok
    exact .inl (fails_of_stop (by decide) hok)
  | some result =>
    obtain ⟨rfl, -⟩ := Option.filter_eq_some_iff.mp hfilter
    rw [hfilter] at hok
    obtain ⟨⟨result', done⟩, b₁, hfinish, hok⟩ := bind_ok.mp hok
    exact .inr ⟨result, disk, s, result', done, b₁, rfl, hfinish, hok⟩

lemma finishBuild_cases (hok : finishBuild r b = .ok out b') :
    Fails out ∨ b' = b ∧ out = .error ⟨ExitStatus.success, none⟩ := by
  rw [finishBuild, get_bind_ok] at hok
  cases huploads : r.waitForUploads b.runner with
  | error err =>
    simp only [huploads] at hok
    obtain ⟨rfl, -⟩ := pure_ok.mp hok
    exact .inl fails_of_err
  | ok u =>
    simp only [huploads] at hok
    obtain ⟨rfl, rfl⟩ := pure_ok.mp hok
    exact .inr ⟨rfl, rfl⟩

lemma waitOrStop_cases (hok : waitOrStop env r fuel m b = .ok out b') :
    Fails out ∨ reap env r fuel m b = .ok out b' := by
  rw [waitOrStop] at hok
  split at hok
  · exact .inr hok
  · obtain ⟨_, _, -, hok⟩ := bind_ok.mp hok
    obtain ⟨rfl, -⟩ := pure_ok.mp hok
    exact .inl fails_of_err

/-- A round that finds nothing more to start. -/
lemma endRound_cases (hend : b.world.moreToDo = false ∧ finishBuild r b = .ok out b' ∨
      waitOrStop env r fuel m b = .ok out b') :
    Fails out ∨ reap env r fuel m b = .ok out b' ∨
      b.world.moreToDo = false ∧ b' = b ∧ out = .error ⟨ExitStatus.success, none⟩ := by
  rcases hend with ⟨hdone, hfinish⟩ | hwait
  · exact (finishBuild_cases hfinish).imp_right fun h => .inr ⟨hdone, h⟩
  · exact (waitOrStop_cases hwait).imp_right .inl

/-- A step asks the runner, starts an edge that was found, waits for a command, or is the last. -/
lemma loopStep_cases (hok : loopStep env r fuel m b = .ok out b') :
    Fails out ∨
    (∃ c, canRunMore r b = .ok c b' ∧ out = .ok { m with capacity := some c }) ∨
    (∃ capacity e b₁, lift findWork b = .ok (some e) b₁ ∧
      startFound env r fuel m capacity e b₁ = .ok out b') ∨
    ∃ b₁, (b₁ = b ∨ lift findWork b = .ok none b₁) ∧ (reap env r fuel m b₁ = .ok out b' ∨
      b₁.world.moreToDo = false ∧ b' = b₁ ∧ out = .error ⟨ExitStatus.success, none⟩) := by
  rw [loopStep] at hok
  cases hcapacity : m.capacity with
  | none =>
    rw [hcapacity] at hok
    rw [get_bind_ok] at hok
    split at hok
    · rename_i hdone
      exact (endRound_cases (.inl ⟨by simpa using hdone, hok⟩)).imp_right fun h =>
        .inr (.inr ⟨b, .inl rfl, h⟩)
    · split at hok
      · obtain ⟨c, b₁, hask, hok⟩ := bind_ok.mp hok
        obtain ⟨rfl, rfl⟩ := pure_ok.mp hok
        exact .inr (.inl ⟨c, hask, rfl⟩)
      · exact (endRound_cases (.inr hok)).imp_right fun h => .inr (.inr ⟨b, .inl rfl, h⟩)
  | some capacity =>
    rw [hcapacity] at hok
    obtain ⟨found, b₁, hfind, hok⟩ := bind_ok.mp hok
    have hfound : (b₁ = b ∧ found = none) ∨ lift findWork b = .ok found b₁ := by
      rw [takeWork] at hfind
      split at hfind
      · exact .inr hfind
      · obtain ⟨rfl, rfl⟩ := pure_ok.mp hfind
        exact .inl ⟨rfl, rfl⟩
    cases found with
    | some e =>
      exact .inr (.inr (.inl ⟨capacity, e, b₁, hfound.resolve_left (by simp), hok⟩))
    | none =>
      rw [get_bind_ok] at hok
      have hend : b₁.world.moreToDo = false ∧ finishBuild r b₁ = .ok out b' ∨
          waitOrStop env r fuel m b₁ = .ok out b' := by
        split at hok
        · rename_i hdone
          exact .inl ⟨by simpa using hdone.2, hok⟩
        · exact .inr hok
      exact (endRound_cases hend).imp_right fun h =>
        .inr (.inr ⟨b₁, hfound.imp_left And.left, h⟩)

end Reninja
