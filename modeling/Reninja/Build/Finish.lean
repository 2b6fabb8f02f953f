import Reninja.Build.Basic
import Reninja.Plan.Steps

/-!
# What a finished command leaves in the deps log

When `FinishCommand` returns true for a successful command with a `deps` binding, the deps log
has, for each output of the edge, the list that `ExtractDeps` read from the depfile.
-/

namespace Reninja

open Program

def World.loggedDeps (w : World) (o : Path) : Option (List Path) :=
  (w.depsLog.bind fun l => l.deps o).map Deps.nodes

/-- The dependencies that a depfile on disk lists; none when it is missing or empty. -/
def Disk.listedDeps (env : Env) (d : Disk) (depfile : Path) : List Path :=
  match d.readFile depfile with
  | .ok (some (c :: cs)) =>
    match env.parseDepfile (c :: cs) with
    | .ok (_, ins) => ins.map env.canonicalizePath
    | .error _ => []
  | _ => []

section Record

variable {env : Env} {e : EdgeId} {w w' : World} {o : Path} {nodes : List Path}
variable {depsType : GoString} {mtime : TimeStamp}

/-- Giving ids to nodes changes no record. -/
structure SameRecords (w w' : World) : Prop where
  edges : w'.edges = w.edges
  log : w'.depsLog.isSome = w.depsLog.isSome
  deps : ∀ o, w'.loggedDeps o = w.loggedDeps o

instance : Std.Refl SameRecords := ⟨fun _ => ⟨rfl, rfl, fun _ => rfl⟩⟩

instance : IsTrans World SameRecords where
  trans _ _ _ h₁ h₂ :=
    ⟨h₂.edges.trans h₁.edges, h₂.log.trans h₁.log, fun o => (h₂.deps o).trans (h₁.deps o)⟩

lemma recordIdIfMissing_sameRecords (n : Path) : Moves SameRecords w (recordIdIfMissing n) := by
  refine .get_bind ?_
  cases hlog : w.depsLog with
  | none => exact .throw _
  | some l =>
    refine .ite (fun _ => .pure _) fun _ => ?_
    refine .ite (fun _ => .throw _) fun _ => .ite (fun _ => .throw _) fun _ => ?_
    exact .modify ⟨rfl, by simp, fun o => by simp [World.loggedDeps, hlog]⟩

lemma recordIdIfMissing_log {n : Path} {u : Unit} (hok : recordIdIfMissing n w = .ok u w') :
    w.depsLog.isSome = true := by
  rw [recordIdIfMissing, get_bind_ok] at hok
  cases hlog : w.depsLog with
  | none =>
    rw [hlog] at hok
    exact absurd hok throw_ok
  | some l => rfl

lemma recordDeps_ok {u : Unit} (hok : recordDeps o mtime nodes w = .ok u w') :
    w'.edges = w.edges ∧ w'.loggedDeps o = some nodes ∧
      ∀ p, p ≠ o → w'.loggedDeps p = w.loggedDeps p := by
  simp only [recordDeps, bind_ok, get_ok] at hok
  obtain ⟨_, _, ⟨rfl, rfl⟩, _, w₁, hids, hok⟩ := hok
  have hsame : SameRecords w w₁ :=
    (Moves.forEach fun n _ _ => recordIdIfMissing_sameRecords n).of_ok hids
  split at hok
  · rename_i hunchanged
    obtain ⟨-, rfl⟩ := pure_ok.mp hok
    refine ⟨hsame.edges, ?_, fun p _ => hsame.deps p⟩
    rw [hsame.deps, World.loggedDeps, hunchanged.2]
    rfl
  · rw [writeDeps] at hok
    split at hok
    · exact absurd hok throw_ok
    · rw [modify_ok] at hok
      subst hok
      obtain ⟨_, _, hfirst, -⟩ := bind_ok.mp hids
      have hlog : w₁.depsLog.isSome = true := by rw [hsame.log, recordIdIfMissing_log hfirst]
      obtain ⟨l, hl⟩ := Option.isSome_iff_exists.mp hlog
      refine ⟨hsame.edges, by simp [World.loggedDeps, hl], fun p hp => ?_⟩
      rw [← hsame.deps]
      simp [World.loggedDeps, hl, hp]

lemma recordOutputDeps_ok {os : List Path} (hok : recordOutputDeps nodes os w = .ok true w') :
    (∀ o ∈ os, w'.loggedDeps o = some nodes) ∧
      ∀ p, w.loggedDeps p = some nodes → w'.loggedDeps p = some nodes := by
  induction os generalizing w with
  | nil =>
    obtain ⟨-, rfl⟩ := pure_ok.mp hok
    exact ⟨by simp, fun p hp => hp⟩
  | cons o os ih =>
    simp only [recordOutputDeps, bind_ok, get_ok, orError_ok] at hok
    obtain ⟨_, _, ⟨rfl, rfl⟩, mtime, _, ⟨-, rfl⟩, hok⟩ := hok
    split at hok
    · obtain ⟨h, -⟩ := pure_ok.mp hok
      cases h
    · obtain ⟨_, w₁, hrec, hok⟩ := bind_ok.mp hok
      obtain ⟨-, hself, hother⟩ := recordDeps_ok hrec
      obtain ⟨hos, hkeep⟩ := ih hok
      refine ⟨fun p hp => ?_, fun p hp => hkeep p ?_⟩
      · rcases List.mem_cons.mp hp with rfl | hp
        · exact hkeep p hself
        · exact hos p hp
      · by_cases hpo : p = o
        · subst hpo
          exact hself
        · rw [hother p hpo, hp]

def SameEdges (w w' : World) : Prop := w'.edges = w.edges

instance : Std.Refl SameEdges := ⟨fun _ => rfl⟩

instance : IsTrans World SameEdges := ⟨fun _ _ _ h₁ h₂ => Eq.trans h₂ h₁⟩

lemma removeRspFile_sameEdges : Moves SameEdges w (removeRspFile env e) := by
  refine .modify ?_
  rw [SameEdges]
  split <;> rfl

lemma recordInBuildLog_sameEdges (mtime : TimeStamp) :
    Moves SameEdges w (recordInBuildLog env e mtime) := by
  refine .get_bind (.ite (fun _ => .get_bind ?_) fun _ => .pure _)
  exact .bind (.get_bind (.pure _)) fun _ _ _ =>
    Moves.forEach fun o _ t => .modify rfl

lemma recordFinished_ok (htype : depsType ≠ []) (hreal : env.dryRun = false)
    (hok : recordFinished env e depsType nodes mtime w = .ok true w') :
    ∀ o ∈ (w.edges e).outputs, w'.loggedDeps o = some nodes := by
  obtain ⟨_, w₁, hrsp, hok⟩ := bind_ok.mp hok
  obtain ⟨_, w₂, hlog, hok⟩ := bind_ok.mp hok
  have hedges : w₂.edges = w.edges :=
    ((recordInBuildLog_sameEdges mtime).of_ok hlog).trans (removeRspFile_sameEdges.of_ok hrsp)
  rw [recordInDepsLog, getEdge_bind_ok] at hok
  rw [if_pos ⟨htype, by simp [hreal]⟩] at hok
  split at hok
  · exact absurd hok throw_ok
  · rw [← hedges]
    exact (recordOutputDeps_ok hok).1

lemma restatOutputs_steps {L : Licence} (hunwant : ∀ t f, L.unwant t f) (fuel : Nat) (restat : Bool)
    (acc : Restat) (os : List Path) :
    Moves (Steps L) w (restatOutputs env fuel restat acc os) := by
  induction os generalizing w acc with
  | nil => exact .pure _
  | cons o os ih =>
    refine .get_bind (.bind (orError_moves _) fun _ _ _ => ?_)
    refine .ite (fun _ => .pure _) fun _ => .ite (fun _ => ?_) fun _ => ih _
    exact .bind (cleanNode_steps hunwant env fuel o) fun _ _ _ => ih _

lemma computeRecordMtime_steps {L : Licence} (hunwant : ∀ t f, L.unwant t f) (fuel : Nat) :
    Moves (Steps L) w (computeRecordMtime env fuel e) := by
  refine .get_bind (.ite (fun _ => .pure _) fun _ => .ite (fun _ => ?_) fun _ =>
    Moves.pure _)
  refine .bind (restatOutputs_steps hunwant fuel _ _ _) fun r _ _ => ?_
  split
  · exact .pure _
  · exact .pure _

/-- A command that has succeeded leaves its dependencies in the log. -/
lemma finishSuccess_ok {fuel : Nat} (htype : depsType ≠ []) (hreal : env.dryRun = false)
    (hok : finishSuccess env fuel e depsType nodes w = .ok true w') :
    ∀ o ∈ (w.edges e).outputs, w'.loggedDeps o = some nodes := by
  obtain ⟨mtime, w₁, hmtime, hok⟩ := bind_ok.mp hok
  have hsteps₁ : Steps .any w w₁ :=
    (computeRecordMtime_steps (fun _ _ => trivial) fuel).of_ok hmtime
  cases mtime with
  | none =>
    obtain ⟨h, -⟩ := pure_ok.mp hok
    cases h
  | some mtime =>
    obtain ⟨done, w₂, hfinish, hok⟩ := bind_ok.mp hok
    have hsteps₂ : Steps .any w₁ w₂ :=
      (edgeFinished_steps env fuel .succeeded (.inr trivial)).of_ok hfinish
    cases done with
    | false =>
      obtain ⟨h, -⟩ := pure_ok.mp hok
      cases h
    | true =>
      intro o ho
      exact recordFinished_ok htype hreal hok o
        (hsteps₂.grows.outputs e (hsteps₁.grows.outputs e ho))

lemma gcc_ne : ("gcc" : GoString) ≠ "msvc" ∧ ("gcc" : GoString) ≠ [] := by decide +kernel

lemma removeDepfile_sameEdges (depfile : Path) : Moves SameEdges w (removeDepfile env depfile) :=
  Moves.ite (fun _ => .pure _) fun _ => .get_bind (.ite (fun _ => .throw _)
    fun _ => .modify rfl)

lemma extractDeps_ok (hok : extractDeps env e "gcc" w = .ok nodes w') :
    nodes = w.disk.listedDeps env (w.getBinding e .depfile) ∧ w'.edges = w.edges := by
  rw [extractDeps, get_bind_ok, if_neg gcc_ne.1, if_pos rfl] at hok
  split at hok
  · exact absurd hok throw_ok
  · simp only [bind_ok, orError_ok] at hok
    obtain ⟨content, _, ⟨hread, rfl⟩, hok⟩ := hok
    rw [Disk.listedDeps, hread]
    cases content with
    | none =>
      obtain ⟨rfl, rfl⟩ := pure_ok.mp hok
      exact ⟨rfl, rfl⟩
    | some content =>
      cases content with
      | nil =>
        obtain ⟨rfl, rfl⟩ := pure_ok.mp hok
        exact ⟨rfl, rfl⟩
      | cons c cs =>
        simp only [Option.getD_some, bind_ok, orError_ok] at hok
        obtain ⟨parsed, _, ⟨hparse, rfl⟩, _, w₁, hremove, hok⟩ := hok
        obtain ⟨rfl, rfl⟩ := pure_ok.mp hok
        refine ⟨?_, (removeDepfile_sameEdges _).of_ok hremove⟩
        simp only [hparse]

def Disk.Readable (env : Env) (d : Disk) (depfile : Path) : Prop :=
  ∃ content, d.readFile depfile = .ok content ∧
    (content.getD [] = [] ∨ ∃ parsed, env.parseDepfile (content.getD []) = .ok parsed)

lemma removeDepfile_succeeds (env : Env) {depfile : Path} {content : Option GoString}
    (hread : w.disk.readFile depfile = .ok content) :
    ∃ w', removeDepfile env depfile w = .ok () w' := by
  have hcode : ¬ w.disk.removeCode depfile < 0 := by
    unfold Disk.readFile at hread
    unfold Disk.removeCode
    cases h : w.disk.entries depfile with
    | none => simp
    | some entry =>
      cases entry with
      | file m k x => simp
      | statError msg => simp [h] at hread
  cases hkeep : env.keepDepfile <;>
    simp [removeDepfile, hkeep, hcode, bind_apply, get_apply, modify_apply, pure_apply]

lemma extractDeps_succeeds_iff : (∃ nodes w', extractDeps env e "gcc" w = .ok nodes w') ↔
    w.getBinding e .depfile ≠ [] ∧ w.disk.Readable env (w.getBinding e .depfile) := by
  constructor
  · rintro ⟨nodes, w', hok⟩
    rw [extractDeps, get_bind_ok, if_neg gcc_ne.1, if_pos rfl] at hok
    split at hok
    · exact absurd hok throw_ok
    · rename_i hne
      simp only [bind_ok, orError_ok] at hok
      obtain ⟨content, _, ⟨hread, rfl⟩, hok⟩ := hok
      refine ⟨hne, content, hread, ?_⟩
      cases hcontent : content.getD [] with
      | nil => exact .inl rfl
      | cons c cs =>
        rw [hcontent] at hok
        simp only [bind_ok, orError_ok] at hok
        obtain ⟨parsed, _, ⟨hparse, -⟩, -⟩ := hok
        exact .inr ⟨parsed, hparse⟩
  · rintro ⟨hne, content, hread, hcontent⟩
    simp only [extractDeps, bind_ok, get_ok]
    cases hk : content.getD [] with
    | nil =>
      refine ⟨[], w, w, w, ⟨rfl, rfl⟩, ?_⟩
      rw [if_neg gcc_ne.1, if_pos trivial, if_neg hne]
      refine bind_ok.mpr ⟨content, w, orError_ok.mpr ⟨hread, rfl⟩, ?_⟩
      rw [hk]
      exact pure_ok.mpr ⟨rfl, rfl⟩
    | cons c cs =>
      obtain ⟨parsed, hparse⟩ := hcontent.resolve_left (by simp [hk])
      obtain ⟨w', hremove⟩ := removeDepfile_succeeds env hread
      refine ⟨parsed.2.map env.canonicalizePath, w', w, w, ⟨rfl, rfl⟩, ?_⟩
      rw [if_neg gcc_ne.1, if_pos trivial, if_neg hne]
      refine bind_ok.mpr ⟨content, w, orError_ok.mpr ⟨hread, rfl⟩, ?_⟩
      rw [hk] at hparse ⊢
      refine bind_ok.mpr ⟨parsed, w, orError_ok.mpr ⟨hparse, rfl⟩, ?_⟩
      exact bind_ok.mpr ⟨(), w', hremove, rfl⟩

end Record

section Command

variable {ρ : Type} {env : Env} {r : CommandRunner ρ} {fuel : Nat} {result result' : Result}
  {b b' : Builder ρ}
variable {nodes : List Path}

lemma lift_ok {α : Type} {m : M α} {a : α} (hok : lift m b = .ok a b') :
    ∃ w', m b.world = .ok a w' ∧ b' = { b with world := w' } := by
  rw [lift] at hok
  cases hm : m b.world with
  | ok a' w' =>
    rw [hm] at hok
    cases hok
    exact ⟨w', rfl, rfl⟩
  | error f w' =>
    rw [hm] at hok
    cases hok

lemma attempt_ok {α : Type} {m : B ρ α} {a : α} (hok : attempt m b = .ok (.ok a) b') :
    m b = .ok a b' := by
  rw [attempt] at hok
  cases hm : m b with
  | ok a' b₁ =>
    rw [hm] at hok
    cases hok
    rfl
  | error f b₁ =>
    rw [hm] at hok
    cases f <;> cases hok

lemma extractFrom_ok (hsuccess : result'.success = true)
    (hok : extractFrom env result "gcc" b = .ok (result', nodes) b') :
    result' = result ∧ ∃ w', extractDeps env result.edge "gcc" b.world = .ok nodes w' ∧
      b' = { b with world := w' } := by
  rw [extractFrom, if_neg gcc_ne.2] at hok
  obtain ⟨extracted, b₁, hextract, hok⟩ := bind_ok.mp hok
  cases extracted with
  | ok deps =>
    obtain ⟨h, rfl⟩ := pure_ok.mp hok
    cases h
    exact ⟨rfl, lift_ok (attempt_ok hextract)⟩
  | error err =>
    simp only at hok
    split at hok
    · obtain ⟨h, -⟩ := pure_ok.mp hok
      cases h
      simp [Result.success, ExitStatus.failure, ExitStatus.success] at hsuccess
    · rename_i hfailed
      obtain ⟨h, -⟩ := pure_ok.mp hok
      cases h
      exact absurd hsuccess hfailed

lemma finishCommand_ok (htype : b.world.getBinding result.edge .deps = "gcc")
    (hreal : env.dryRun = false) (hsuccess : result'.success = true)
    (hok : finishCommand env r fuel result b = .ok (result', .ok true) b') :
    result' = result ∧ (∃ nodes w', extractDeps env result.edge "gcc" b.world = .ok nodes w') ∧
      ∀ o ∈ (b.world.edges result.edge).outputs, b'.world.loggedDeps o =
        some (b.world.disk.listedDeps env (b.world.getBinding result.edge .depfile)) := by
  simp only [finishCommand, bind_ok, get_ok, modify_ok] at hok
  obtain ⟨_, _, ⟨rfl, rfl⟩, ⟨result₁, nodes⟩, b₁, hextract, _, _, rfl, _, b₂, hrecord, done, b₃,
    hdone, hok⟩ := hok
  obtain ⟨h, rfl⟩ := pure_ok.mp hok
  cases h
  rw [htype] at hextract
  obtain ⟨rfl, w₁, hdeps, rfl⟩ := extractFrom_ok hsuccess hextract
  obtain ⟨w₂, hlog, rfl⟩ := lift_ok hrecord
  obtain rfl := record_ok.mp hlog
  obtain ⟨w₃, hfinish, rfl⟩ := lift_ok (attempt_ok hdone)
  rw [if_pos hsuccess, htype] at hfinish
  obtain ⟨hnodes, hedges⟩ := extractDeps_ok hdeps
  refine ⟨rfl, ⟨nodes, w₁, hdeps⟩, fun o ho => ?_⟩
  refine (finishSuccess_ok gcc_ne.2 hreal hfinish o ?_).trans (congrArg some hnodes)
  simpa [hedges] using ho

lemma finishCommand_result {w' : World} {done : Except GoString Bool}
    (htype : b.world.getBinding result.edge .deps = "gcc")
    (hdeps : extractDeps env result.edge "gcc" b.world = .ok nodes w')
    (hok : finishCommand env r fuel result b = .ok (result', done) b') : result' = result := by
  simp only [finishCommand, bind_ok, get_ok, modify_ok] at hok
  obtain ⟨_, _, ⟨rfl, rfl⟩, ⟨result₁, nodes₁⟩, b₁, hextract, _, _, rfl, _, b₂, hrecord, done, b₃,
    hdone, hok⟩ := hok
  obtain ⟨h, rfl⟩ := pure_ok.mp hok
  cases h
  rw [htype, extractFrom, if_neg gcc_ne.2, bind_apply, attempt, lift, hdeps] at hextract
  cases hextract
  rfl

end Command

end Reninja
