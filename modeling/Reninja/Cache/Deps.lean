import Reninja.Build.Finish
import Reninja.Cache.Sound

/-!
# Discovered dependencies and the cache

A local run uploads the outputs of its edge, a later hit writes them again. The depfile is not
among them unless it is an output of the edge, so what `ExtractDeps` reads after a hit may not
be what the command has written.
-/

namespace Reninja

open Program

variable {result : Result}

/-- The disk and the blobs are as they were. -/
structure SameStore (s t : Session) : Prop where
  disk : t.disk = s.disk
  blobs : t.cache.blobs = s.cache.blobs

instance : Std.Refl SameStore := ⟨fun _ => ⟨rfl, rfl⟩⟩

instance : IsTrans Session SameStore :=
  ⟨fun _ _ _ h₁ h₂ => ⟨h₂.disk.trans h₁.disk, h₂.blobs.trans h₁.blobs⟩⟩

section Lookup

variable {c : CacheConfig} {fs : FileSystem} {w : World} {e : EdgeId} {s t : Session}

lemma request_sameStore : Moves SameStore s request := by
  refine .get_bind (.bind (.modify ⟨rfl, rfl⟩) fun _ t _ => ?_)
  cases s.cache.refuses s.cache.requests with
  | none => exact .pure _
  | some err => exact .throw _

lemma getBlob_sameStore (d : Option Digest) : Moves SameStore s (getBlob d) := by
  refine .bind request_sameStore fun _ t _ => .get_bind ?_
  cases d.bind t.cache.blobs with
  | none => exact .throw _
  | some content => exact .pure _

lemma findActionResult_sameStore (key : Digest) (msg : GoString) :
    Moves SameStore s (findActionResult key msg) := by
  refine .bind (.bind request_sameStore fun _ t _ => .get_bind ?_) fun ar _ _ =>
    Moves.ite (fun _ => .throw _) fun _ => .pure _
  cases t.cache.actions key with
  | none => exact .throw _
  | some ar => exact .pure _

lemma orThrow_sameStore {α : Type} (r : Except GoString α) : Moves SameStore s (orThrow r) := by
  cases r with
  | ok a => exact .pure a
  | error err => exact .throw _

lemma findCompletedEdge_sameStore (action : Action) :
    Moves SameStore s (findCompletedEdge c fs w e action) := by
  refine .bind (findActionResult_sameStore _ _) fun ar _ _ =>
    Moves.ite (fun _ => ?_) fun _ => .pure _
  refine .bind (.ite (fun _ => .pure _) fun _ =>
    Moves.bind (getBlob_sameStore _) fun _ _ _ => .pure _) fun _ _ _ => ?_
  refine .bind (orThrow_sameStore _) fun _ _ _ => .bind (orThrow_sameStore _)
    fun _ _ _ => ?_
  exact .bind (findActionResult_sameStore _ _) fun _ _ _ => .pure _

end Lookup

namespace Disk

variable {d d' : Disk} {p q : Path} {content : GoString}

lemma writeFile_self (h : d.writeFile p content = .ok d') : d'.readFile p = .ok (some content) := by
  unfold writeFile at h
  split at h
  · cases h
  · cases h
  · cases h
    simp [readFile, put]
  · cases h
    simp [readFile, put]

lemma writeFile_ne (h : d.writeFile p content = .ok d') (hq : q ≠ p) :
    d'.entries q = d.entries q := by
  unfold writeFile at h
  split at h
  · cases h
  · cases h
  · cases h
    simp [put, hq]
  · cases h
    simp [put, hq]

end Disk

section Fetch

variable {s t : Session} {u : Unit} {p : Path} {k : GoString}
variable {f : OutputFile}

lemma fetchFile_writes (hok : fetchFile f s = .ok u t) :
    ∃ created written content, s.cache.blobs f.digest = some content ∧
      s.disk.writeFile f.path [] = .ok created ∧ created.writeFile f.path content = .ok written ∧
      t.cache.blobs = s.cache.blobs ∧
      t.disk = if f.isExecutable then written.put f.path content true else written := by
  simp only [fetchFile, bind_ok, get_ok, modify_ok] at hok
  obtain ⟨_, _, ⟨rfl, rfl⟩, created, s, hcreate, _, _, rfl, content, s₂, hblob, _, _, ⟨rfl, rfl⟩,
    written, s₂, hwrite, rfl⟩ := hok
  obtain ⟨hcreate, rfl⟩ := orThrow_ok hcreate
  obtain ⟨hwrite, rfl⟩ := orThrow_ok hwrite
  have hsame := (getBlob_sameStore _).of_ok hblob
  obtain ⟨⟨_, hd, hcontent⟩, -⟩ := getBlob_ok hblob
  cases hd
  rw [hsame.disk] at hwrite
  exact ⟨created, written, content, hcontent, hcreate, hwrite, hsame.blobs, rfl⟩

lemma fetchFile_ok (hok : fetchFile f s = .ok u t) :
    t.cache.blobs = s.cache.blobs ∧ (∀ q, q ≠ f.path → t.disk.entries q = s.disk.entries q) ∧
      ∃ content, s.cache.blobs f.digest = some content ∧
        t.disk.readFile f.path = .ok (some content) := by
  obtain ⟨created, written, content, hcontent, hcreate, hwrite, hblobs, hdisk⟩ :=
    fetchFile_writes hok
  refine ⟨hblobs, fun q hq => ?_, content, hcontent, ?_⟩
  · have hwritten : written.entries q = s.disk.entries q := by
      rw [Disk.writeFile_ne hwrite hq, Disk.writeFile_ne hcreate hq]
    by_cases hx : f.isExecutable = true <;> simp [hdisk, hx, Disk.put, hq, hwritten]
  · have hself := Disk.writeFile_self hwrite
    by_cases hx : f.isExecutable = true
    · simp [hdisk, hx, Disk.readFile, Disk.put]
    · simpa [hdisk, hx] using hself

lemma fetchOutputs_ok {outputs : List Path} {files : List OutputFile}
    (hok : fetchOutputs outputs files s = .ok u t) :
    ((p ∉ outputs ∨ ∀ f ∈ files, f.path ≠ p) → t.disk.entries p = s.disk.entries p) ∧
      (p ∈ outputs → (∀ f ∈ files, f.path = p → s.cache.blobs f.digest = some k) →
        (s.disk.readFile p = .ok (some k) ∨ ∃ f ∈ files, f.path = p) →
        t.disk.readFile p = .ok (some k)) := by
  induction files generalizing s with
  | nil =>
    obtain ⟨-, rfl⟩ := pure_ok.mp hok
    simp
  | cons f files ih =>
    obtain ⟨_, s₁, hfile, hok⟩ := bind_ok.mp hok
    obtain ⟨hkeep, hwrite⟩ := ih hok
    rw [fetchIfOutput] at hfile
    by_cases hin : f.path ∈ outputs
    · rw [if_pos hin] at hfile
      obtain ⟨hblobs, hother, content, hcontent, hread⟩ := fetchFile_ok hfile
      constructor
      · intro hp
        have hne : p ≠ f.path := by
          rintro rfl
          rcases hp with hp | hp
          · exact hp hin
          · exact hp f (by simp) rfl
        rw [hkeep (hp.imp_right fun h g hg => h g (by simp [hg])), hother p hne]
      · intro hp hall hsome
        refine hwrite hp (fun g hg hgp => by rw [hblobs]; exact hall g (by simp [hg]) hgp) ?_
        by_cases hfp : f.path = p
        · subst hfp
          have := hall f (by simp) rfl
          rw [hcontent] at this
          cases this
          exact .inl hread
        · refine hsome.imp (fun h => ?_) ?_
          · rw [Disk.readFile, hother p (fun h => hfp h.symm)]
            exact h
          · rintro ⟨g, hg, hgp⟩
            rcases List.mem_cons.mp hg with rfl | hg
            · exact absurd hgp hfp
            · exact ⟨g, hg, hgp⟩
    · rw [if_neg hin] at hfile
      obtain ⟨-, rfl⟩ := pure_ok.mp hfile
      refine ⟨fun hp => hkeep (hp.imp_right fun h g hg => h g (by simp [hg])), ?_⟩
      intro hp hall hsome
      refine hwrite hp (fun g hg hgp => hall g (by simp [hg]) hgp) (hsome.imp_right ?_)
      rintro ⟨g, hg, hgp⟩
      rcases List.mem_cons.mp hg with rfl | hg
      · exact absurd (hgp ▸ hp) hin
      · exact ⟨g, hg, hgp⟩

end Fetch

/-- What an upload of some files has done: their blobs are there, and the list has the files
that exist. -/
structure Uploaded (h : Hashing) (outputs : List Path) (s t : Session) (files : List OutputFile) :
    Prop where
  disk : t.disk = s.disk
  kept : ∀ content, s.cache.blobs (h.compute content) = some content →
    t.cache.blobs (h.compute content) = some content
  sound : ∀ f ∈ files, ∃ m content, s.disk.entries f.path = some (.file m content f.isExecutable) ∧
    f.digest = h.compute content ∧ t.cache.blobs f.digest = some content
  complete : ∀ o ∈ outputs, ∀ m content x, s.disk.entries o = some (.file m content x) →
    ∃ f ∈ files, f.path = o

section Upload

variable {c : CacheConfig} {s t : Session} {outputs : List Path} {files : List OutputFile}

lemma uploadBlob_uploaded {content : GoString} {d : Digest}
    (hok : uploadBlob c.hash content s = .ok d t) :
    Uploaded c.hash [] s t [] ∧ d = c.hash.compute content ∧ t.cache.blobs d = some content := by
  simp only [uploadBlob, modifyCache, bind_ok, modify_ok] at hok
  obtain ⟨_, s₁, hreq, _, _, rfl, hok⟩ := hok
  obtain ⟨rfl, rfl⟩ := pure_ok.mp hok
  have hsame := request_sameStore.of_ok hreq
  refine ⟨⟨hsame.disk, fun content' h => ?_, by simp, by simp⟩, rfl, by simp⟩
  by_cases heq : content' = content
  · subst heq
    simp
  · have hne : c.hash.compute content' ≠ c.hash.compute content := fun h =>
      heq (c.hash.compute_injective h)
    simp [hne, hsame.blobs, h]

lemma uploadOutputs_ok (hok : uploadOutputs c outputs s = .ok files t) :
    Uploaded c.hash outputs s t files := by
  induction outputs generalizing s files with
  | nil =>
    obtain ⟨rfl, rfl⟩ := pure_ok.mp hok
    exact ⟨rfl, fun _ h => h, by simp, by simp⟩
  | cons o os ih =>
    rw [uploadOutputs, get_bind_ok] at hok
    cases ho : s.disk.entries o with
    | none =>
      rw [ho] at hok
      have h := ih hok
      refine ⟨h.disk, h.kept, h.sound, fun o' ho' m content x hfile => ?_⟩
      rcases List.mem_cons.mp ho' with rfl | ho'
      · rw [ho] at hfile
        cases hfile
      · exact h.complete o' ho' m content x hfile
    | some entry =>
      rw [ho] at hok
      cases entry with
      | statError err => exact absurd hok throw_ok
      | file m content x =>
        simp only [bind_ok] at hok
        obtain ⟨d, s₁, hblob, files', s₂, hrest, hok⟩ := hok
        obtain ⟨rfl, rfl⟩ := pure_ok.mp hok
        obtain ⟨hup, rfl, hstored⟩ := uploadBlob_uploaded hblob
        have h := ih hrest
        refine ⟨h.disk.trans hup.disk, fun k hk => h.kept k (hup.kept k hk), fun f hf => ?_,
          fun o' ho' m' content' x' hfile => ?_⟩
        · rcases List.mem_cons.mp hf with rfl | hf
          · exact ⟨m, content, ho, rfl, h.kept content hstored⟩
          · rw [← hup.disk]
            exact h.sound f hf
        · rcases List.mem_cons.mp ho' with rfl | ho'
          · exact ⟨⟨o', c.hash.compute content, x⟩, by simp, rfl⟩
          · rw [← hup.disk] at hfile
            obtain ⟨f, hf, hfo⟩ := h.complete o' ho' m' content' x' hfile
            exact ⟨f, by simp [hf], hfo⟩

lemma runLocally_edge (m : Machine) (w : World) (e : EdgeId) :
    (runLocally c m w e s).1.edge = e := by
  rw [runLocally]
  split
  · rfl
  · split
    · split <;> rfl
    · rfl

lemma runLocally_ok {m : Machine} {w : World} {e : EdgeId}
    (hrun : runLocally c m w e s = (result, t)) (hsuccess : result.success = true) :
    ∃ s₁ : Session, Uploaded c.hash (w.edges e).outputs s₁ t result.outputs := by
  rw [runLocally] at hrun
  have hfail : ∀ err, (makeFailureResult e err).success = false := fun _ => rfl
  cases hexec : m.execute e { w with disk := s.disk } with
  | error err =>
    rw [hexec] at hrun
    cases hrun
    rw [hfail] at hsuccess
    cases hsuccess
  | ok r =>
    obtain ⟨disk, status, output⟩ := r
    rw [hexec] at hrun
    by_cases hstatus : status = ExitStatus.success
    · simp only [if_pos hstatus] at hrun
      cases hup : uploadEdgeOutputs c (w.edges e).outputs output { s with disk := disk } with
      | error err s' =>
        rw [hup] at hrun
        cases hrun
        rw [hfail] at hsuccess
        cases hsuccess
      | ok files s' =>
        rw [hup] at hrun
        cases hrun
        obtain ⟨files', s₁, hfiles, hup⟩ := bind_ok.mp hup
        obtain ⟨_, s₂, hblob, hup⟩ := bind_ok.mp hup
        obtain ⟨rfl, rfl⟩ := pure_ok.mp hup
        have h := uploadOutputs_ok hfiles
        have h' := (uploadBlob_uploaded hblob).1
        refine ⟨_, h'.disk.trans h.disk, fun k hk => h'.kept k (h.kept k hk), fun f hf => ?_,
          h.complete⟩
        obtain ⟨mtime, content, hfile, hdigest, hstored⟩ := h.sound f hf
        refine ⟨mtime, content, hfile, hdigest, ?_⟩
        rw [hdigest] at hstored ⊢
        exact h'.kept content hstored
    · simp only [if_neg hstatus] at hrun
      cases hrun
      simp [Result.success, hstatus] at hsuccess

end Upload

/-! ### Cache hits -/

/-- A build that has run the command of an edge with `deps = gcc` locally: the run with the upload
of its outputs, and the `FinishCommand` that stored the result. The parser rejects edges without
outputs. -/
structure LocalRun (c : CacheConfig) (m : Machine) (env : Env) (e : EdgeId) where
  world : World
  before : Session
  after : Session
  result : Result
  run : runLocally c m world e before = (result, after)
  runner : CachingState
  exitCode : ExitStatus
  fuel : Nat
  finished : Result
  builder : Builder CachingState
  finish : finishCommand env (cachingRunner c m) fuel result
    ⟨{ world with disk := after.disk }, runner, exitCode⟩ = .ok (finished, .ok true) builder
  success : finished.success = true
  deps : world.getBinding e .deps = "gcc"
  hasDepfile : world.getBinding e .depfile ≠ []
  hasOutput : (world.edges e).outputs ≠ []
  real : env.dryRun = false

namespace LocalRun

variable {c : CacheConfig} {m : Machine} {env : Env} {e : EdgeId} (r : LocalRun c m env e)

def outputs : List Path := (r.world.edges e).outputs

def depfile : Path := r.world.getBinding e .depfile

def headers : List Path := r.after.disk.listedDeps env r.depfile

end LocalRun

/-- A later build of the same edge that is answered with the result of a local run. The cache
has kept what was stored, and the depfile is not on disk. -/
structure CacheHit {c : CacheConfig} {m : Machine} {env : Env} {e : EdgeId}
    (r : LocalRun c m env e) where
  world : World
  before : Session
  found : Session
  after : Session
  result : Result
  files : FileSystem
  action : Action
  key : Digest
  find : findCompletedEdge c files world e action before =
    .ok (key, fullActionResult r.result) found
  fetch : fetchOutputsAndResult c world e (fullActionResult r.result) found = .ok result after
  runner : CachingState
  exitCode : ExitStatus
  fuel : Nat
  finished : Result
  builder : Builder CachingState
  finish : finishCommand env (cachingRunner c m) fuel result
    ⟨{ world with disk := after.disk }, runner, exitCode⟩ = .ok (finished, .ok true) builder
  kept : ∀ d content, r.after.cache.blobs d = some content → before.cache.blobs d = some content
  missing : before.disk.entries r.depfile = none
  sameOutputs : (world.edges e).outputs = r.outputs
  sameDeps : world.getBinding e .deps = "gcc"
  sameDepfile : world.getBinding e .depfile = r.depfile

section Hit

variable {c : CacheConfig} {m : Machine} {env : Env} {fs : FileSystem} {e : EdgeId}
  {w₁ w₂ : World} {s₁ t₁ s₂ t₂ : Session} {result₁ result₂ : Result}
variable {files : List OutputFile} {outputs : List Path} {depfile : Path}

lemma listedDeps_of_not_output {u : Unit} (hfetch : fetchOutputs outputs files s₂ = .ok u t₂)
    (hmissing : s₂.disk.entries depfile = none) (hout : depfile ∉ outputs) :
    t₂.disk.entries depfile = none := by
  have hkeep := (fetchOutputs_ok (p := depfile) (k := []) hfetch).1 (.inl hout)
  rw [hkeep, hmissing]

lemma readFile_of_output {h : Hashing} {u : Unit} (hup : Uploaded h outputs s₁ t₁ files)
    (hkept : ∀ d content, t₁.cache.blobs d = some content → s₂.cache.blobs d = some content)
    (hfetch : fetchOutputs outputs files s₂ = .ok u t₂) (hmissing : s₂.disk.entries depfile = none)
    (hout : depfile ∈ outputs) (hfile : ∀ msg, t₁.disk.entries depfile ≠ some (.statError msg)) :
    t₂.disk.readFile depfile = t₁.disk.readFile depfile := by
  cases hentry : t₁.disk.entries depfile with
  | none =>
    have hnone : ∀ f ∈ files, f.path ≠ depfile := by
      rintro f hf rfl
      obtain ⟨mtime, content, hf, -⟩ := hup.sound f hf
      rw [← hup.disk, hentry] at hf
      cases hf
    have hkeep := (fetchOutputs_ok (p := depfile) (k := []) hfetch).1 (.inr hnone)
    simp only [Disk.readFile, hkeep, hmissing, hentry]
  | some entry =>
    cases entry with
    | statError msg => exact absurd hentry (hfile msg)
    | file mtime content x =>
      have hread : t₁.disk.readFile depfile = .ok (some content) := by
        simp [Disk.readFile, hentry]
      rw [hread]
      rw [hup.disk] at hentry
      refine (fetchOutputs_ok hfetch).2 hout (fun f hf hfp => ?_)
        (.inr (hup.complete depfile hout mtime content x hentry))
      obtain ⟨_, content', hf', -, hstored⟩ := hup.sound f hf
      rw [hfp, hentry] at hf'
      cases hf'
      exact hkept _ _ hstored

variable (r : LocalRun c m env e) (hit : CacheHit r)

lemma LocalRun.edge_eq : r.result.edge = e := by
  have h := runLocally_edge (c := c) (s := r.before) m r.world e
  rwa [r.run] at h

lemma LocalRun.logged : r.finished = r.result ∧
    (∃ nodes w', extractDeps env e "gcc" { r.world with disk := r.after.disk } = .ok nodes w') ∧
    ∀ o ∈ r.outputs, r.builder.world.loggedDeps o = some r.headers := by
  have h := finishCommand_ok (by rw [r.edge_eq]; exact r.deps) r.real r.success r.finish
  rw [r.edge_eq] at h
  exact h

lemma LocalRun.uploaded :
    ∃ s : Session, Uploaded c.hash r.outputs s r.after r.result.outputs :=
  runLocally_ok r.run (by rw [← r.logged.1]; exact r.success)

lemma CacheHit.result_eq : hit.result.edge = e ∧ hit.result.status = r.result.status := by
  obtain ⟨_, _, -, h⟩ := bind_ok.mp hit.fetch
  obtain ⟨_, _, -, h⟩ := bind_ok.mp h
  obtain ⟨h, -⟩ := pure_ok.mp h
  rw [← h]
  exact ⟨rfl, rfl⟩

lemma CacheHit.fetched : ∃ (s t : Session) (u : Unit), SameStore hit.before s ∧
    fetchOutputs r.outputs r.result.outputs s = .ok u t ∧ hit.after.disk = t.disk := by
  obtain ⟨u, t, hfetch, h⟩ := bind_ok.mp hit.fetch
  obtain ⟨_, t', hstdout, h⟩ := bind_ok.mp h
  obtain ⟨-, rfl⟩ := pure_ok.mp h
  rw [hit.sameOutputs] at hfetch
  refine ⟨hit.found, t, u, (findCompletedEdge_sameStore _).of_ok hit.find, hfetch, ?_⟩
  have hsame : Moves SameStore t (fetchStdout c (fullActionResult r.result)) := .pure _
  exact (hsame.of_ok hstdout).disk

lemma CacheHit.readFile_depfile : hit.after.disk.readFile r.depfile =
    if r.depfile ∈ r.outputs then r.after.disk.readFile r.depfile else .ok none := by
  obtain ⟨s, t, u, hsame, hfetch, hdisk⟩ := hit.fetched
  obtain ⟨s₁, hup⟩ := r.uploaded
  have hmissing : s.disk.entries r.depfile = none := by rw [hsame.disk, hit.missing]
  obtain ⟨-, ⟨content, hread, -⟩⟩ := extractDeps_succeeds_iff.mp r.logged.2.1
  rw [hdisk]
  split
  · rename_i hout
    refine readFile_of_output hup (fun d k hk => ?_) hfetch hmissing hout fun msg herr => ?_
    · rw [hsame.blobs]
      exact hit.kept d k hk
    · have hread : r.after.disk.readFile r.depfile = .ok content := hread
      simp [Disk.readFile, herr] at hread
  · rename_i hout
    rw [Disk.readFile, listedDeps_of_not_output hfetch hmissing hout]

lemma CacheHit.readable : hit.after.disk.Readable env r.depfile := by
  have hread := hit.readFile_depfile
  split at hread
  · obtain ⟨-, content, hcontent, hparse⟩ := extractDeps_succeeds_iff.mp r.logged.2.1
    exact ⟨content, hread.trans hcontent, hparse⟩
  · exact ⟨none, hread, .inl rfl⟩

lemma CacheHit.logged : ∀ o ∈ r.outputs, hit.builder.world.loggedDeps o =
    some (hit.after.disk.listedDeps env r.depfile) := by
  obtain ⟨hedge, hstatus⟩ := hit.result_eq
  have hdeps : ∃ nodes w', extractDeps env e "gcc" { hit.world with disk := hit.after.disk } =
      .ok nodes w' := by
    refine extractDeps_succeeds_iff.mpr ⟨?_, ?_⟩
    · exact hit.sameDepfile ▸ r.hasDepfile
    · exact hit.sameDepfile ▸ hit.readable
  obtain ⟨nodes, w', hdeps⟩ := hdeps
  have htype : hit.world.getBinding hit.result.edge .deps = "gcc" := by rw [hedge, hit.sameDeps]
  have hfinished : hit.finished = hit.result :=
    finishCommand_result htype (by rw [hedge]; exact hdeps) hit.finish
  have hsuccess : hit.finished.success = true := by
    rw [hfinished, Result.success, hstatus, ← r.logged.1]
    exact r.success
  have h := (finishCommand_ok htype r.real hsuccess hit.finish).2.2
  rw [hedge] at h
  intro o ho
  refine (h o (by rw [← hit.sameOutputs] at ho; exact ho)).trans ?_
  rw [← hit.sameDepfile]
  rfl

/-- After a hit the deps log has the same lists as after the local run exactly when the command
has listed no headers or its depfile is one of its outputs. -/
theorem loggedDeps_eq_iff :
    (∀ o ∈ r.outputs, hit.builder.world.loggedDeps o = r.builder.world.loggedDeps o) ↔
      r.headers = [] ∨ r.depfile ∈ r.outputs := by
  have hlist : hit.after.disk.listedDeps env r.depfile =
      if r.depfile ∈ r.outputs then r.headers else [] := by
    rw [Disk.listedDeps, hit.readFile_depfile]
    by_cases hout : r.depfile ∈ r.outputs
    · rw [if_pos hout, if_pos hout]
      rfl
    · rw [if_neg hout, if_neg hout]
  constructor
  · intro heq
    by_cases hout : r.depfile ∈ r.outputs
    · exact .inr hout
    · obtain ⟨o, ho⟩ := List.exists_mem_of_ne_nil _ r.hasOutput
      have h := heq o ho
      rw [hit.logged r o ho, r.logged.2.2 o ho, hlist, if_neg hout, Option.some.injEq] at h
      exact .inl h.symm
  · intro hcond o ho
    rw [hit.logged r o ho, r.logged.2.2 o ho, hlist]
    split
    · rfl
    · rename_i hout
      rw [hcond.resolve_right hout]

end Hit

/-! ### A run and a hit -/

section Sample

def depsWorld (outputs : List Path) : World where
  nodes n := if n ∈ outputs then { inEdge := some 0 } else {}
  edges e := if e = 0 then
      { rule := fun
          | .deps    => some "gcc"
          | .depfile => some [100]
          | .command => some [99]
          | _ => none
        outputs := outputs }
    else {}
  edgeCount := 1
  want e := if e = 0 then some .toFinish else none
  depsLog := some {}

/-- Every depfile lists the header `h`. -/
def depsEnv : Env := { parseDepfile := fun _ => .ok ([[111]], [[104]]) }

/-- The command writes `o` and `d`. -/
def depsMachine : Machine where
  parallelism := 1
  files _ := sampleFiles
  execute _ w := .ok ((w.disk.put [111] [1] false).put [100] [2] false, ExitStatus.success, [])

/-- A call of `FinishCommand` that leaves the result as it is and returns true. -/
def finishesWell (result : Result)
    (x : EStateM.Result Failure (Builder CachingState) (Result × Except GoString Bool)) : Bool :=
  match x with
  | .ok (r, .ok true) _ => r = result
  | _ => false

lemma finishesWell_eq
    {x : EStateM.Result Failure (Builder CachingState) (Result × Except GoString Bool)}
    (h : finishesWell result x = true) : x = .ok (result, .ok true) (finalState x) := by
  unfold finishesWell at h
  split at h
  · simp only [decide_eq_true_eq] at h
    rw [h]
    rfl
  · cases h

def depsRan (outputs : List Path) : Result × Session :=
  runLocally sampleConfig depsMachine (depsWorld outputs) 0 ⟨{}, {}⟩

/-- The lookup of edge 0 when the cache has the result of the local run for every key. -/
def depsLookup (outputs : List Path) : Session where
  cache := { actions := fun _ => some (fullActionResult (depsRan outputs).1)
             blobs := (depsRan outputs).2.cache.blobs }
  disk := {}

def depsFetched (outputs : List Path) : EStateM.Result GoString Session Result :=
  fetchOutputsAndResult sampleConfig (depsWorld outputs) 0 (fullActionResult (depsRan outputs).1)
    { depsLookup outputs with cache := { (depsLookup outputs).cache with requests := 1 } }

def depsHitResult (outputs : List Path) : Result :=
  { edge := 0, status := 0, runner := .remoteCache, outputs := (depsRan outputs).1.outputs }

def depsFinish (outputs : List Path) (disk : Disk) (result : Result) :
    EStateM.Result Failure (Builder CachingState) (Result × Except GoString Bool) :=
  finishCommand depsEnv (cachingRunner sampleConfig depsMachine) 2 result
    ⟨{ depsWorld outputs with disk := disk }, { cache := {} }, 0⟩

/-- The two builds of edge 0, as far as they have to be computed. -/
structure DepsSample (outputs : List Path) : Prop where
  hasOutput : outputs ≠ []
  success : (depsRan outputs).1.success = true
  stored : (depsRan outputs).1.outputs ≠ []
  finish : finishesWell (depsRan outputs).1
    (depsFinish outputs (depsRan outputs).2.disk (depsRan outputs).1) = true
  fetch : depsFetched outputs = .ok (depsHitResult outputs) (finalState (depsFetched outputs))
  finishHit : finishesWell (depsHitResult outputs)
    (depsFinish outputs (finalState (depsFetched outputs)).disk (depsHitResult outputs)) = true

variable {outputs : List Path} (h : DepsSample outputs)

def depsRun : LocalRun sampleConfig depsMachine depsEnv 0 where
  world := depsWorld outputs
  before := ⟨{}, {}⟩
  after := (depsRan outputs).2
  result := (depsRan outputs).1
  run := rfl
  runner := { cache := {} }
  exitCode := 0
  fuel := 2
  finished := _
  builder := _
  finish := finishesWell_eq h.finish
  success := h.success
  deps := rfl
  hasDepfile := by simp [World.getBinding, depsWorld]
  hasOutput := h.hasOutput
  real := rfl

def depsHit : CacheHit (depsRun h) where
  world := depsWorld outputs
  before := depsLookup outputs
  found := { depsLookup outputs with cache := { (depsLookup outputs).cache with requests := 1 } }
  after := finalState (depsFetched outputs)
  result := depsHitResult outputs
  files := sampleFiles
  action := ⟨[], []⟩
  key := sampleConfig.hash.action (some ⟨[], []⟩)
  find := by
    have hcode : (fullActionResult (depsRan outputs).1).exitCode = 0 :=
      of_decide_eq_true h.success
    have hfull : isDepsFileResult sampleConfig (fullActionResult (depsRan outputs).1) = false := by
      simp [isDepsFileResult, fullActionResult, h.stored]
    simp [findCompletedEdge, findActionResult, downloadActionResult, request, modifyCache,
      bind_apply, get_apply, modify_apply, pure_apply, hcode, hfull, depsLookup, depsRun]
  fetch := h.fetch
  runner := { cache := {} }
  exitCode := 0
  fuel := 2
  finished := _
  builder := _
  finish := finishesWell_eq h.finishHit
  kept := fun _ _ hd => hd
  missing := rfl
  sameOutputs := rfl
  sameDeps := rfl
  sameDepfile := rfl

lemma depsSample_output : DepsSample [[111]] :=
  ⟨by decide, by decide +kernel, by decide +kernel, by decide +kernel, rfl, by decide +kernel⟩

lemma depsSample_depfile : DepsSample [[111], [100]] :=
  ⟨by decide, by decide +kernel, by decide +kernel, by decide +kernel, rfl, by decide +kernel⟩

/-- With the depfile among the outputs the header is in the log after both builds. -/
theorem loggedDeps_eq_sample :
    (depsRun depsSample_depfile).builder.world.loggedDeps [111] = some [[104]] ∧
    ∀ o ∈ (depsRun depsSample_depfile).outputs,
      (depsHit depsSample_depfile).builder.world.loggedDeps o =
        (depsRun depsSample_depfile).builder.world.loggedDeps o :=
  ⟨by decide +kernel, (loggedDeps_eq_iff _ _).mpr (.inr (by decide +kernel))⟩

/-- With the output alone the header is in the log after the local run and lost after the hit. -/
theorem loggedDeps_lost :
    (depsRun depsSample_output).builder.world.loggedDeps [111] = some [[104]] ∧
      (depsHit depsSample_output).builder.world.loggedDeps [111] = some [] := by
  decide +kernel

end Sample

end Reninja
