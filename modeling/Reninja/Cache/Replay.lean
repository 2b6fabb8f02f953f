import Reninja.Cache.Deps

/-!
# What a hit replays

A local run leaves a status, an output text and files; its result is stored under the key of its
inputs. A later hit gives the status and the files back, but not the text, and a file that it
writes over keeps its executable bit.
-/

namespace Reninja

open Program

namespace Disk

def isExecutable (d : Disk) (p : Path) : Bool :=
  match d.entries p with
  | some (.file _ _ x) => x
  | _ => false

variable {d d' : Disk} {p q : Path} {content : GoString}

lemma isExecutable_put (x : Bool) :
    (d.put p content x).isExecutable q = if q = p then x else d.isExecutable q := by
  unfold isExecutable put
  by_cases hq : q = p
  · subst hq
    simp
  · simp [hq]

lemma isExecutable_writeFile (h : d.writeFile p content = .ok d') (q : Path) :
    d'.isExecutable q = d.isExecutable q := by
  unfold writeFile at h
  split at h
  · cases h
  · cases h
  · rename_i hentry
    cases h
    rw [isExecutable_put]
    split
    · rename_i hq
      rw [isExecutable, hq, hentry]
    · rfl
  · rename_i hentry
    cases h
    rw [isExecutable_put]
    split
    · rename_i hq
      rw [isExecutable, hq, hentry]
    · rfl

end Disk

section Fetch

variable {s t : Session} {u : Unit} {p : Path}

lemma fetchFile_executable {f : OutputFile} (hok : fetchFile f s = .ok u t) (q : Path) :
    t.disk.isExecutable q =
      (s.disk.isExecutable q || (decide (f.path = q) && f.isExecutable)) := by
  obtain ⟨created, written, content, -, hcreate, hwrite, -, hdisk⟩ := fetchFile_writes hok
  have hwritten : written.isExecutable q = s.disk.isExecutable q := by
    rw [Disk.isExecutable_writeFile hwrite, Disk.isExecutable_writeFile hcreate]
  by_cases hx : f.isExecutable = true
  · simp only [hdisk, hx, if_true, Disk.isExecutable_put, hwritten, Bool.and_true]
    by_cases hq : q = f.path
    · simp [hq]
    · have hq' : f.path ≠ q := fun h => hq h.symm
      simp [hq, hq']
  · simp [hdisk, hx, hwritten]

lemma fetchOutputs_executable {outputs : List Path} {files : List OutputFile}
    (hok : fetchOutputs outputs files s = .ok u t) :
    t.disk.isExecutable p = (s.disk.isExecutable p ||
      files.any fun f => decide (f.path = p) && f.isExecutable && decide (f.path ∈ outputs)) := by
  induction files generalizing s with
  | nil =>
    obtain ⟨-, rfl⟩ := pure_ok.mp hok
    simp
  | cons f files ih =>
    obtain ⟨_, s₁, hfile, hok⟩ := bind_ok.mp hok
    rw [ih hok, List.any_cons, ← Bool.or_assoc]
    congr 1
    rw [fetchIfOutput] at hfile
    by_cases hin : f.path ∈ outputs
    · rw [if_pos hin] at hfile
      rw [fetchFile_executable hfile, decide_eq_true hin, Bool.and_true]
    · rw [if_neg hin] at hfile
      obtain ⟨-, rfl⟩ := pure_ok.mp hfile
      rw [decide_eq_false hin, Bool.and_false, Bool.or_false]

end Fetch

/-! ### What an upload keeps and stores -/

def KeepsBlobs (h : Hashing) (s t : Session) : Prop :=
  ∀ content, s.cache.blobs (h.compute content) = some content →
    t.cache.blobs (h.compute content) = some content

instance {h : Hashing} : Std.Refl (KeepsBlobs h) := ⟨fun _ _ hs => hs⟩

instance {h : Hashing} : IsTrans Session (KeepsBlobs h) :=
  ⟨fun _ _ _ h₁ h₂ content hs => h₂ content (h₁ content hs)⟩

section Upload

variable {c : CacheConfig} {s t : Session}

lemma SameStore.keepsBlobs (h : SameStore s t) : KeepsBlobs c.hash s t := by
  intro content hs
  rw [h.blobs, hs]

lemma request_keeps : Moves (KeepsBlobs c.hash) s request :=
  SameStore.keepsBlobs request_sameStore

lemma uploadBlob_keeps (content : GoString) :
    Moves (KeepsBlobs c.hash) s (uploadBlob c.hash content) := by
  refine .bind request_keeps fun _ t _ => .bind (.modify ?_) fun _ _ _ =>
    Moves.pure _
  intro content' hs
  by_cases heq : content' = content
  · subst heq
    simp
  · have hne : c.hash.compute content' ≠ c.hash.compute content := fun h =>
      heq (c.hash.compute_injective h)
    simp [hne, hs]

lemma storeActionResult_keeps (key : Digest) (ar : ActionResult) :
    Moves (KeepsBlobs c.hash) s (storeActionResult key ar) :=
  Moves.bind (.modify fun _ hs => hs) fun _ _ _ =>
    Moves.bind request_keeps fun _ _ _ => .modify fun _ hs => hs

lemma storeActionResult_ok {key : Digest} {ar : ActionResult} {u : Unit}
    (hok : storeActionResult key ar s = .ok u t) : t.cache.actions key = some ar := by
  simp only [storeActionResult, modifyCache, bind_ok, modify_ok] at hok
  obtain ⟨_, s₁, -, _, s₂, -, rfl⟩ := hok
  simp

/-- The upload stores the full result under this key. It does so unless dynamic inputs were loaded
and none was discovered. -/
def Upload.StoresFullUnder (c : CacheConfig) (u : Upload) (key : Digest) : Prop :=
  (u.world.dynamicInputs u.result.edge = [] ∨ u.depsNodes ≠ []) ∧
    ∃ cmd, assembleCommand c u.world u.result.edge = .ok cmd ∧
      key = storeKey c u.files cmd u.keyInputs

lemma Upload.run_keeps (u : Upload) : Moves (KeepsBlobs c.hash) s (u.run c) := by
  have horThrow : ∀ {α : Type} (r : Except GoString α) (s : Session),
      Moves (KeepsBlobs c.hash) s (orThrow r) := fun r s =>
    SameStore.keepsBlobs (orThrow_sameStore r)
  have hreference : ∀ cmd inputs nodes (s : Session), Moves (KeepsBlobs c.hash) s
      (uploadActionResultReference c u.files cmd inputs nodes) := fun _ _ _ _ =>
    Moves.bind (uploadBlob_keeps _) fun _ _ _ => storeActionResult_keeps _ _
  have hfull : ∀ cmd inputs (s : Session), Moves (KeepsBlobs c.hash) s
      (uploadFullActionResult c u.files cmd u.result inputs) := fun _ _ _ =>
    storeActionResult_keeps _ _
  refine .bind (horThrow _ _) fun cmd t _ => ?_
  dsimp only
  split
  · exact .bind (hreference _ _ _ _) fun _ _ _ => hfull _ _ _
  · exact hfull _ _ _
  · exact hreference _ _ _ _
  · exact .bind (hreference _ _ _ _) fun _ _ _ => hfull _ _ _

lemma Upload.run_ok {u : Upload} {v : Unit} {key : Digest} (hok : u.run c s = .ok v t)
    (hkey : u.StoresFullUnder c key) : t.cache.actions key = some (fullActionResult u.result) := by
  obtain ⟨hcase, cmd, hcmd, rfl⟩ := hkey
  obtain ⟨cmd', s₁, hthrow, hstore⟩ := bind_ok.mp hok
  obtain rfl : cmd = cmd' := Except.ok.inj (hcmd.symm.trans (orThrow_ok hthrow).1)
  have hinputs : u.keyInputs = u.world.staticInputs u.result.edge ++
      (u.world.dynamicInputs u.result.edge ++ u.depsNodes) := rfl
  rw [hinputs]
  cases hdyn : u.world.dynamicInputs u.result.edge with
  | nil =>
    cases hdeps : u.depsNodes with
    | nil =>
      simp only [hdyn, hdeps] at hstore
      rw [List.append_nil, List.append_nil]
      exact storeActionResult_ok hstore
    | cons n nodes =>
      simp only [hdyn, hdeps] at hstore
      obtain ⟨_, s₂, -, hstore⟩ := bind_ok.mp hstore
      exact storeActionResult_ok hstore
  | cons d dyn =>
    cases hdeps : u.depsNodes with
    | nil => simp [hdyn, hdeps] at hcase
    | cons n nodes =>
      simp only [hdyn, hdeps] at hstore
      obtain ⟨_, s₂, -, hstore⟩ := bind_ok.mp hstore
      exact storeActionResult_ok hstore

end Upload

/-- A successful local run, and the upload that has stored its result. The service keeps the blobs
of the run until then. -/
structure SavedRun (c : CacheConfig) (m : Machine) (e : EdgeId) where
  world : World
  before : Session
  after : Session
  result : Result
  run : runLocally c m world e before = (result, after)
  success : result.success = true
  upload : Upload
  uploads : upload.result = result
  session : Session
  stored : Session
  store : upload.run c session = .ok () stored
  kept : ∀ d content, after.cache.blobs d = some content → session.cache.blobs d = some content

/-- A later hit for the same edge, on any disk, that ends at the stored result. The service has
kept what was stored. -/
structure Replay {c : CacheConfig} {m : Machine} {e : EdgeId} (r : SavedRun c m e) where
  world : World
  files : FileSystem
  action : Action
  before : Session
  found : Session
  after : Session
  key : Digest
  entry : ActionResult
  result : Result
  find : findCompletedEdge c files world e action before = .ok (key, entry) found
  fetch : fetchOutputsAndResult c world e entry found = .ok result after
  hit : r.upload.StoresFullUnder c key
  keptAction : before.cache.actions key = r.stored.cache.actions key
  kept : ∀ d content, r.stored.cache.blobs d = some content → before.cache.blobs d = some content
  sameOutputs : (world.edges e).outputs = (r.world.edges e).outputs

section Replay

variable {c : CacheConfig} {m : Machine} {e : EdgeId} (r : SavedRun c m e) (hit : Replay r)

def SavedRun.outputs : List Path := (r.world.edges e).outputs

/-- The status, the text and the files of the run are there again. -/
def Replay.Faithful : Prop :=
  hit.result.status = r.result.status ∧ hit.result.output = r.result.output ∧
    ∀ o ∈ r.outputs, ∀ mtime content x, r.after.disk.entries o = some (.file mtime content x) →
      ∃ mtime', hit.after.disk.entries o = some (.file mtime' content x)

lemma Replay.entry_eq : hit.entry = fullActionResult r.result := by
  have hstored := Upload.run_ok r.store hit.hit
  rw [← hit.keptAction, (findCompletedEdge_ok hit.find).1, r.uploads] at hstored
  exact Option.some.inj hstored

lemma Replay.fetched : hit.result.status = r.result.status ∧ hit.result.output = [] ∧
    ∃ (s : Session) (u : Unit), SameStore hit.before s ∧
      ∃ t, fetchOutputs r.outputs r.result.outputs s = .ok u t ∧ hit.after.disk = t.disk := by
  have hfetch := hit.fetch
  rw [hit.entry_eq] at hfetch
  obtain ⟨u, t, houtputs, hfetch⟩ := bind_ok.mp hfetch
  obtain ⟨output, t', hstdout, hfetch⟩ := bind_ok.mp hfetch
  obtain ⟨hresult, hafter⟩ := pure_ok.mp hfetch
  -- no digest of the text was stored
  obtain ⟨rfl, rfl⟩ := pure_ok.mp hstdout
  rw [hit.sameOutputs] at houtputs
  refine ⟨by rw [← hresult]; rfl, by rw [← hresult], hit.found, u,
    (findCompletedEdge_sameStore _).of_ok hit.find, _, houtputs, by rw [← hafter]⟩

lemma Replay.blob {content : GoString}
    (h : r.after.cache.blobs (c.hash.compute content) = some content) :
    hit.before.cache.blobs (c.hash.compute content) = some content :=
  hit.kept _ _ ((Upload.run_keeps r.upload).of_ok r.store content (r.kept _ _ h))

lemma Replay.output_entry {o : Path} (ho : o ∈ r.outputs) {mtime : TimeStamp} {content : GoString}
    {x : Bool} (hfile : r.after.disk.entries o = some (.file mtime content x)) :
    ∃ mtime', hit.after.disk.entries o =
      some (.file mtime' content (hit.before.disk.isExecutable o || x)) := by
  obtain ⟨-, -, s, u, hsame, t, hfetch, hdisk⟩ := hit.fetched
  obtain ⟨s₁, hup⟩ := runLocally_ok r.run r.success
  rw [hup.disk] at hfile
  have hfiles : ∀ f ∈ r.result.outputs, f.path = o → f.digest = c.hash.compute content ∧
      f.isExecutable = x ∧ r.after.cache.blobs f.digest = some content := by
    rintro f hf rfl
    obtain ⟨_, _, hentry, hdigest, hblob⟩ := hup.sound f hf
    rw [hfile] at hentry
    cases hentry
    exact ⟨hdigest, rfl, hblob⟩
  obtain ⟨g, hg, hgo⟩ := hup.complete o ho mtime content x hfile
  have hread : t.disk.readFile o = .ok (some content) := by
    refine (fetchOutputs_ok hfetch).2 ho (fun f hf hfo => ?_) (.inr ⟨g, hg, hgo⟩)
    obtain ⟨hdigest, -, hblob⟩ := hfiles f hf hfo
    rw [hsame.blobs, hdigest]
    exact hit.blob r (hdigest ▸ hblob)
  have hbit : t.disk.isExecutable o = (hit.before.disk.isExecutable o || x) := by
    rw [fetchOutputs_executable hfetch, hsame.disk]
    congr 1
    rw [Bool.eq_iff_iff, List.any_eq_true]
    simp only [Bool.and_eq_true, decide_eq_true_eq]
    constructor
    · rintro ⟨f, hf, ⟨hfo, hx⟩, -⟩
      rw [← (hfiles f hf hfo).2.1, hx]
    · intro hx
      exact ⟨g, hg, ⟨hgo, by rw [(hfiles g hg hgo).2.1, hx]⟩, hgo ▸ ho⟩
  rw [hdisk]
  unfold Disk.readFile at hread
  split at hread
  · cases hread
  · rename_i mtime' content' x' hentry
    cases hread
    have hx' : t.disk.isExecutable o = x' := by rw [Disk.isExecutable, hentry]
    exact ⟨mtime', by rw [hentry, ← hbit, hx']⟩
  · cases hread

/-- A hit replays the run exactly when the run had printed nothing and no file that the run left
without the executable bit is written over a file with it. -/
theorem replay_faithful_iff :
    hit.Faithful ↔ r.result.output = [] ∧
      ∀ o ∈ r.outputs, ∀ mtime content, r.after.disk.entries o = some (.file mtime content false) →
        hit.before.disk.isExecutable o = false := by
  obtain ⟨hstatus, houtput, -⟩ := hit.fetched
  constructor
  · rintro ⟨-, htext, hfiles⟩
    refine ⟨by rw [← htext, houtput], ?_⟩
    intro o ho mtime content hfile
    obtain ⟨mtime', hentry⟩ := hfiles o ho mtime content false hfile
    obtain ⟨mtime'', hentry'⟩ := hit.output_entry r ho hfile
    rw [hentry, Option.some.injEq, DiskEntry.file.injEq, Bool.or_false] at hentry'
    exact hentry'.2.2.symm
  · rintro ⟨htext, hbits⟩
    refine ⟨hstatus, by rw [houtput, htext], ?_⟩
    intro o ho mtime content x hfile
    obtain ⟨mtime', hentry⟩ := hit.output_entry r ho hfile
    refine ⟨mtime', ?_⟩
    cases x with
    | true => rwa [Bool.or_true] at hentry
    | false =>
      rw [hbits o ho mtime content hfile] at hentry
      exact hentry

end Replay

/-! ### Two runs that are not replayed -/

section Sample

def printingMachine (text : GoString) : Machine where
  parallelism := 1
  files _ := sampleFiles
  execute _ w := .ok (w.disk.put "o" [1] false, ExitStatus.success, text)

def printed (text : GoString) : Result where
  edge := 0
  status := 0
  output := text
  outputs := [⟨"o", [1], false⟩]

def printedSession (text : GoString) : Session where
  cache :=
    { blobs := Function.update (Function.update (fun _ => none) [1] (some [1])) text (some text)
      requests := 2 }
  disk := ({} : Disk).put "o" [1] false

lemma printed_run (text : GoString) :
    runLocally sampleConfig (printingMachine text) (depfileWorld []) 0 ⟨{}, {}⟩ =
      (printed text, printedSession text) := by
  simp [runLocally, printingMachine, depfileWorld, uploadEdgeOutputs, uploadOutputs, uploadBlob,
    request, modifyCache, bind_apply, get_apply, modify_apply, Disk.put, printed,
    printedSession, sampleConfig, Hashing.byCode, ExitStatus.success]
  rfl

def printedUpload (text : GoString) : Upload where
  world := depfileWorld []
  files := sampleFiles
  result := printed text
  listed := []

def printedStored (text : GoString) (a : Action) : Session where
  cache :=
    { (printedSession text).cache with
      actions := Function.update (fun _ => none) (sampleConfig.hash.action (some a))
        (some (fullActionResult (printed text)))
      requests := 3
      updates := [sampleConfig.hash.action (some a)] }
  disk := (printedSession text).disk

lemma printedUpload_key (text : GoString) {a : Action}
    (ha : assembleAction sampleConfig sampleFiles depfileCommand ["src/a.c"] = .ok a) :
    storeKey sampleConfig sampleFiles depfileCommand (printedUpload text).keyInputs =
      sampleConfig.hash.action (some a) := by
  have hinputs : (printedUpload text).keyInputs = (depfileWorld []).staticInputs 0 :=
    List.append_nil _
  refine sample_storeKey ?_ ha
  rw [hinputs, depfileWorld_static, extractPaths_singleton]

lemma printedUpload_run (text : GoString) {a : Action}
    (ha : assembleAction sampleConfig sampleFiles depfileCommand ["src/a.c"] = .ok a) :
    (printedUpload text).run sampleConfig (printedSession text) =
      .ok () (printedStored text a) := by
  have hkey := printedUpload_key text ha
  have hinputs : (printedUpload text).keyInputs = (depfileWorld []).staticInputs 0 :=
    List.append_nil _
  have hcmd := depfileWorld_command []
  have hdyn : (depfileWorld []).dynamicInputs 0 = [] := rfl
  have hdeps : (printedUpload text).depsNodes = [] := rfl
  rw [hinputs] at hkey
  simp only [Upload.run, uploadActionResult, uploadActionResultAt, hdeps]
  simp [printedUpload, printed, hcmd, hdyn, hkey, orThrow, uploadFullActionResult,
    storeActionResult, request, modifyCache, bind_apply, get_apply, modify_apply, pure_apply,
    printedStored, printedSession]

lemma printedSession_blob (text : GoString) :
    (printedSession text).cache.blobs [1] = some [1] := by
  by_cases htext : [1] = text
  · simp [printedSession, ← htext]
  · simp [printedSession, htext]

/-- The session of a later lookup, with an old file at the output. -/
def lookupSession (text : GoString) (a : Action) (x : Bool) (requests : Nat) : Session where
  cache := { (printedStored text a).cache with requests := requests }
  disk := ({} : Disk).put "o" [2] x

lemma exists_replay (text : GoString) (x : Bool) :
    ∃ (r : SavedRun sampleConfig (printingMachine text) 0) (hit : Replay r),
      r.result = printed text ∧ r.outputs = [("o" : GoString)] ∧
      (∃ mtime, r.after.disk.entries "o" = some (.file mtime [1] false)) ∧
      hit.before.disk.isExecutable "o" = x := by
  obtain ⟨a, ha⟩ := depfileWorld_action
  have ha := ha sampleFiles (by simp)
  have hfind : findCompletedEdge sampleConfig sampleFiles (depfileWorld []) 0 a
      (lookupSession text a x 3) = .ok (sampleConfig.hash.action (some a),
        fullActionResult (printed text)) (lookupSession text a x 4) := by
    have hdeps : isDepsFileResult sampleConfig (fullActionResult (printed text)) = false := rfl
    have hcode : (fullActionResult (printed text)).exitCode = 0 := rfl
    simp [findCompletedEdge, findActionResult, downloadActionResult, request, modifyCache,
      bind_apply, get_apply, modify_apply, pure_apply, hdeps, hcode, lookupSession, printedStored,
      printedSession]
  have hfetch : ∃ result t, fetchOutputsAndResult sampleConfig (depfileWorld []) 0
      (fullActionResult (printed text)) (lookupSession text a x 4) = .ok result t := by
    have hblob := printedSession_blob text
    simp only [printedSession] at hblob
    simp [fetchOutputsAndResult, fetchOutputs, fetchIfOutput, fetchFile, fetchStdout, depfileWorld,
      fullActionResult, printed, lookupSession, printedStored, printedSession, hblob,
      Disk.writeFile, Disk.put, orThrow, getBlob, request, modifyCache, bind_apply, get_apply,
      modify_apply, pure_apply]
  obtain ⟨result, t, hfetch⟩ := hfetch
  let r : SavedRun sampleConfig (printingMachine text) 0 :=
    { world := depfileWorld []
      before := ⟨{}, {}⟩
      after := printedSession text
      result := printed text
      run := printed_run text
      success := rfl
      upload := printedUpload text
      uploads := rfl
      session := printedSession text
      stored := printedStored text a
      store := printedUpload_run text ha
      kept := fun _ _ hd => hd }
  let hit : Replay r :=
    { world := depfileWorld []
      files := sampleFiles
      action := a
      before := lookupSession text a x 3
      found := lookupSession text a x 4
      after := t
      key := sampleConfig.hash.action (some a)
      entry := fullActionResult (printed text)
      result := result
      find := hfind
      fetch := hfetch
      hit := ⟨.inl rfl, depfileCommand, depfileWorld_command [], (printedUpload_key text ha).symm⟩
      keptAction := rfl
      kept := fun _ _ hd => hd
      sameOutputs := rfl }
  refine ⟨r, hit, rfl, rfl, ⟨1, ?_⟩, ?_⟩
  · simp [r, printedSession, Disk.put]
  · simp [hit, lookupSession, Disk.isExecutable_put]

/-- A silent run over a file without the bit is replayed. -/
theorem replay_faithful_silent :
    ∃ (r : SavedRun sampleConfig (printingMachine []) 0) (hit : Replay r), hit.Faithful := by
  obtain ⟨r, hit, hresult, houtputs, -, hbit⟩ := exists_replay [] false
  refine ⟨r, hit, (replay_faithful_iff r hit).mpr ⟨by rw [hresult]; rfl, ?_⟩⟩
  intro o ho _ _ _
  rw [houtputs, List.mem_singleton] at ho
  rw [ho, hbit]

/-- The text `W` is lost, and a file that is not executable is so after a hit over an executable
one. -/
theorem replay_unfaithful :
    (∃ (r : SavedRun sampleConfig (printingMachine [87]) 0) (hit : Replay r),
      r.result.output = [87] ∧ hit.result.output = [] ∧ ¬ hit.Faithful) ∧
    ∃ (r : SavedRun sampleConfig (printingMachine []) 0) (hit : Replay r),
      r.after.disk.isExecutable "o" = false ∧ hit.after.disk.isExecutable "o" = true ∧
        ¬ hit.Faithful := by
  constructor
  · obtain ⟨r, hit, hresult, -⟩ := exists_replay [87] false
    have hlost := hit.fetched.2.1
    have htext : r.result.output = [87] := by rw [hresult]; rfl
    refine ⟨r, hit, htext, hlost, ?_⟩
    rintro ⟨-, houtput, -⟩
    rw [hlost, htext] at houtput
    cases houtput
  · obtain ⟨r, hit, -, houtputs, ⟨mtime, hfile⟩, hbit⟩ := exists_replay [] true
    have ho : ("o" : GoString) ∈ r.outputs := houtputs ▸ List.mem_singleton_self _
    obtain ⟨mtime', hentry⟩ := hit.output_entry r ho hfile
    rw [hbit, Bool.true_or] at hentry
    refine ⟨r, hit, ?_, ?_, ?_⟩
    · rw [Disk.isExecutable, hfile]
    · rw [Disk.isExecutable, hentry]
    · rintro ⟨-, -, hfiles⟩
      obtain ⟨mtime'', hentry'⟩ := hfiles _ ho _ _ _ hfile
      rw [hentry] at hentry'
      simp at hentry'

end Sample

end Reninja
