import Reninja.Cache.Sound

/-!
# The keys of stored results

`uploadActionResult` computes the key of a result with `assembleAction`, whose error it drops. A
result is then stored under the digest of no action, a key that all edges share.
-/

namespace Reninja

open Program

section Store

variable (c : CacheConfig) (fs later : FileSystem) (w : World) (result : Result)
  (depsNodes : List Path) (s : Session)

/-- The calls of `assembleAction` in an upload: the files at the time, and the inputs. -/
def uploadCalls : List (FileSystem × List Path) :=
  let staticInputs := w.staticInputs result.edge
  match depsNodes with
  | [] => [(fs, staticInputs)]
  | _ :: _ =>
    [(fs, staticInputs), (later, staticInputs ++ (w.dynamicInputs result.edge ++ depsNodes))]

def Session.refused (n : Nat) : Bool := (s.cache.refuses (s.cache.requests + n)).isSome

/-- Those of the calls that the upload comes to, if its command can be assembled: a request that is
refused ends it. -/
def reachedCalls : List (FileSystem × List Path) :=
  if w.dynamicInputs result.edge = [] ∧ depsNodes = [] then
    uploadCalls fs later w result depsNodes
  else if s.refused 0 then
    []
  else if s.refused 1 then
    (uploadCalls fs later w result depsNodes).take 1
  else
    uploadCalls fs later w result depsNodes

/-- The results are stored under real keys: each request carries the digest of an action that was
assembled for the command and the inputs of the edge; and if one of the actions cannot be
assembled, nothing is stored and the upload fails. -/
structure StoresUnderActions : Prop where
  keys : ∃ new, (finalState (uploadActionResultAt c fs later w result depsNodes s)).cache.updates =
      s.cache.updates ++ new ∧
    ∀ key ∈ new, ∃ cmd, assembleCommand c w result.edge = .ok cmd ∧
      ∃ call ∈ uploadCalls fs later w result depsNodes, ∃ action,
        assembleAction c call.1 cmd (extractPaths call.2) = .ok action ∧
        key = c.hash.action (some action)
  fails : ∀ cmd, assembleCommand c w result.edge = .ok cmd →
    ∀ call ∈ uploadCalls fs later w result depsNodes, ∀ err,
      assembleAction c call.1 cmd (extractPaths call.2) = .error err →
      (finalState (uploadActionResultAt c fs later w result depsNodes s)).cache.actions =
        s.cache.actions ∧
      ∃ err' t, uploadActionResultAt c fs later w result depsNodes s = .error err' t

end Store

section Requests

variable {c : CacheConfig} {s : Session} {err : GoString}

lemma request_refused (h : s.cache.refuses s.cache.requests = some err) : request s =
    .error err { s with cache := { s.cache with requests := s.cache.requests + 1 } } := by
  simp only [request, bind_apply, get_apply, modifyCache, modify_apply, h]
  rfl

lemma request_accepted (h : s.cache.refuses s.cache.requests = none) : request s =
    .ok () { s with cache := { s.cache with requests := s.cache.requests + 1 } } := by
  simp only [request, bind_apply, get_apply, modifyCache, modify_apply, h]
  rfl

lemma uploadBlob_refused (h : s.cache.refuses s.cache.requests = some err) (content : GoString) :
    uploadBlob c.hash content s =
      .error err { s with cache := { s.cache with requests := s.cache.requests + 1 } } := by
  rw [uploadBlob, bind_apply, request_refused h]

lemma uploadBlob_accepted (h : s.cache.refuses s.cache.requests = none) (content : GoString) :
    uploadBlob c.hash content s = .ok (c.hash.compute content) { s with cache := { s.cache with
      requests := s.cache.requests + 1
      blobs := Function.update s.cache.blobs (c.hash.compute content) (some content) } } := by
  rw [uploadBlob, bind_apply, request_accepted h]
  rfl

lemma storeActionResult_refused (h : s.cache.refuses s.cache.requests = some err) (key : Digest)
    (ar : ActionResult) : storeActionResult key ar s = .error err { s with cache := { s.cache with
      requests := s.cache.requests + 1
      updates := s.cache.updates ++ [key] } } := by
  have hrequest := request_refused
    (s := { s with cache := { s.cache with updates := s.cache.updates ++ [key] } }) h
  rw [storeActionResult, bind_apply, modifyCache, modify_apply]
  dsimp only
  rw [bind_apply, hrequest]

lemma storeActionResult_accepted (h : s.cache.refuses s.cache.requests = none) (key : Digest)
    (ar : ActionResult) : storeActionResult key ar s = .ok () { s with cache := { s.cache with
      requests := s.cache.requests + 1
      updates := s.cache.updates ++ [key]
      actions := Function.update s.cache.actions key (some ar) } } := by
  have hrequest := request_accepted
    (s := { s with cache := { s.cache with updates := s.cache.updates ++ [key] } }) h
  rw [storeActionResult, bind_apply, modifyCache, modify_apply]
  dsimp only
  rw [bind_apply, hrequest]
  rfl

end Requests

/-! ### The upload -/

section Upload

variable {c : CacheConfig} {fs later : FileSystem} {w : World} {result : Result}
  {depsNodes : List Path} {s : Session} {cmd : Command}

def callKey (c : CacheConfig) (cmd : Command) (call : FileSystem × List Path) : Digest :=
  storeKey c call.1 cmd call.2

/-- What an upload does with the keys of some calls: it asks to store results under them, and if it
has not come to the end of all calls it has failed and nothing is stored. -/
structure Asks (c : CacheConfig) (cmd : Command) (calls reached : List (FileSystem × List Path))
    (s : Session) (r : EStateM.Result GoString Session Unit) : Prop where
  updates : (finalState r).cache.updates = s.cache.updates ++ reached.map (callKey c cmd)
  cut : reached ≠ calls → (finalState r).cache.actions = s.cache.actions ∧ ∃ err t, r = .error err t

lemma storeActionResult_asks (call : FileSystem × List Path) (ar : ActionResult) :
    Asks c cmd [call] [call] s (storeActionResult (callKey c cmd call) ar s) := by
  refine ⟨?_, fun h => absurd rfl h⟩
  cases h : s.cache.refuses s.cache.requests with
  | none => rw [storeActionResult_accepted h]; rfl
  | some err => rw [storeActionResult_refused h]; rfl

lemma uploadActionResultReference_asks (inputs nodes : List Path) :
    Asks c cmd [(fs, inputs)] (if s.refused 0 then [] else [(fs, inputs)]) s
      (uploadActionResultReference c fs cmd inputs nodes s) := by
  cases h : s.cache.refuses s.cache.requests with
  | none =>
    have hrefused : s.refused 0 = false := by simp [Session.refused, h]
    rw [uploadActionResultReference, bind_apply, uploadBlob_accepted h, hrefused]
    exact ⟨(storeActionResult_asks (fs, inputs) _).updates, fun h => absurd rfl h⟩
  | some err =>
    have hrefused : s.refused 0 = true := by simp [Session.refused, h]
    rw [uploadActionResultReference, bind_apply, uploadBlob_refused h, hrefused]
    exact ⟨(List.append_nil _).symm, fun _ => ⟨rfl, err, _, rfl⟩⟩

lemma uploadBoth_asks (inputs nodes all : List Path) :
    Asks c cmd [(fs, inputs), (later, all)] (if s.refused 0 then [] else
        if s.refused 1 then [(fs, inputs)] else [(fs, inputs), (later, all)]) s
      ((do
        uploadActionResultReference c fs cmd inputs nodes
        uploadFullActionResult c later cmd result all : Transfer Unit) s) := by
  cases h : s.cache.refuses s.cache.requests with
  | some err =>
    have hrefused : s.refused 0 = true := by simp [Session.refused, h]
    rw [bind_apply, uploadActionResultReference, bind_apply, uploadBlob_refused h, hrefused]
    exact ⟨(List.append_nil _).symm, fun _ => ⟨rfl, err, _, rfl⟩⟩
  | none =>
    have hrefused : s.refused 0 = false := by simp [Session.refused, h]
    rw [bind_apply, uploadActionResultReference, bind_apply, uploadBlob_accepted h, hrefused]
    dsimp only
    cases h₁ : s.cache.refuses (s.cache.requests + 1) with
    | some err =>
      have hrefused₁ : s.refused 1 = true := by simp [Session.refused, h₁]
      rw [storeActionResult_refused h₁, hrefused₁]
      exact ⟨rfl, fun _ => ⟨rfl, err, _, rfl⟩⟩
    | none =>
      have hrefused₁ : s.refused 1 = false := by simp [Session.refused, h₁]
      rw [storeActionResult_accepted h₁, hrefused₁]
      refine ⟨?_, fun h => absurd rfl h⟩
      refine (storeActionResult_asks (later, all) _).updates.trans ?_
      exact List.append_assoc _ _ _

lemma uploadActionResultAt_asks (hcmd : assembleCommand c w result.edge = .ok cmd) :
    Asks c cmd (uploadCalls fs later w result depsNodes)
      (reachedCalls fs later w result depsNodes s) s
      (uploadActionResultAt c fs later w result depsNodes s) := by
  have hcommand : orThrow (assembleCommand c w result.edge) s = .ok cmd s := by
    rw [hcmd]
    rfl
  rw [uploadActionResultAt, bind_apply, hcommand]
  dsimp only
  cases depsNodes with
  | nil =>
    rw [reachedCalls, uploadCalls]
    cases hdyn : w.dynamicInputs result.edge with
    | nil =>
      rw [if_pos ⟨rfl, rfl⟩]
      exact storeActionResult_asks (fs, w.staticInputs result.edge) _
    | cons d dyn =>
      rw [if_neg (by simp)]
      have hreference : Asks c cmd [(fs, w.staticInputs result.edge)] _ s _ :=
        uploadActionResultReference_asks (w.staticInputs result.edge) (d :: dyn)
      split_ifs at hreference ⊢ <;> exact hreference
  | cons n nodes =>
    rw [reachedCalls, uploadCalls, if_neg (by simp)]
    cases hdyn : w.dynamicInputs result.edge with
    | nil => exact uploadBoth_asks _ _ _
    | cons d dyn => exact uploadBoth_asks _ _ _

lemma callKey_eq_iff {call : FileSystem × List Path} {action : Action} :
    callKey c cmd call = c.hash.action (some action) ↔
      assembleAction c call.1 cmd (extractPaths call.2) = .ok action := by
  rw [callKey, storeKey]
  cases h : assembleAction c call.1 cmd (extractPaths call.2) with
  | ok a => simp [Except.toOption, c.hash.action_injective.eq_iff]
  | error err => simp [Except.toOption, c.hash.action_injective.eq_iff]

lemma reachedCalls_subset :
    reachedCalls fs later w result depsNodes s ⊆ uploadCalls fs later w result depsNodes := by
  rw [reachedCalls]
  split_ifs
  · exact List.Subset.refl _
  · exact List.nil_subset _
  · exact List.take_subset _ _
  · exact List.Subset.refl _

/-- **Results are stored under real keys** exactly if every call of `assembleAction` that the upload
comes to succeeds: the error of one that fails is lost. -/
theorem storesUnderActions_iff (c : CacheConfig) (fs later : FileSystem) (w : World)
    (result : Result) (depsNodes : List Path) (s : Session) :
    StoresUnderActions c fs later w result depsNodes s ↔
      ∀ cmd, assembleCommand c w result.edge = .ok cmd →
        ∀ call ∈ reachedCalls fs later w result depsNodes s, ∃ action,
          assembleAction c call.1 cmd (extractPaths call.2) = .ok action := by
  constructor
  · intro h cmd hcmd call hcall
    obtain ⟨new, hupdates, hnew⟩ := h.keys
    rw [(uploadActionResultAt_asks hcmd).updates, List.append_right_inj] at hupdates
    have hkey : callKey c cmd call ∈ new := hupdates ▸ List.mem_map_of_mem hcall
    obtain ⟨cmd', -, call', -, action, -, heq⟩ := hnew _ hkey
    exact ⟨action, callKey_eq_iff.mp heq⟩
  · intro h
    cases hcmd : assembleCommand c w result.edge with
    | error err =>
      have hrun : uploadActionResultAt c fs later w result depsNodes s = .error err s := by
        rw [uploadActionResultAt, bind_apply, hcmd]
        rfl
      refine ⟨⟨[], ?_, by simp⟩, fun cmd hok => ?_⟩
      · rw [hrun, List.append_nil]
        rfl
      · cases hcmd.symm.trans hok
    | ok cmd =>
      have hasks : Asks c cmd (uploadCalls fs later w result depsNodes) _ s _ :=
        uploadActionResultAt_asks hcmd
      refine ⟨⟨_, hasks.updates, fun key hkey => ?_⟩, fun cmd' hcmd' call hcall err herr => ?_⟩
      · obtain ⟨call, hcall, rfl⟩ := List.mem_map.mp hkey
        obtain ⟨action, haction⟩ := h cmd hcmd call hcall
        exact ⟨cmd, hcmd, call, reachedCalls_subset hcall, action, haction,
          callKey_eq_iff.mpr haction⟩
      · obtain rfl : cmd = cmd' := Except.ok.inj (hcmd.symm.trans hcmd')
        refine hasks.cut fun heq => ?_
        obtain ⟨action, haction⟩ := h cmd hcmd call (heq ▸ hcall)
        cases herr.symm.trans haction

end Upload

/-- The sample files, of which none can be looked at. -/
def deniedFiles : FileSystem where
  lstat := sampleFiles.lstat
  stat _ := .error "permission denied"

lemma deniedFiles_action : assembleAction sampleConfig deniedFiles depfileCommand
    (extractPaths ((depfileWorld []).staticInputs 0)) = .error "permission denied" := by
  rw [depfileWorld_static, extractPaths_singleton]
  rfl

/-- An edge whose input cannot be looked at: its result is stored under the key of no action, and
no error is returned. -/
theorem deniedFiles_stored_under_no_action :
    (∃ t, uploadActionResultAt sampleConfig deniedFiles deniedFiles (depfileWorld [])
        (sampleUpload [] []).result [] sampleSession = .ok () t ∧
      t.cache.updates = [sampleConfig.hash.action none]) ∧
    ¬ StoresUnderActions sampleConfig deniedFiles deniedFiles (depfileWorld [])
      (sampleUpload [] []).result [] sampleSession := by
  have hcmd : assembleCommand sampleConfig (depfileWorld []) (sampleUpload [] []).result.edge =
      .ok depfileCommand := depfileWorld_command []
  have hkey : callKey sampleConfig depfileCommand (deniedFiles, (depfileWorld []).staticInputs 0) =
      sampleConfig.hash.action none := by
    rw [callKey, storeKey, deniedFiles_action]
    rfl
  have hrun : ∃ t, uploadActionResultAt sampleConfig deniedFiles deniedFiles (depfileWorld [])
      (sampleUpload [] []).result [] sampleSession = .ok () t ∧
        t.cache.updates = [sampleConfig.hash.action none] := by
    rw [uploadActionResultAt, bind_apply, hcmd, ← hkey]
    exact ⟨_, storeActionResult_accepted rfl _ _, rfl⟩
  refine ⟨hrun, fun h => ?_⟩
  obtain ⟨t, ht, -⟩ := hrun
  obtain ⟨-, err, u, hu⟩ := h.fails depfileCommand hcmd _ List.mem_cons_self _ deniedFiles_action
  cases ht.symm.trans hu

end Reninja
