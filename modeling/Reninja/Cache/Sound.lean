import Reninja.Cache.Key
import Reninja.Cache.Runner

/-!
# Soundness of the two-stage lookup

Whatever was uploaded before, a lookup returns a full result and has the files of the upload that
stored it, as long as the key of that upload covers the files its command has listed and the
references lead on to other keys.
-/

namespace Reninja

open Program List

variable {a : Action} {key : Digest} {inputs₁ inputs₂ : List GoString} {cmd₁ cmd₂ : Command}
variable {actions : Digest → Option ActionResult} {ar : ActionResult}

section Inputs

variable {c : CacheConfig} {fs fs₁ fs₂ : FileSystem} {inputs inputs₁ inputs₂ files : List GoString}

lemma mem_compact {l : List GoString} {a : GoString} : a ∈ compact l ↔ a ∈ l := by
  fun_induction compact l with
  | case1 b l ih => simp [ih]
  | case2 b d l hne ih => simp [ih]
  | case3 l _ => rfl

lemma mem_extractPaths {nodes : List Path} {a : GoString} : a ∈ extractPaths nodes ↔ a ∈ nodes := by
  rw [extractPaths, mem_compact, mem_insertionSort]

lemma mem_existingInputs (h : existingInputs c fs inputs = .ok files) :
    (∀ f, f ∈ files ↔ f ∈ inputs ∧ fs.stat (c.project.absolute f) = .ok true) ∧
      ∀ f ∈ inputs, fs.stat (c.project.absolute f) = .ok true ∨
        fs.stat (c.project.absolute f) = .ok false := by
  induction inputs generalizing files with
  | nil =>
    obtain rfl : [] = files := by simpa [existingInputs] using h
    simp
  | cons i is ih =>
    rw [existingInputs] at h
    cases hi : fs.stat (c.project.absolute i) with
    | error err => simp [hi] at h
    | ok b =>
      cases b with
      | false =>
        obtain ⟨hmem, hall⟩ := ih (by simpa [hi] using h)
        exact ⟨fun f => by grind, by simpa [hi] using hall⟩
      | true =>
        cases his : existingInputs c fs is with
        | error err => simp [hi, his] at h
        | ok rest =>
          obtain rfl : i :: rest = files := by simpa [hi, his] using h
          obtain ⟨hmem, hall⟩ := ih his
          exact ⟨fun f => by grind, by simpa [hi] using hall⟩

end Inputs

/-- A path that means the same to the key and to the command: if there is something, it is a
regular file reached through directories whose place in the sorted tree is after the root; if
there is nothing, there is no dangling link. -/
structure OrdinaryPath (p : Project) (fs : FileSystem) (f : GoString) : Prop where
  file : fs.stat (p.absolute f) = .ok true → ∃ t, Names fs p f t
  place : fs.stat (p.absolute f) = .ok true → Ordinary fs p [f]
  absent : fs.stat (p.absolute f) = .ok false → ∀ r, cleanPath p f = .ok r → entryAt fs p r = none
  notSynthetic : ∀ r, cleanPath p f = .ok r → Filepath.base r ≠ ".reninja"

/-- The path has the same content, mode and existence at both moments. -/
def SameFile (p : Project) (fs₁ fs₂ : FileSystem) (f : GoString) : Prop :=
  ∀ r, cleanPath p f = .ok r → entryAt fs₁ p r = entryAt fs₂ p r

section Moments

variable {p : Project} {fs fs₁ fs₂ : FileSystem} {files files₁ files₂ : List GoString}
  {h : Hashing} {d : Digest} {nodes nodes₁ nodes₂ : List UploadableNode}
variable {c : CacheConfig} {f : GoString}

lemma mem_fileSet_of_digest (hcwd : Filepath.isAbs p.cwd = true)
    (hf₁ : ∀ f ∈ files₁, ∃ t, Names fs₁ p f t) (hf₂ : ∀ f ∈ files₂, ∃ t, Names fs₂ p f t)
    (hproj₁ : OrdinaryProject fs₁ p) (hproj₂ : OrdinaryProject fs₂ p)
    (hord₁ : Ordinary fs₁ p files₁) (hord₂ : Ordinary fs₂ p files₂)
    (hhash₁ : hashDirectoryTree h fs₁ p files₁ = .ok (d, nodes₁))
    (hhash₂ : hashDirectoryTree h fs₂ p files₂ = .ok (d, nodes₂)) {t : ProjectFile}
    (ht : t ∈ fileSet fs₁ p files₁) (hbase : Filepath.base t.path ≠ ".reninja") :
    t ∈ fileSet fs₂ p files₂ := by
  obtain ⟨d₁, _, hd₁, hall, -, -⟩ := exists_digest (h := h) hcwd hf₁ hproj₁ hord₁
  obtain ⟨d₂, _, hd₂, -, honly, -⟩ := exists_digest (h := h) hcwd hf₂ hproj₂ hord₂
  rw [hhash₁] at hd₁
  rw [hhash₂] at hd₂
  simp only [Except.ok.injEq, Prod.mk.injEq] at hd₁ hd₂
  obtain ⟨rfl, -⟩ := hd₁
  obtain ⟨rfl, -⟩ := hd₂
  obtain ⟨ns, hfile, hpath⟩ := hall t ht
  obtain ⟨path, content, x⟩ := t
  obtain rfl : path = Filepath.joinComponents ns := hpath
  rcases honly ns content x hfile with hmem | ⟨as, rfl, -, -, -⟩
  · exact hmem
  · exact absurd (Filepath.base_joinComponents as (by decide +kernel) (by decide +kernel)) hbase

section EqualActions

variable (hcwd : Filepath.isAbs c.project.cwd = true) (hproj₁ : OrdinaryProject fs₁ c.project)
  (hproj₂ : OrdinaryProject fs₂ c.project) (hord₁ : ∀ f ∈ inputs₁, OrdinaryPath c.project fs₁ f)
  (hord₂ : ∀ f ∈ inputs₂, OrdinaryPath c.project fs₂ f)
  (ha₁ : assembleAction c fs₁ cmd₁ inputs₁ = .ok a)
  (ha₂ : assembleAction c fs₂ cmd₂ inputs₂ = .ok a) (hf : f ∈ inputs₁)
include hcwd hproj₁ hproj₂ hord₁ hord₂ ha₁ ha₂ hf

/-- Two actions that are equal were built from the same files: one that exists for the first is an
input of the second. -/
lemma exists_input_of_action (hstat : fs₁.stat (c.project.absolute f) = .ok true) :
    ∃ g ∈ inputs₂, ∃ t, Names fs₁ c.project f t ∧ Names fs₂ c.project g t := by
  obtain ⟨files₁, root₁, nodes₁, hex₁, hhash₁, rfl⟩ := assembleAction_ok.mp ha₁
  obtain ⟨files₂, root₂, nodes₂, hex₂, hhash₂, heq⟩ := assembleAction_ok.mp ha₂
  obtain rfl : root₁ = root₂ := congrArg Action.inputRootDigest heq
  obtain ⟨hmem₁, -⟩ := mem_existingInputs hex₁
  obtain ⟨hmem₂, -⟩ := mem_existingInputs hex₂
  have hnames₁ : ∀ g ∈ files₁, ∃ t, Names fs₁ c.project g t := fun g hg =>
    (hord₁ g ((hmem₁ g).mp hg).1).file ((hmem₁ g).mp hg).2
  have hnames₂ : ∀ g ∈ files₂, ∃ t, Names fs₂ c.project g t := fun g hg =>
    (hord₂ g ((hmem₂ g).mp hg).1).file ((hmem₂ g).mp hg).2
  have hplace₁ : Ordinary fs₁ c.project files₁ := fun g hg =>
    (hord₁ g ((hmem₁ g).mp hg).1).place ((hmem₁ g).mp hg).2 g (by simp)
  have hplace₂ : Ordinary fs₂ c.project files₂ := fun g hg =>
    (hord₂ g ((hmem₂ g).mp hg).1).place ((hmem₂ g).mp hg).2 g (by simp)
  obtain ⟨t, ht⟩ := (hord₁ f hf).file hstat
  obtain ⟨g, hg, ht₂⟩ := mem_fileSet_of_digest hcwd hnames₁ hnames₂ hproj₁ hproj₂ hplace₁ hplace₂
    hhash₁ hhash₂ ⟨f, (hmem₁ f).mpr ⟨hf, hstat⟩, ht⟩ ((hord₁ f hf).notSynthetic _ ht.1)
  exact ⟨g, ((hmem₂ g).mp hg).1, t, ht, ht₂⟩

/-- A path that both actions have as an input, or that exists for the first, is the same for
both. -/
lemma sameFile_of_action (hf₂ : f ∈ inputs₂ ∨ fs₁.stat (c.project.absolute f) = .ok true) :
    SameFile c.project fs₁ fs₂ f := by
  obtain ⟨_, _, _, hex₁, -, -⟩ := assembleAction_ok.mp ha₁
  obtain ⟨_, _, _, hex₂, -, -⟩ := assembleAction_ok.mp ha₂
  intro r hr
  rcases (mem_existingInputs hex₁).2 f hf with hstat | hstat
  · obtain ⟨g, -, t, ht₁, ht₂⟩ :=
      exists_input_of_action hcwd hproj₁ hproj₂ hord₁ hord₂ ha₁ ha₂ hf hstat
    obtain rfl : t.path = r := by simpa [ht₁.1] using hr
    rw [ht₁.2.2, ht₂.2.2]
  · have hnone := (hord₁ f hf).absent hstat r hr
    have hin₂ : f ∈ inputs₂ := hf₂.resolve_right fun h' => by simp [hstat] at h'
    rcases (mem_existingInputs hex₂).2 f hin₂ with hstat₂ | hstat₂
    · obtain ⟨g, -, t, ht₂, ht₁⟩ :=
        exists_input_of_action hcwd hproj₂ hproj₁ hord₂ hord₁ ha₂ ha₁ hin₂ hstat₂
      obtain rfl : t.path = r := by simpa [ht₂.1] using hr
      simp [ht₁.2.2] at hnone
    · rw [hnone, (hord₂ f hin₂).absent hstat₂ r hr]

end EqualActions

end Moments

/-! ### Uploads -/

/-- One call of `uploadActionResult`, with the files its command listed in the depfile. -/
structure Upload where
  world : World
  files : FileSystem
  result : Result
  listed : List Path

namespace Upload

variable (c : CacheConfig) (u : Upload)

/-- What `FinishCommand` passes on: the listed files of an edge with a `deps` binding. -/
def depsNodes : List Path :=
  if u.world.getBinding u.result.edge .deps = [] then [] else u.listed

def staticInputs : List Path := u.world.staticInputs u.result.edge

/-- The inputs that are not in the manifest. -/
def named : List Path := u.world.dynamicInputs u.result.edge ++ u.depsNodes

def keyInputs : List Path := u.staticInputs ++ u.named

def run : Transfer Unit := uploadActionResult c u.files u.world u.result u.depsNodes

def StoresFull (key : Digest) (ar : ActionResult) : Prop :=
  ∃ cmd, assembleCommand c u.world u.result.edge = .ok cmd ∧
    key = storeKey c u.files cmd u.keyInputs ∧
    ar = { exitCode := u.result.status, outputFiles := u.result.outputs }

def StoresReference (key : Digest) (ar : ActionResult) : Prop :=
  ∃ cmd nodes, assembleCommand c u.world u.result.edge = .ok cmd ∧
    key = storeKey c u.files cmd u.staticInputs ∧ u.named ≠ [] ∧
    (u.named ⊆ nodes ∧ nodes ⊆ u.keyInputs) ∧
    ar = { stdoutDigest := some (c.hash.compute (encodeDyndepPaths nodes)) }

end Upload

/-- Every entry of the later session was there before or satisfies `P`; every blob was there
before or has its own digest. -/
structure Stored (h : Hashing) (P : Digest → ActionResult → Prop) (s s' : Session) : Prop where
  actions : ∀ key ar, s'.cache.actions key = some ar → s.cache.actions key = some ar ∨ P key ar
  blobs : ∀ d b, s'.cache.blobs d = some b → s.cache.blobs d = some b ∨ d = h.compute b

section Stored

variable {h : Hashing} {P Q : Digest → ActionResult → Prop} {s t : Session}

instance : Std.Refl (Stored h P) := ⟨fun _ => ⟨fun _ _ => .inl, fun _ _ => .inl⟩⟩

instance : IsTrans Session (Stored h P) where
  trans _ _ _ h₁ h₂ :=
    ⟨fun key ar hk => (h₂.actions key ar hk).elim (h₁.actions key ar) .inr,
      fun d b hd => (h₂.blobs d b hd).elim (h₁.blobs d b) .inr⟩

lemma Stored.mono (hst : Stored h P s t) (hPQ : ∀ key ar, P key ar → Q key ar) : Stored h Q s t :=
  ⟨fun key ar hk => (hst.actions key ar hk).imp_right (hPQ key ar), hst.blobs⟩

lemma modifyCache_stored {f : RemoteCache → RemoteCache}
    (hf : Stored h P s { s with cache := f s.cache }) : Moves (Stored h P) s (modifyCache f) := hf

lemma request_stored : Moves (Stored h P) s request := by
  refine .get_bind (.bind (modifyCache_stored ⟨fun _ _ => .inl, fun _ _ => .inl⟩) ?_)
  intro _ t _
  split
  · exact .throw _
  · exact .pure _

lemma orThrow_stored {α : Type} (r : Except GoString α) : Moves (Stored h P) s (orThrow r) := by
  cases r with
  | ok a => exact .pure a
  | error err => exact .throw err

lemma orThrow_ok {α : Type} {r : Except GoString α} {a : α} (hok : orThrow r s = .ok a t) :
    r = .ok a ∧ t = s := by
  cases r with
  | error err => exact absurd hok throw_ok
  | ok b =>
    obtain ⟨rfl, rfl⟩ := pure_ok.mp hok
    exact ⟨rfl, rfl⟩

lemma uploadBlob_stored (content : GoString) : Moves (Stored h P) s (uploadBlob h content) := by
  refine .bind request_stored fun _ t _ => .bind
    (modifyCache_stored ⟨fun _ _ => .inl, ?_⟩) fun _ _ _ => .pure _
  intro d b hd
  simp only [Function.update_apply] at hd
  split at hd
  · rename_i hdig
    exact .inr (by rw [hdig, Option.some.inj hd])
  · exact .inl hd

lemma uploadBlob_ok {content : GoString} {d : Digest} (hok : uploadBlob h content s = .ok d t) :
    d = h.compute content := by
  simp only [uploadBlob, bind_ok, pure_ok] at hok
  obtain ⟨_, _, _, _, _, _, rfl, _⟩ := hok
  rfl

lemma storeActionResult_stored (hP : P key ar) :
    Moves (Stored h P) s (storeActionResult key ar) := by
  refine .bind (modifyCache_stored ⟨fun _ _ => .inl, fun _ _ => .inl⟩) fun _ _ _ => ?_
  refine .bind request_stored fun _ t _ => modifyCache_stored ⟨?_, fun _ _ => .inl⟩
  intro k a hk
  simp only [Function.update_apply] at hk
  split at hk
  · rename_i hkey
    rw [hkey, ← Option.some.inj hk]
    exact .inr hP
  · exact .inl hk

end Stored

section History

variable {c : CacheConfig} {u : Upload} {s t : Session}
variable {ar : ActionResult} {key : Digest} {nodes : List Path} {fs : FileSystem}
variable {history : List Upload} {paths : List GoString} {inputs : List Path} {action : Action}

/-- What an upload stores, whether it succeeds or is refused half way. -/
lemma Upload.run_stored :
    Moves (Stored c.hash fun key ar => u.StoresFull c key ar ∨ u.StoresReference c key ar) s
      (u.run c) := by
  refine .bind (orThrow_stored _) fun cmd t hok => ?_
  obtain ⟨hcmd, -⟩ := orThrow_ok hok
  -- the two kinds of entries
  have hreference : ∀ (nodes : List Path) (t : Session), u.named ≠ [] →
      u.named ⊆ nodes ∧ nodes ⊆ u.keyInputs →
      Moves (Stored c.hash fun key ar => u.StoresFull c key ar ∨ u.StoresReference c key ar) t
        (uploadActionResultReference c u.files cmd u.staticInputs nodes) := by
    intro nodes t hne hsub
    refine .bind (uploadBlob_stored _) fun d t' hd => storeActionResult_stored ?_
    exact .inr ⟨cmd, nodes, hcmd, rfl, hne, hsub, by rw [uploadBlob_ok hd]⟩
  have hfull : ∀ (inputs : List Path) (t : Session), inputs = u.keyInputs →
      Moves (Stored c.hash fun key ar => u.StoresFull c key ar ∨ u.StoresReference c key ar) t
        (uploadFullActionResult c u.files cmd u.result inputs) := by
    rintro inputs t rfl
    exact storeActionResult_stored (.inl ⟨cmd, hcmd, rfl, rfl⟩)
  have hnamed : u.named = u.world.dynamicInputs u.result.edge ++ u.depsNodes := rfl
  have hstatic : u.staticInputs = u.world.staticInputs u.result.edge := rfl
  have hright : u.named ⊆ u.keyInputs := subset_append_right ..
  simp only [← hstatic]
  cases hdyn : u.world.dynamicInputs u.result.edge with
  | nil =>
    cases hdeps : u.depsNodes with
    | nil => exact hfull _ _ (by simp [Upload.keyInputs, hnamed, hdyn, hdeps])
    | cons n nodes =>
      have hall : u.staticInputs ++ n :: nodes = u.keyInputs := by
        simp [Upload.keyInputs, hnamed, hdyn, hdeps]
      rw [hall]
      exact .bind (hreference _ _ (by simp [hnamed, hdeps]) ⟨hright, List.Subset.refl _⟩)
        fun _ t' _ => hfull _ _ rfl
  | cons d dyn =>
    cases hdeps : u.depsNodes with
    | nil =>
      have hall : d :: dyn = u.named := by simp [hnamed, hdyn, hdeps]
      refine hreference (d :: dyn) _ (by simp [← hall]) ?_
      rw [hall]
      exact ⟨List.Subset.refl _, hright⟩
    | cons n nodes =>
      have hall : d :: dyn ++ n :: nodes = u.named := by simp [hnamed, hdyn, hdeps]
      rw [hall]
      exact .bind (hreference _ _ (by simp [← hall]) ⟨List.Subset.refl _, hright⟩)
        fun _ t' _ => hfull _ _ rfl

def runUploads (c : CacheConfig) : List Upload → Session → Session
  | [], s => s
  | u :: us, s => runUploads c us (finalState (u.run c s))

lemma runUploads_stored (history : List Upload) :
    Stored c.hash
      (fun key ar => ∃ u ∈ history, u.StoresFull c key ar ∨ u.StoresReference c key ar) s
      (runUploads c history s) := by
  induction history generalizing s with
  | nil => exact Std.Refl.refl s
  | cons u us ih =>
    have hu : Stored c.hash (fun key ar => ∃ v ∈ u :: us,
        v.StoresFull c key ar ∨ v.StoresReference c key ar) s (finalState (u.run c s)) :=
      Stored.mono u.run_stored fun key ar hk => ⟨u, by simp, hk⟩
    exact IsTrans.trans _ _ _ hu
      (ih.mono fun key ar ⟨v, hv, hk⟩ => ⟨v, by simp [hv], hk⟩)

/-! ### Lookups -/

lemma request_ok {v : Unit} (hok : request s = .ok v t) :
    t.cache.actions = s.cache.actions ∧ t.cache.blobs = s.cache.blobs := by
  simp only [request, modifyCache, bind_ok, get_ok, modify_ok] at hok
  obtain ⟨_, _, ⟨rfl, rfl⟩, _, _, rfl, hok⟩ := hok
  cases href : s.cache.refuses s.cache.requests with
  | some err =>
    rw [href] at hok
    exact absurd hok throw_ok
  | none =>
    rw [href] at hok
    obtain ⟨-, rfl⟩ := pure_ok.mp hok
    exact ⟨rfl, rfl⟩

lemma findActionResult_ok {msg : GoString} (hok : findActionResult key msg s = .ok ar t) :
    s.cache.actions key = some ar ∧ t.cache.actions = s.cache.actions ∧
      t.cache.blobs = s.cache.blobs := by
  simp only [findActionResult, downloadActionResult, bind_ok, get_ok] at hok
  obtain ⟨ar', t', ⟨_, t₁, hreq, _, _, ⟨rfl, rfl⟩, hget⟩, hok⟩ := hok
  obtain ⟨hact, hblobs⟩ := request_ok hreq
  cases hk : t₁.cache.actions key with
  | none =>
    rw [hk] at hget
    exact absurd hget throw_ok
  | some ar₁ =>
    rw [hk] at hget
    obtain ⟨rfl, rfl⟩ := pure_ok.mp hget
    split at hok
    · exact absurd hok throw_ok
    · obtain ⟨rfl, rfl⟩ := pure_ok.mp hok
      exact ⟨hact ▸ hk, hact, hblobs⟩

def IsPathName (f : GoString) : Prop := f ≠ [] ∧ nul ∉ f

lemma encode_ne_nil (hne : nodes ≠ []) (hpaths : ∀ f ∈ nodes, IsPathName f) :
    encodeDyndepPaths nodes ≠ [] := by
  obtain ⟨f, fs, rfl⟩ := exists_cons_of_ne_nil hne
  have hf := (hpaths f (by simp)).1
  cases fs with
  | nil => simpa [encodeDyndepPaths] using hf
  | cons g gs => simp [encodeDyndepPaths, intercalate, hf]

lemma decode_encode (hne : nodes ≠ []) (hpaths : ∀ f ∈ nodes, IsPathName f) :
    decodeDyndepPaths (encodeDyndepPaths nodes) = nodes := by
  rw [decodeDyndepPaths, if_neg (encode_ne_nil hne hpaths), encodeDyndepPaths]
  exact splitOn_intercalate nul (fun f hf => (hpaths f hf).2) hne

lemma getBlob_ok {d : Option Digest} {b : GoString} (hok : getBlob d s = .ok b t) :
    (∃ k, d = some k ∧ s.cache.blobs k = some b) ∧ t.cache.actions = s.cache.actions := by
  simp only [getBlob, bind_ok, get_ok] at hok
  obtain ⟨_, t₁, hreq, _, _, ⟨rfl, rfl⟩, hget⟩ := hok
  obtain ⟨hact, hblobs⟩ := request_ok hreq
  cases hk : d.bind t₁.cache.blobs with
  | none =>
    rw [hk] at hget
    exact absurd hget throw_ok
  | some b₁ =>
    rw [hk] at hget
    obtain ⟨rfl, rfl⟩ := pure_ok.mp hget
    obtain ⟨k, hd, hkb⟩ := Option.bind_eq_some_iff.mp hk
    exact ⟨⟨k, hd, hblobs ▸ hkb⟩, hact⟩

lemma storeKey_eq {cmd : Command} (hkey : c.hash.action (some a) = storeKey c fs cmd inputs) :
    assembleAction c fs cmd (extractPaths inputs) = .ok a := by
  have := c.hash.action_injective hkey
  cases hasm : assembleAction c fs cmd (extractPaths inputs) with
  | error err => simp [hasm, Except.toOption] at this
  | ok a' => simp_all [Except.toOption]

lemma command_eq_of_action {fs₁ fs₂ : FileSystem} (ha₁ : assembleAction c fs₁ cmd₁ inputs₁ = .ok a)
    (ha₂ : assembleAction c fs₂ cmd₂ inputs₂ = .ok a) : cmd₁ = cmd₂ := by
  obtain ⟨_, _, _, -, -, rfl⟩ := assembleAction_ok.mp ha₁
  obtain ⟨_, _, _, -, -, heq⟩ := assembleAction_ok.mp ha₂
  exact c.hash.command_injective (congrArg Action.commandDigest heq)

lemma encode_of_named (hne : u.named ≠ []) (hsub : u.named ⊆ nodes ∧ nodes ⊆ u.keyInputs)
    (hnames : ∀ f ∈ u.keyInputs, IsPathName f) :
    encodeDyndepPaths nodes ≠ [] ∧ decodeDyndepPaths (encodeDyndepPaths nodes) = nodes := by
  have hne' : nodes ≠ [] := fun h => hne (subset_nil.mp (h ▸ hsub.1))
  have hnames' : ∀ f ∈ nodes, IsPathName f := fun f hf => hnames f (hsub.2 hf)
  exact ⟨encode_ne_nil hne' hnames', decode_encode hne' hnames'⟩

lemma extractDepPaths_mem (hnames : ∀ u ∈ history, ∀ f ∈ u.keyInputs, IsPathName f)
    (hblobs : ∀ d b, s.cache.blobs d = some b → d = c.hash.compute b)
    (hstored : ∃ u ∈ history, u.StoresFull c key ar ∨ u.StoresReference c key ar)
    (hdeps : isDepsFileResult c ar = true) (hok : extractDepPathsFromPointer c ar s = .ok paths t) :
    ∃ u ∈ history, u.StoresReference c key ar ∧ u.named ⊆ paths ∧ paths ⊆ u.keyInputs := by
  simp only [isDepsFileResult, Bool.and_eq_true, decide_eq_true_eq] at hdeps
  rw [extractDepPathsFromPointer, if_neg hdeps.2, bind_ok] at hok
  obtain ⟨b, t₁, hget, hok⟩ := hok
  obtain ⟨rfl, rfl⟩ := pure_ok.mp hok
  obtain ⟨⟨k, hk, hb⟩, -⟩ := getBlob_ok hget
  obtain ⟨u, hu, ⟨cmd, -, -, rfl⟩ | ⟨cmd, nodes, hcmd, hkey, hne, hsub, rfl⟩⟩ := hstored
  · simp at hk
  · obtain rfl : c.hash.compute (encodeDyndepPaths nodes) = k := by simpa using hk
    obtain rfl := c.hash.compute_injective (hblobs _ _ hb)
    refine ⟨u, hu, ⟨cmd, nodes, hcmd, hkey, hne, hsub, rfl⟩, ?_⟩
    rwa [(encode_of_named hne hsub (hnames u hu)).2]

lemma extractDepPaths_actions (hok : extractDepPathsFromPointer c ar s = .ok paths t) :
    t.cache.actions = s.cache.actions := by
  rw [extractDepPathsFromPointer] at hok
  split at hok
  · obtain ⟨-, rfl⟩ := pure_ok.mp hok
    rfl
  · obtain ⟨b, t', hget, hok⟩ := bind_ok.mp hok
    obtain ⟨-, rfl⟩ := pure_ok.mp hok
    exact (getBlob_ok hget).2

/-- A lookup ends at an entry of the cache: that of the action if it is not a reference, or else
the one under the key with the paths that it names. -/
lemma findCompletedEdge_ok {w : World} {e : EdgeId}
    (hok : findCompletedEdge c fs w e action s = .ok (key, ar) t) : s.cache.actions key = some ar ∧
      (key = c.hash.action (some action) ∧ isDepsFileResult c ar = false ∨ ∃ ar₀ t₀ paths t₁ cmd a,
        s.cache.actions (c.hash.action (some action)) = some ar₀ ∧
        isDepsFileResult c ar₀ = true ∧ t₀.cache.blobs = s.cache.blobs ∧
        extractDepPathsFromPointer c ar₀ t₀ = .ok paths t₁ ∧ assembleCommand c w e = .ok cmd ∧
        assembleAction c fs cmd (extractPaths (w.staticInputs e) ++ paths) = .ok a ∧
        key = c.hash.action (some a)) := by
  simp only [findCompletedEdge, bind_ok] at hok
  obtain ⟨ar₀, t₀, hfind, hok⟩ := hok
  obtain ⟨hentry, hact, hblobs⟩ := findActionResult_ok hfind
  cases hdeps : isDepsFileResult c ar₀ with
  | false =>
    rw [if_neg (by simp [hdeps]), pure_ok, Prod.mk.injEq] at hok
    obtain ⟨⟨rfl, rfl⟩, -⟩ := hok
    exact ⟨hentry, .inl ⟨rfl, hdeps⟩⟩
  | true =>
    rw [if_pos hdeps] at hok
    simp only [bind_ok, pure_ok, Prod.mk.injEq] at hok
    obtain ⟨paths, t₁, hpaths, cmd, t₂, hcmd, a, t₃, hasm, ar', t₄, hfull, ⟨rfl, rfl⟩, -⟩ := hok
    obtain ⟨hcmd', rfl⟩ := orThrow_ok hcmd
    obtain ⟨ha, rfl⟩ := orThrow_ok hasm
    refine ⟨?_, .inr ⟨ar₀, t₀, paths, _, cmd, a, hentry, hdeps, hblobs, hpaths, hcmd', ha, rfl⟩⟩
    rw [← (findActionResult_ok hfull).1, extractDepPaths_actions hpaths, hact]

section Lookup

variable (c) (history : List Upload) (s) (w : World) (e : EdgeId) (fs : FileSystem)

/-- The uploads of the command of the edge. -/
def sameCommand : Set Upload :=
  {u | u ∈ history ∧ assembleCommand c u.world u.result.edge = assembleCommand c w e}

/-- The reference that `u` stores leads on to another key: it has been overwritten, or it names a
file that is there and is a manifest input of no upload of the command. -/
def LeadsOn (u : Upload) : Prop :=
  (∀ cmd ar, assembleCommand c w e = .ok cmd →
    (runUploads c history s).cache.actions (storeKey c u.files cmd u.staticInputs) = some ar →
    isDepsFileResult c ar = false) ∨
  ∃ f ∈ u.named, fs.stat (c.project.absolute f) = .ok true ∧
    ∀ v ∈ sameCommand c history w e, ∀ g ∈ v.staticInputs,
      cleanPath c.project g ≠ cleanPath c.project f

end Lookup

/-- The inputs behind the key at which a lookup ends: all manifest inputs, and beyond the
inputs of the edge only what uploads of the same command name. The entry there is not a reference,
or it was found through one, and then all that this one names is in the key. -/
lemma findCompletedEdge_key {w : World} {e : EdgeId}
    (hnames : ∀ u ∈ history, ∀ f ∈ u.keyInputs, IsPathName f)
    (hblobs : ∀ d b, s.cache.blobs d = some b → d = c.hash.compute b)
    (hstored : ∀ key ar, s.cache.actions key = some ar →
      ∃ u ∈ history, u.StoresFull c key ar ∨ u.StoresReference c key ar)
    (haction : assembleAndHashAction c fs w e = .ok action)
    (hok : findCompletedEdge c fs w e action s = .ok (key, ar) t) :
    s.cache.actions key = some ar ∧ ∃ cmd inputs a, assembleCommand c w e = .ok cmd ∧
      assembleAction c fs cmd inputs = .ok a ∧ key = c.hash.action (some a) ∧
      w.staticInputs e ⊆ inputs ∧
      (∀ f ∈ inputs, f ∈ (w.edges e).nonOrderOnlyInputs ∨
        ∃ u ∈ sameCommand c history w e, f ∈ u.keyInputs) ∧
      (isDepsFileResult c ar = false ∨ ∃ u ∈ sameCommand c history w e, ∃ key₀ ar₀,
        u.StoresReference c key₀ ar₀ ∧ s.cache.actions key₀ = some ar₀ ∧
        isDepsFileResult c ar₀ = true ∧ u.named ⊆ inputs) := by
  have hstatic : ∀ f ∈ w.staticInputs e, f ∈ (w.edges e).nonOrderOnlyInputs := fun f hf =>
    (mem_filter.mp hf).1
  obtain ⟨cmd, hcmd, hassemble⟩ := assembleAndHashAction_ok.mp haction
  obtain ⟨hentry, ⟨rfl, hfull⟩ | ⟨ar₀, t₀, paths, t₁, cmd', a, hentry₀, hdeps, hblobs₀, hpaths,
    hcmd', ha, rfl⟩⟩ := findCompletedEdge_ok hok
  · refine ⟨hentry, cmd, _, action, hcmd, hassemble, rfl, ?_, ?_, .inl hfull⟩
    · exact fun f hf => mem_extractPaths.mpr (hstatic f hf)
    · exact fun f hf => .inl (mem_extractPaths.mp hf)
  · obtain ⟨u, hu, href, hnamed, hmem⟩ := extractDepPaths_mem hnames (hblobs₀ ▸ hblobs)
      (hstored _ _ hentry₀) hdeps hpaths
    obtain ⟨cmdu, _, hcmdu, hkeyu, -⟩ := id href
    -- the reference was found under the key of the same command
    obtain rfl := command_eq_of_action hassemble (storeKey_eq hkeyu)
    have hu : u ∈ sameCommand c history w e := ⟨hu, hcmdu.trans hcmd.symm⟩
    refine ⟨hentry, cmd', _, a, hcmd', ha, rfl, ?_, fun f hf => ?_,
      .inr ⟨u, hu, _, ar₀, href, hentry₀, hdeps, subset_append_of_subset_right _ hnamed⟩⟩
    · exact fun f hf => mem_append_left _ (mem_extractPaths.mpr hf)
    · rcases mem_append.mp hf with hf | hf
      · exact .inl (hstatic f (mem_extractPaths.mp hf))
      · exact .inr ⟨u, hu, hmem hf⟩

/-- The conditions on an upload: its paths are ordinary, and every file that the command listed
exists and is in the key. -/
structure Upload.Covers (c : CacheConfig) (u : Upload) : Prop where
  project : OrdinaryProject u.files c.project
  paths : ∀ f ∈ u.keyInputs, OrdinaryPath c.project u.files f ∧ IsPathName f
  listed : ∀ f ∈ u.listed, f ∈ u.keyInputs ∧ u.files.stat (c.project.absolute f) = .ok true

lemma Upload.Covers.ordinary (hcov : u.Covers c) (hsub : inputs ⊆ u.keyInputs) :
    ∀ f ∈ extractPaths inputs, OrdinaryPath c.project u.files f :=
  fun f hf => (hcov.paths f (hsub (mem_extractPaths.mp hf))).1

/-- In every history of uploads that cover what their commands listed and whose references lead
on, a lookup returns a result of an upload whose manifest inputs and listed files are the same at
the time of the lookup. -/
theorem downloadCompletedEdge_sound (hcwd : Filepath.isAbs c.project.cwd = true)
    (hempty : ∀ key, s.cache.actions key = none)
    (hblobs : ∀ d b, s.cache.blobs d = some b → d = c.hash.compute b) (history : List Upload)
    (hcovers : ∀ u ∈ history, u.Covers c) (w : World) (e : EdgeId) (fs : FileSystem)
    (hproj : OrdinaryProject fs c.project)
    (hpaths : ∀ f, (f ∈ (w.edges e).nonOrderOnlyInputs ∨
      ∃ u ∈ sameCommand c history w e, f ∈ u.keyInputs) → OrdinaryPath c.project fs f)
    (hleads : ∀ u ∈ sameCommand c history w e, u.named ≠ [] → LeadsOn c s history w e fs u)
    {action : Action} (haction : assembleAndHashAction c fs w e = .ok action)
    {result : Result} {t : Session}
    (hok : downloadCompletedEdge c fs w e action (runUploads c history s) = .ok result t) :
    ∃ key ar t', findCompletedEdge c fs w e action (runUploads c history s) = .ok (key, ar) t' ∧
      (∃ u ∈ history, u.StoresFull c key ar) ∧
      ∀ u ∈ history, u.StoresFull c key ar →
        (∀ f ∈ u.staticInputs, f ∈ w.staticInputs e → SameFile c.project u.files fs f) ∧
        ∀ f ∈ u.listed, SameFile c.project u.files fs f := by
  obtain ⟨⟨key, ar⟩, t', hfind, -⟩ := bind_ok.mp hok
  have hhist := runUploads_stored (c := c) (s := s) history
  have hstored : ∀ key ar, (runUploads c history s).cache.actions key = some ar →
      ∃ u ∈ history, u.StoresFull c key ar ∨ u.StoresReference c key ar := fun key ar hk =>
    (hhist.actions key ar hk).resolve_left (by simp [hempty])
  have hblobs' : ∀ d b, (runUploads c history s).cache.blobs d = some b →
      d = c.hash.compute b := fun d b hd => (hhist.blobs d b hd).elim (hblobs d b) id
  obtain ⟨hentry, cmd, inputs, a, hcmd, ha, rfl, hstatic, hinputs, hend⟩ := findCompletedEdge_key
    (fun u hu f hf => ((hcovers u hu).paths f hf).2) hblobs' hstored haction hfind
  have hord : ∀ f ∈ inputs, OrdinaryPath c.project fs f := fun f hf => hpaths f (hinputs f hf)
  refine ⟨_, ar, t', hfind, ?_, ?_⟩
  · obtain ⟨v, hv, hfullres | ⟨cmdv, nodes, hcmdv, hkeyv, hne, hsub, rfl⟩⟩ := hstored _ _ hentry
    · exact ⟨v, hv, hfullres⟩
    have hcov := hcovers v hv
    have hav := storeKey_eq hkeyv
    rcases hend with hdeps | ⟨u, hu, key₀, ar₀, ⟨cmdu, _, hcmdu, rfl, hneu, -⟩, hentry₀, hdeps, hin⟩
    · have hne' := (encode_of_named hne hsub fun f hf => (hcov.paths f hf).2).1
      simp [isDepsFileResult, c.hash.compute_injective.eq_iff, hne'] at hdeps
    rcases hleads u hu hneu with hover | ⟨f, hf, hstat, hother⟩
    · have := hover cmdu ar₀ (hu.2 ▸ hcmdu) hentry₀
      simp [this] at hdeps
    -- the entry would be a reference under a key that has the named file as a manifest input
    obtain rfl := command_eq_of_action ha hav
    obtain ⟨g, hg, x, hfx, hgx⟩ := exists_input_of_action hcwd hproj hcov.project hord
      (hcov.ordinary (subset_append_left ..)) ha hav (hin hf) hstat
    exact absurd (hgx.1.trans hfx.1.symm)
      (hother v ⟨hv, hcmdv.trans hcmd.symm⟩ g (mem_extractPaths.mp hg))
  · rintro u hu ⟨cmdu, hcmdu, hkey, -⟩
    have hcov := hcovers u hu
    have hsame : ∀ f ∈ u.keyInputs, f ∈ inputs ∨
        u.files.stat (c.project.absolute f) = .ok true → SameFile c.project u.files fs f := by
      intro f hf hin
      exact sameFile_of_action hcwd hcov.project hproj (hcov.ordinary (List.Subset.refl _)) hord
        (storeKey_eq hkey) ha (mem_extractPaths.mpr hf) hin
    refine ⟨fun f hf hfw => hsame f (mem_append_left _ hf) (.inl (hstatic hfw)), ?_⟩
    intro f hf
    exact hsame f (hcov.listed f hf).1 (.inr (hcov.listed f hf).2)

end History

/-! ### An edge with a depfile, with and without a `deps` binding -/

def depfileWorld (deps : GoString) : World where
  nodes n := { generatedByDepLoader := decide (n ≠ "src/a.c") }
  edges _ :=
    { rule := fun
        | .command => some "cc"
        | .depfile => some "o.d"
        | .deps => some deps
        | _ => none
      explicitInputs := ["src/a.c"]
      outputs := ["o"] }
  edgeCount := 1

def editedFiles : FileSystem where
  lstat q :=
    if q = "/p/b.h" then some (.regular "int c;" false) else sampleFiles.lstat q

def builtFiles : FileSystem where
  lstat q := if q = "/p/o" then some (.regular "obj" false) else sampleFiles.lstat q

def sampleUpload (deps : GoString) (listed : List Path) : Upload where
  world := depfileWorld deps
  files := sampleFiles
  result := { edge := 0, status := 0, outputs := [⟨"o", "obj", false⟩] }
  listed := listed

def sampleSession : Session := ⟨{ blobs := some }, {}⟩

def sampleStored : ActionResult := { outputFiles := [⟨"o", "obj", false⟩] }

def depfileCommand : Command := commandMessage sampleConfig ["cc"] ["o"]

lemma depfileWorld_command (deps : GoString) :
    assembleCommand sampleConfig (depfileWorld deps) 0 = .ok depfileCommand := by
  refine assembleCommand_ok.mpr ⟨["cc"], ?_, rfl⟩
  change splitAtSpaces "cc" = .ok ["cc"]
  decide +kernel

lemma depfileWorld_static (deps : GoString) :
    (depfileWorld deps).staticInputs 0 = [("src/a.c" : GoString)] := by
  change filter (fun n => !decide (n ≠ ("src/a.c" : GoString))) [("src/a.c" : GoString)] = _
  simp

section Sample

abbrev sampleMoments : List FileSystem := [sampleFiles, editedFiles, builtFiles]

abbrev sampleInputs : List GoString := ["src/a.c", "b.h"]

variable {fs fs₁ fs₂ : FileSystem} {f : GoString} {inputs inputs₁ inputs₂ : List GoString}

lemma sampleInputs_names : sampleInputs.Nodup ∧ ∀ f ∈ sampleInputs,
    cleanPath sampleProject f = .ok f ∧ f ≠ Filepath.dot ∧ Filepath.base f ≠ ".reninja" ∧
      ¬ StartsBeforeDot f ∧ f ≠ [] ∧ nul ∉ f := by
  decide +kernel

lemma sampleMoments_entries : ∀ fs ∈ sampleMoments, ∀ f ∈ sampleInputs,
    fs.stat (sampleProject.absolute f) = .ok true ∧
      (∃ text ∈ ["int a;", "int b;", "int c;"],
        entryAt fs sampleProject f = some (.regular text false)) ∧
      ∀ q ∈ subPaths f, entryAt fs sampleProject q = some .dir := by
  decide +kernel

lemma sample_stat (hfs : fs ∈ sampleMoments) (hf : f ∈ sampleInputs) :
    fs.stat (sampleProject.absolute f) = .ok true :=
  (sampleMoments_entries fs hfs f hf).1

lemma sample_ordinary (hfs : fs ∈ sampleMoments) (hf : f ∈ sampleInputs) :
    OrdinaryPath sampleProject fs f := by
  obtain ⟨hok, hdot, hbase, hplace, -⟩ := sampleInputs_names.2 f hf
  obtain ⟨-, ⟨text, -, htext⟩, hdirs⟩ := sampleMoments_entries fs hfs f hf
  refine ⟨fun _ => ⟨⟨f, text, false⟩, hok, hdot, htext⟩, fun _ g hg r hr => ?_, fun hstat => ?_,
    fun r hr => ?_⟩
  · rw [mem_singleton.mp hg, hok, Except.ok.injEq] at hr
    exact hr ▸ ⟨hplace, hdirs⟩
  · simp [sample_stat hfs hf] at hstat
  · rw [hok, Except.ok.injEq] at hr
    exact hr ▸ hbase

lemma sample_action (hfs : fs ∈ sampleMoments) (hin : ∀ f ∈ inputs, f ∈ sampleInputs) :
    ∃ root nodes, hashDirectoryTree .byCode fs sampleProject inputs = .ok (root, nodes) ∧
    assembleAction sampleConfig fs depfileCommand inputs =
      .ok ⟨sampleConfig.hash.command depfileCommand, root⟩ := by
  have hex : existingInputs sampleConfig fs inputs = .ok inputs := by
    induction inputs with
    | nil => rfl
    | cons i is ih =>
      have hi : fs.stat (sampleConfig.project.absolute i) = .ok true :=
        sample_stat hfs (hin i (by simp))
      rw [existingInputs, hi, ih fun f hf => hin f (by simp [hf])]
  obtain ⟨root, nodes, hhash, -⟩ := describes_of_ordinary (h := .byCode) sampleProject_isAbs rfl
    (fun f hf => (sample_ordinary hfs (hin f hf)).file (sample_stat hfs (hin f hf)))
    (fun f hf => (sample_ordinary hfs (hin f hf)).place (sample_stat hfs (hin f hf)) f (by simp))
  exact ⟨root, nodes, hhash, assembleAction_ok.mpr ⟨_, _, _, hex, hhash, rfl⟩⟩

lemma sample_action_congr (hfs₁ : fs₁ ∈ sampleMoments) (hfs₂ : fs₂ ∈ sampleMoments)
    (hin : ∀ f ∈ inputs₁, f ∈ sampleInputs) (hsame : ∀ f, f ∈ inputs₁ ↔ f ∈ inputs₂)
    (hclean : cleanPaths sampleProject inputs₁ = .ok inputs₁)
    (hagree : ∀ q ∈ expandTree sampleProject.workingDirectory inputs₁,
      entryAt fs₁ sampleProject q = entryAt fs₂ sampleProject q) :
    assembleAction sampleConfig fs₁ depfileCommand inputs₁ =
      assembleAction sampleConfig fs₂ depfileCommand inputs₂ := by
  obtain ⟨root, nodes, h₁, ha₁⟩ := sample_action hfs₁ hin
  obtain ⟨root', nodes', h₂, ha₂⟩ := sample_action hfs₂ fun f hf => hin f ((hsame f).mpr hf)
  have hagree' : AgreeOn sampleProject fs₁ fs₂ inputs₁ := by
    intro cleaned hc
    rw [hclean, Except.ok.injEq] at hc
    exact hc ▸ hagree
  obtain rfl := hashDirectoryTree_congr hsame hagree' h₁ h₂
  rw [ha₁, ha₂]

end Sample

lemma depfileWorld_action : ∃ a, ∀ fs ∈ sampleMoments,
    assembleAction sampleConfig fs depfileCommand ["src/a.c"] = .ok a := by
  obtain ⟨root, -, -, ha⟩ := @sample_action sampleFiles ["src/a.c"] (by simp) (by simp)
  refine ⟨_, fun fs hfs => Eq.trans (sample_action_congr hfs (by simp) (by simp)
    (fun _ => Iff.rfl) (by decide +kernel) ?_) ha⟩
  revert fs
  decide +kernel

/-- The sample edge with `deps = gcc`: the reference of its upload leads to the key of the full
result. -/
lemma depfileWorld_fullAction
    (ha : assembleAction sampleConfig sampleFiles depfileCommand ["src/a.c"] = .ok a) : ∃ b, b ≠ a ∧
      assembleAction sampleConfig sampleFiles depfileCommand ["b.h", "src/a.c"] = .ok b ∧
      assembleAction sampleConfig builtFiles depfileCommand ["src/a.c", "src/a.c", "b.h"] =
        .ok b := by
  obtain ⟨root, -, -, hb⟩ := @sample_action sampleFiles ["b.h", "src/a.c"] (by simp) (by simp)
  refine ⟨_, ?_, hb, ?_⟩
  · rintro rfl
    obtain ⟨g, hg, t, hf, hgt⟩ := exists_input_of_action (f := "b.h")
      sampleProject_isAbs (ordinaryProject_root rfl) (ordinaryProject_root rfl)
      (fun f hf => sample_ordinary (by simp) (by simpa [or_comm] using hf))
      (fun f hf => sample_ordinary (by simp) (by simp_all)) hb ha (by simp)
      (sample_stat (by simp) (by simp))
    rw [mem_singleton.mp hg] at hgt
    exact absurd (hf.1.trans hgt.1.symm) (by decide +kernel)
  · rw [← hb]
    refine (sample_action_congr (by simp) (by simp) (by simp) (fun f => ?_) (by decide +kernel)
      (by decide +kernel)).symm
    simp
    tauto

def storedSession (actions : Digest → Option ActionResult) (n : Nat) (keys : List Digest) :
    Session where
  cache := { actions := actions, blobs := some, requests := n, updates := keys }
  disk := {}

def sampleReference : ActionResult :=
  { stdoutDigest := some (encodeDyndepPaths ["src/a.c", "b.h"]) }

/-- The entries after an upload without and with a reference. -/
def storedActions (a : Action) : Digest → Option ActionResult :=
  Function.update (fun _ => none) (sampleConfig.hash.action (some a)) (some sampleStored)

def referredActions (a b : Action) : Digest → Option ActionResult :=
  Function.update (Function.update (fun _ => none) (sampleConfig.hash.action (some a))
    (some sampleReference)) (sampleConfig.hash.action (some b)) (some sampleStored)

lemma sample_storeKey {inputs : List Path} {sorted : List GoString} {fs : FileSystem}
    (hsorted : extractPaths inputs = sorted)
    (ha : assembleAction sampleConfig fs depfileCommand sorted = .ok a) :
    storeKey sampleConfig fs depfileCommand inputs = sampleConfig.hash.action (some a) := by
  rw [storeKey, hsorted, ha]
  rfl

lemma sampleUpload_stored {deps : GoString} {listed : List Path}
    (ha : assembleAction sampleConfig sampleFiles depfileCommand ["src/a.c"] = .ok a)
    (hlisted : (sampleUpload deps listed).depsNodes = []) :
    ∃ n keys, runUploads sampleConfig [sampleUpload deps listed] sampleSession =
      storedSession (storedActions a) n keys := by
  have hcmd : assembleCommand sampleConfig (sampleUpload deps listed).world
      (sampleUpload deps listed).result.edge = .ok depfileCommand := depfileWorld_command deps
  have hstatic := depfileWorld_static deps
  have hdyn : (depfileWorld deps).dynamicInputs 0 = [] := rfl
  have hkey := sample_storeKey (extractPaths_singleton _) ha
  refine ⟨1, [sampleConfig.hash.action (some a)], ?_⟩
  simp only [runUploads, Upload.run, uploadActionResult, uploadActionResultAt, hlisted, hcmd]
  simp [sampleUpload, hdyn, hstatic, hkey, orThrow, uploadFullActionResult, fullActionResult,
    storeActionResult, request, modifyCache, bind_apply, get_apply, modify_apply, pure_apply,
    finalState, sampleSession, storedSession, storedActions, sampleStored]

lemma sampleUpload_depsNodes :
    (sampleUpload "gcc" ["b.h"]).depsNodes = [("b.h" : GoString)] := by
  decide +kernel

lemma sampleUpload_referred {a b : Action}
    (ha : assembleAction sampleConfig sampleFiles depfileCommand ["src/a.c"] = .ok a)
    (hb : assembleAction sampleConfig sampleFiles depfileCommand ["b.h", "src/a.c"] = .ok b) :
    ∃ n keys, runUploads sampleConfig [sampleUpload "gcc" ["b.h"]] sampleSession =
      storedSession (referredActions a b) n keys := by
  have hcmd : assembleCommand sampleConfig (sampleUpload "gcc" ["b.h"]).world
      (sampleUpload "gcc" ["b.h"]).result.edge = .ok depfileCommand := depfileWorld_command "gcc"
  have hstatic := depfileWorld_static "gcc"
  have hdyn : (depfileWorld "gcc").dynamicInputs 0 = [] := rfl
  have hkey := sample_storeKey (extractPaths_singleton _) ha
  have hsorted : extractPaths [("src/a.c" : GoString), ("b.h" : GoString)] =
      [("b.h" : GoString), ("src/a.c" : GoString)] := by decide +kernel
  have hfull := sample_storeKey hsorted hb
  refine ⟨3, [sampleConfig.hash.action (some a), sampleConfig.hash.action (some b)], ?_⟩
  simp only [runUploads, Upload.run, uploadActionResult, uploadActionResultAt, hcmd,
    sampleUpload_depsNodes]
  simp [sampleUpload, hdyn, hstatic, hkey, hfull, orThrow, uploadFullActionResult,
    fullActionResult, uploadActionResultReference, uploadBlob, storeActionResult, request,
    modifyCache, bind_apply, get_apply, modify_apply, pure_apply, finalState, sampleSession,
    storedSession, referredActions, sampleStored, sampleReference]
  exact ⟨rfl, rfl⟩

lemma sampleFetch (fs : FileSystem) (deps : GoString) {a : Action} {key : Digest}
    {actions : Digest → Option ActionResult} {n : Nat} {keys : List Digest} {s : Session}
    (hfind : findCompletedEdge sampleConfig fs (depfileWorld deps) 0 a s =
      .ok (key, sampleStored) (storedSession actions n keys)) :
    ∃ result t, downloadCompletedEdge sampleConfig fs (depfileWorld deps) 0 a s =
      .ok result t := by
  have hfetch : ∃ result t, fetchOutputsAndResult sampleConfig (depfileWorld deps) 0 sampleStored
      (storedSession actions n keys) = .ok result t := by
    simp [fetchOutputsAndResult, fetchOutputs, fetchIfOutput, fetchFile, fetchStdout, depfileWorld,
      sampleStored, storedSession, Disk.writeFile, Disk.put, orThrow, getBlob, request,
      modifyCache, bind_apply, get_apply, modify_apply, pure_apply]
  obtain ⟨result, t, hfetch⟩ := hfetch
  exact ⟨result, t, bind_ok.mpr ⟨_, _, hfind, hfetch⟩⟩

lemma findActionResult_storedSession (hkey : actions key = some ar) (hcode : ar.exitCode = 0)
    (n : Nat) (keys : List Digest) (msg : GoString) :
    findActionResult key msg (storedSession actions n keys) =
      .ok ar (storedSession actions (n + 1) keys) := by
  simp [findActionResult, downloadActionResult, request, modifyCache, bind_apply, get_apply,
    modify_apply, pure_apply, hkey, hcode, storedSession]

lemma findCompletedEdge_stored (fs : FileSystem) (deps : GoString) (a : Action) (n : Nat)
    (keys : List Digest) :
    findCompletedEdge sampleConfig fs (depfileWorld deps) 0 a
        (storedSession (storedActions a) n keys) =
      .ok (sampleConfig.hash.action (some a), sampleStored)
        (storedSession (storedActions a) (n + 1) keys) := by
  have hdeps : isDepsFileResult sampleConfig sampleStored = false := rfl
  have hkey : storedActions a (sampleConfig.hash.action (some a)) = some sampleStored :=
    Function.update_self ..
  rw [findCompletedEdge, bind_apply, findActionResult_storedSession hkey rfl]
  simp [hdeps, pure_apply]

lemma findCompletedEdge_referred {a b : Action}
    (hne : sampleConfig.hash.action (some a) ≠ sampleConfig.hash.action (some b))
    (hb : assembleAction sampleConfig builtFiles depfileCommand ["src/a.c", "src/a.c", "b.h"] =
      .ok b) (n : Nat) (keys : List Digest) :
    findCompletedEdge sampleConfig builtFiles (depfileWorld "gcc") 0 a
        (storedSession (referredActions a b) n keys) =
      .ok (sampleConfig.hash.action (some b), sampleStored)
        (storedSession (referredActions a b) (n + 3) keys) := by
  have hdeps : isDepsFileResult sampleConfig sampleReference = true := by decide +kernel
  have hpaths : decodeDyndepPaths (encodeDyndepPaths sampleInputs) = sampleInputs := by
    decide +kernel
  have hpointer : ∀ actions m, extractDepPathsFromPointer sampleConfig sampleReference
      (storedSession actions m keys) = .ok sampleInputs (storedSession actions (m + 1) keys) := by
    intro actions m
    have hsome : sampleReference.stdoutDigest ≠ some (sampleConfig.hash.compute []) := by
      decide +kernel
    rw [extractDepPathsFromPointer, if_neg hsome]
    simp [sampleReference, getBlob, request, modifyCache, bind_apply, get_apply, modify_apply,
      pure_apply, storedSession, hpaths]
  have hstatic : extractPaths ((depfileWorld "gcc").staticInputs 0) = [("src/a.c" : GoString)] := by
    rw [depfileWorld_static, extractPaths_singleton]
  have hfirst : referredActions a b (sampleConfig.hash.action (some a)) = some sampleReference := by
    rw [referredActions, Function.update_of_ne hne, Function.update_self]
  have hsecond : referredActions a b (sampleConfig.hash.action (some b)) = some sampleStored :=
    Function.update_self ..
  rw [findCompletedEdge, bind_apply, findActionResult_storedSession hfirst rfl]
  simp only [hdeps, if_true, bind_apply, hpointer, hstatic, depfileWorld_command, orThrow,
    pure_apply]
  have hfull : assembleAction sampleConfig builtFiles depfileCommand
      ([("src/a.c" : GoString)] ++ sampleInputs) = .ok b := hb
  simp only [hfull, pure_apply]
  rw [findActionResult_storedSession hsecond rfl]

lemma depfileWorld_assemble (deps : GoString) {fs : FileSystem}
    (ha : assembleAction sampleConfig fs depfileCommand ["src/a.c"] = .ok a) :
    assembleAndHashAction sampleConfig fs (depfileWorld deps) 0 = .ok a := by
  refine assembleAndHashAction_ok.mpr ⟨_, depfileWorld_command deps, ?_⟩
  have hpaths : extractPaths ((depfileWorld deps).edges 0).nonOrderOnlyInputs =
      ["src/a.c"] := extractPaths_singleton _
  rw [hpaths]
  exact ha

lemma sampleUpload_static : (sampleUpload "gcc" ["b.h"]).staticInputs = [("src/a.c" : GoString)] :=
  depfileWorld_static "gcc"

lemma sampleUpload_named : (sampleUpload "gcc" ["b.h"]).named = [("b.h" : GoString)] := by
  rw [Upload.named, sampleUpload_depsNodes]
  rfl

lemma sampleUpload_keyInputs : (sampleUpload "gcc" ["b.h"]).keyInputs = sampleInputs := by
  rw [Upload.keyInputs, sampleUpload_static, sampleUpload_named]
  rfl

lemma sampleUpload_covers : (sampleUpload "gcc" ["b.h"]).Covers sampleConfig := by
  refine ⟨ordinaryProject_root rfl, fun f hf => ?_, fun f hf => ?_⟩
  · rw [sampleUpload_keyInputs] at hf
    obtain ⟨-, -, -, -, hname⟩ := sampleInputs_names.2 f hf
    exact ⟨sample_ordinary (by simp [sampleUpload]) hf, hname⟩
  · obtain rfl : f = ("b.h" : GoString) := mem_singleton.mp hf
    exact ⟨by simp [sampleUpload_keyInputs], sample_stat (by simp [sampleUpload]) (by simp)⟩

/-- The header is there and is not a manifest input. -/
lemma sampleUpload_leadsOn : LeadsOn sampleConfig sampleSession [sampleUpload "gcc" ["b.h"]]
    (depfileWorld "gcc") 0 builtFiles (sampleUpload "gcc" ["b.h"]) := by
  refine .inr ⟨("b.h" : GoString), by simp [sampleUpload_named], sample_stat (by simp) (by simp), ?_⟩
  obtain ⟨hnodup, hnames⟩ := sampleInputs_names
  rintro v ⟨hv, -⟩ g hg
  rw [mem_singleton.mp hv, sampleUpload_static, mem_singleton] at hg
  subst hg
  intro heq
  have hsame := (hnames ("src/a.c" : GoString) (by simp)).1.symm.trans
    (heq.trans (hnames ("b.h" : GoString) (by simp)).1)
  exact (nodup_cons.mp hnodup).1 (mem_singleton.mpr (Except.ok.inj hsame))

/-- An upload of the sample edge with `deps = gcc` is found again after the object is built,
through the reference under the key of the manifest inputs. -/
theorem downloadCompletedEdge_sound_sample : ∃ a key t result t',
    assembleAndHashAction sampleConfig builtFiles (depfileWorld "gcc") 0 = .ok a ∧
    downloadCompletedEdge sampleConfig builtFiles (depfileWorld "gcc") 0 a
      (runUploads sampleConfig [sampleUpload "gcc" ["b.h"]] sampleSession) = .ok result t' ∧
    findCompletedEdge sampleConfig builtFiles (depfileWorld "gcc") 0 a
      (runUploads sampleConfig [sampleUpload "gcc" ["b.h"]] sampleSession) =
        .ok (key, sampleStored) t ∧
    key ≠ sampleConfig.hash.action (some a) ∧
    (sampleUpload "gcc" ["b.h"]).StoresFull sampleConfig key sampleStored ∧
    ∀ f ∈ sampleInputs, SameFile sampleProject (sampleUpload "gcc" ["b.h"]).files builtFiles f := by
  obtain ⟨a, ha⟩ := depfileWorld_action
  obtain ⟨b, hne, hb, hb'⟩ := depfileWorld_fullAction (ha sampleFiles (by simp))
  have haction := depfileWorld_assemble "gcc" (ha builtFiles (by simp))
  obtain ⟨n, keys, hrun⟩ := sampleUpload_referred (ha sampleFiles (by simp)) hb
  have hkeys : sampleConfig.hash.action (some b) ≠ sampleConfig.hash.action (some a) := fun h =>
    hne (Option.some.inj (sampleConfig.hash.action_injective h))
  have hfind := findCompletedEdge_referred hkeys.symm hb' n keys
  obtain ⟨result, t', hok⟩ := sampleFetch builtFiles "gcc" hfind
  rw [← hrun] at hfind hok
  have hordinary : ∀ f, (f ∈ ((depfileWorld "gcc").edges 0).nonOrderOnlyInputs ∨
      ∃ u ∈ sameCommand sampleConfig [sampleUpload "gcc" ["b.h"]] (depfileWorld "gcc") 0,
        f ∈ u.keyInputs) → OrdinaryPath sampleProject builtFiles f := by
    intro f hf
    refine sample_ordinary (by simp) ?_
    rcases hf with hf | ⟨u, ⟨hu, -⟩, hf⟩
    · exact mem_pair.mpr (.inl (mem_singleton.mp hf))
    · rwa [mem_singleton.mp hu, sampleUpload_keyInputs] at hf
  obtain ⟨key, ar, t, hfind', ⟨u, hu, hfull⟩, hsame⟩ := downloadCompletedEdge_sound
    sampleProject_isAbs (fun _ => rfl) (fun d b hd => Option.some.inj hd)
    [sampleUpload "gcc" ["b.h"]] (by simpa using sampleUpload_covers) (depfileWorld "gcc") 0
    builtFiles (ordinaryProject_root rfl) hordinary
    (fun u hu _ => mem_singleton.mp hu.1 ▸ sampleUpload_leadsOn) haction hok
  obtain rfl := mem_singleton.mp hu
  rw [hfind] at hfind'
  obtain ⟨⟨rfl, rfl⟩, -⟩ : (_ ∧ _) ∧ _ := by simpa using hfind'
  obtain ⟨hman, hlisted⟩ := hsame _ hu hfull
  refine ⟨a, _, _, _, _, haction, hok, hfind, hkeys, hfull, fun f hf => ?_⟩
  rcases mem_pair.mp hf with rfl | rfl
  · exact hman _ (by simp [sampleUpload_static]) (by simp [depfileWorld_static])
  · exact hlisted _ (by simp [sampleUpload])

/-- Without a `deps` binding the listed header is not in the key: after an edit of the header
the old result is returned. -/
theorem downloadCompletedEdge_stale : ∃ a key t result t',
    assembleAndHashAction sampleConfig editedFiles (depfileWorld []) 0 = .ok a ∧
    downloadCompletedEdge sampleConfig editedFiles (depfileWorld []) 0 a
      (runUploads sampleConfig [sampleUpload [] ["b.h"]] sampleSession) = .ok result t' ∧
    findCompletedEdge sampleConfig editedFiles (depfileWorld []) 0 a
      (runUploads sampleConfig [sampleUpload [] ["b.h"]] sampleSession) =
        .ok (key, sampleStored) t ∧
    (sampleUpload [] ["b.h"]).StoresFull sampleConfig key sampleStored ∧
    (sampleUpload [] ["b.h"]).listed = [("b.h" : GoString)] ∧
    ¬ SameFile sampleProject (sampleUpload [] ["b.h"]).files editedFiles "b.h" := by
  obtain ⟨a, ha⟩ := depfileWorld_action
  have haction := depfileWorld_assemble [] (ha editedFiles (by simp))
  obtain ⟨n, keys, hrun⟩ := sampleUpload_stored (ha sampleFiles (by simp))
    (show (sampleUpload [] ["b.h"]).depsNodes = [] from rfl)
  have hfind := findCompletedEdge_stored editedFiles [] a n keys
  obtain ⟨result, t₂, hok⟩ := sampleFetch editedFiles [] hfind
  rw [← hrun] at hfind hok
  have hkeyInputs : extractPaths (sampleUpload [] ["b.h"]).keyInputs =
      [("src/a.c" : GoString)] := by
    have hkey : (sampleUpload [] ["b.h"]).keyInputs = (depfileWorld []).staticInputs 0 :=
      append_nil _
    rw [hkey, depfileWorld_static, extractPaths_singleton]
  refine ⟨a, _, _, _, _, haction, hok, hfind, ⟨depfileCommand, depfileWorld_command [], ?_, rfl⟩,
    rfl, fun hsame => ?_⟩
  · exact (sample_storeKey hkeyInputs (ha sampleFiles (by simp))).symm
  · exact absurd (hsame ("b.h" : GoString) (by decide +kernel)) (by decide +kernel)

end Reninja
