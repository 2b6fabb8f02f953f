import Reninja.Scan.Basic

/-!
# What the dirty scan computes

The declarative meaning of the scan: which dependencies are on record for an edge, when an edge
is dirty, and what holds of a node or an edge that was visited. The scan changes the graph as
it goes; what it has settled stays as it is (`Frame`).
-/

namespace Reninja

open Program

variable {newest : Option Path} {n : Path} {w w' : World}

def World.fileTime (w : World) (n : Path) : TimeStamp :=
  match w.disk.stat n with
  | .ok mtime => mtime
  | .error _ => -1

/-- The dependencies that a depfile with this content has for the first output; none when it
is missing or speaks of another output. -/
def depfileDeps (env : Env) (out : Path) (content : GoString) : Option (List Path) :=
  if content = [] then
    none
  else
    match env.parseDepfile content with
    | .ok (primaryOut :: _, ins) =>
      if out = env.canonicalizePath primaryOut then some (ins.map env.canonicalizePath) else none
    | _ => none

/-- The dependencies on record for an edge; none when they cannot be loaded. -/
def recordedDeps (env : Env) (w : World) (e : EdgeId) : Option (List Path) :=
  let out := (w.edges e).outputs.headD []
  if w.getBinding e .deps ≠ [] then
    match w.depsLog.bind fun log => log.deps out with
    | none => none
    | some deps => if w.fileTime out > deps.mtime then none else some deps.nodes
  else if w.getBinding e .depfile ≠ [] then
    match w.disk.readFile (w.getBinding e .depfile) with
    | .ok content => depfileDeps env out (content.getD [])
    | .error _ => none
  else
    some []

/-- An edge is dirty when its dependencies cannot be loaded, when one of its explicit or
implicit inputs is dirty, or when one of its outputs is for its newest input. -/
def EdgeDirty (env : Env) (w : World) (e : EdgeId) : Prop :=
  recordedDeps env w e = none ∨ (∃ i ∈ (w.edges e).nonOrderOnlyInputs, (w.nodes i).dirty = true) ∨
    ∃ o ∈ (w.edges e).outputs, outputDirty env w e (mostRecent w (w.edges e).nonOrderOnlyInputs)
      (w.evaluateCommand e true) o = true

/-- A leaf is visited when it was looked at, another node when its edge was. -/
def World.Visited (w : World) (n : Path) : Prop :=
  match w.producer n with
  | none => (w.nodes n).statusKnown = true
  | some e => (w.edges e).mark = .done

def LeafSpec (w : World) (n : Path) : Prop :=
  w.producer n = none → (w.nodes n).statusKnown = true →
    ((w.nodes n).dirty = true ↔ w.disk.stat n = .ok 0)

def InputsReady (w : World) (e : EdgeId) : Prop :=
  ∀ i ∈ (w.edges e).inputs, ∀ f, w.producer i = some f → (w.edges f).outputsReady = true

/-- What holds of an edge that was visited. -/
structure EdgeSpec (env : Env) (w : World) (e : EdgeId) : Prop where
  inputs : ∀ i ∈ (w.edges e).inputs, w.Visited i
  dirty : ∀ o ∈ (w.edges e).outputs, (w.nodes o).dirty = true ↔ EdgeDirty env w e
  ready : (w.edges e).outputsReady = true ↔
    InputsReady w e ∧ (¬ EdgeDirty env w e ∨ (w.edges e).phony = true ∧ (w.edges e).inputs = [])

/-! ### Frames -/

/-- Two nodes that the scan has the same findings for. -/
structure Node.SameStatus (a b : Node) : Prop where
  mtime : a.mtime = b.mtime
  existence : a.existence = b.existence
  dirty : a.dirty = b.dirty

lemma Node.SameStatus.refl (a : Node) : a.SameStatus a := ⟨rfl, rfl, rfl⟩

lemma Node.SameStatus.trans {a b c : Node} (h₁ : a.SameStatus b) (h₂ : b.SameStatus c) :
    a.SameStatus c :=
  ⟨h₁.mtime.trans h₂.mtime, h₁.existence.trans h₂.existence, h₁.dirty.trans h₂.dirty⟩

lemma Node.SameStatus.exists_eq {a b : Node} (h : a.SameStatus b) : a.exists = b.exists := by
  rw [Node.exists, Node.exists, h.existence]

lemma Node.SameStatus.statusKnown_eq {a b : Node} (h : a.SameStatus b) :
    a.statusKnown = b.statusKnown := by
  rw [Node.statusKnown, Node.statusKnown, h.existence]

/-- Two states of an edge that come from the same build statement. -/
structure Edge.SameStatement (a b : Edge) : Prop where
  phony : a.phony = b.phony
  rule : a.rule = b.rule
  scope : a.scope = b.scope
  parents : a.parents = b.parents
  explicitInputs : a.explicitInputs = b.explicitInputs
  orderOnlyInputs : a.orderOnlyInputs = b.orderOnlyInputs
  outputs : a.outputs = b.outputs
  validations : a.validations = b.validations

lemma Edge.SameStatement.refl (a : Edge) : a.SameStatement a :=
  ⟨rfl, rfl, rfl, rfl, rfl, rfl, rfl, rfl⟩

lemma Edge.SameStatement.trans {a b c : Edge} (h₁ : a.SameStatement b) (h₂ : b.SameStatement c) :
    a.SameStatement c where
  phony := h₁.phony.trans h₂.phony
  rule := h₁.rule.trans h₂.rule
  scope := h₁.scope.trans h₂.scope
  parents := h₁.parents.trans h₂.parents
  explicitInputs := h₁.explicitInputs.trans h₂.explicitInputs
  orderOnlyInputs := h₁.orderOnlyInputs.trans h₂.orderOnlyInputs
  outputs := h₁.outputs.trans h₂.outputs
  validations := h₁.validations.trans h₂.validations

/-- What no visit changes. -/
structure SameGround (w w' : World) : Prop where
  disk : w'.disk = w.disk
  buildLog : w'.buildLog = w.buildLog
  depsLog : w'.depsLog = w.depsLog
  scopes : w'.scopes = w.scopes
  producer : ∀ n, w'.producer n = w.producer n
  pending : ∀ n, (w'.nodes n).dyndepPending = (w.nodes n).dyndepPending
  statement : ∀ e, (w'.edges e).SameStatement (w.edges e)

namespace SameGround

variable {w w' w'' : World}

lemma refl (w : World) : SameGround w w :=
  ⟨rfl, rfl, rfl, rfl, fun _ => rfl, fun _ => rfl, fun _ => .refl _⟩

lemma trans (h₁ : SameGround w w') (h₂ : SameGround w' w'') : SameGround w w'' where
  disk := h₂.disk.trans h₁.disk
  buildLog := h₂.buildLog.trans h₁.buildLog
  depsLog := h₂.depsLog.trans h₁.depsLog
  scopes := h₂.scopes.trans h₁.scopes
  producer n := (h₂.producer n).trans (h₁.producer n)
  pending n := (h₂.pending n).trans (h₁.pending n)
  statement e := (h₂.statement e).trans (h₁.statement e)

lemma getBinding (h : SameGround w w') (e : EdgeId) (k : Key) :
    w'.getBinding e k = w.getBinding e k := by
  have hs := h.statement e
  rw [World.getBinding, World.getBinding, h.scopes, hs.scope, hs.rule, hs.parents]

lemma getBindingBool (h : SameGround w w') (e : EdgeId) (k : Key) :
    w'.getBindingBool e k = w.getBindingBool e k := by
  rw [World.getBindingBool, World.getBindingBool, h.getBinding]

lemma evaluateCommand (h : SameGround w w') (e : EdgeId) (b : Bool) :
    w'.evaluateCommand e b = w.evaluateCommand e b := by
  simp only [World.evaluateCommand, h.getBinding]

lemma fileTime (h : SameGround w w') (n : Path) : w'.fileTime n = w.fileTime n := by
  rw [World.fileTime, World.fileTime, h.disk]

lemma recordedDeps (h : SameGround w w') (env : Env) (e : EdgeId) :
    recordedDeps env w' e = recordedDeps env w e := by
  simp only [Reninja.recordedDeps, h.getBinding, h.depsLog, h.disk, h.fileTime,
    (h.statement e).outputs]

end SameGround

/-- What is decided about an output depends on the edge, on the output and on the time of the
newest input. -/
lemma outputDirty_congr {env : Env} {e : EdgeId} {command : GoString} {o : Path}
    (hg : SameGround w w') (hinputs : (w'.edges e).inputs = (w.edges e).inputs)
    (hexists : (w'.nodes o).exists = (w.nodes o).exists)
    (htime : (w.edges e).phony = false → (w'.nodes o).mtime = (w.nodes o).mtime)
    (hnewest : ∀ i ∈ newest, (w'.nodes i).mtime = (w.nodes i).mtime) :
    outputDirty env w' e newest command o = outputDirty env w e newest command o := by
  have hs := hg.statement e
  have holder : ∀ t, olderThan w' newest t = olderThan w newest t := by
    intro t
    cases newest with
    | none => rfl
    | some i => simp only [olderThan, hnewest i rfl]
  cases hp : (w.edges e).phony with
  | true => simp [outputDirty, hs.phony, hp, hinputs, hs.validations, hexists]
  | false =>
    simp [outputDirty, hs.phony, hp, hexists, htime hp, hg.buildLog, hg.getBinding,
      hg.getBindingBool, holder]

lemma newerInput_mem {w : World} {i j : Path} (h : newerInput w newest i = some j) :
    j = i ∨ newest = some j := by
  cases newest with
  | none => exact .inl (by simpa [newerInput] using h.symm)
  | some k =>
    simp only [newerInput] at h
    split at h
    · exact .inl (Option.some.inj h).symm
    · exact .inr h

lemma foldl_newerInput_mem {w : World} {inputs : List Path} {j : Path}
    (h : inputs.foldl (newerInput w) newest = some j) : j ∈ inputs ∨ newest = some j := by
  induction inputs generalizing newest with
  | nil => exact .inr h
  | cons i is ih =>
    rcases ih h with hj | hj
    · exact .inl (by simp [hj])
    · rcases newerInput_mem hj with rfl | hj
      · exact .inl (by simp)
      · exact .inr hj

lemma foldl_newerInput_congr {inputs : List Path}
    (h : ∀ i, i ∈ inputs ∨ newest = some i → (w'.nodes i).mtime = (w.nodes i).mtime) :
    inputs.foldl (newerInput w') newest = inputs.foldl (newerInput w) newest := by
  induction inputs generalizing newest with
  | nil => rfl
  | cons i is ih =>
    have hstep : newerInput w' newest i = newerInput w newest i := by
      cases newest with
      | none => rfl
      | some j => simp only [newerInput, h i (.inl (by simp)), h j (.inr rfl)]
    rw [List.foldl_cons, List.foldl_cons, hstep]
    refine ih fun j hj => ?_
    rcases hj with hj | hj
    · exact h j (.inl (by simp [hj]))
    · rcases newerInput_mem hj with rfl | hj
      · exact h j (.inl (by simp))
      · exact h j (.inr hj)

lemma edgeDirty_congr {env : Env} {w w' : World} {e : EdgeId} (hg : SameGround w w')
    (himplicit : (w'.edges e).implicitInputs = (w.edges e).implicitInputs)
    (hin : ∀ i ∈ (w.edges e).nonOrderOnlyInputs, (w'.nodes i).SameStatus (w.nodes i))
    (hexists : ∀ o ∈ (w.edges e).outputs, (w'.nodes o).exists = (w.nodes o).exists)
    (htime : (w.edges e).phony = false →
      ∀ o ∈ (w.edges e).outputs, (w'.nodes o).mtime = (w.nodes o).mtime) :
    EdgeDirty env w' e ↔ EdgeDirty env w e := by
  have hs := hg.statement e
  have hnon : (w'.edges e).nonOrderOnlyInputs = (w.edges e).nonOrderOnlyInputs := by
    rw [Edge.nonOrderOnlyInputs, Edge.nonOrderOnlyInputs, hs.explicitInputs, himplicit]
  have hinputs : (w'.edges e).inputs = (w.edges e).inputs := by
    rw [Edge.inputs, Edge.inputs, hs.explicitInputs, himplicit, hs.orderOnlyInputs]
  have hnewest : mostRecent w' (w.edges e).nonOrderOnlyInputs =
      mostRecent w (w.edges e).nonOrderOnlyInputs := by
    refine foldl_newerInput_congr fun i hi => ?_
    rcases hi with hi | hi
    · exact (hin i hi).mtime
    · cases hi
  have hin' : (∃ i ∈ (w.edges e).nonOrderOnlyInputs, (w'.nodes i).dirty = true) ↔
      ∃ i ∈ (w.edges e).nonOrderOnlyInputs, (w.nodes i).dirty = true :=
    exists_congr fun i => and_congr_right fun hi => by rw [(hin i hi).dirty]
  have hout : (∃ o ∈ (w.edges e).outputs, outputDirty env w' e
        (mostRecent w (w.edges e).nonOrderOnlyInputs) (w.evaluateCommand e true) o = true) ↔
      ∃ o ∈ (w.edges e).outputs, outputDirty env w e
        (mostRecent w (w.edges e).nonOrderOnlyInputs) (w.evaluateCommand e true) o = true := by
    refine exists_congr fun o => and_congr_right fun ho => ?_
    rw [outputDirty_congr hg hinputs (hexists o ho) (fun hp => htime hp o ho)]
    intro i hi
    rcases foldl_newerInput_mem hi with hi | hi
    · exact (hin i hi).mtime
    · cases hi
  rw [EdgeDirty, EdgeDirty, hg.recordedDeps, hnon, hnewest, hg.evaluateCommand, hs.outputs, hin',
    hout]

/-! ### Invariant and frames -/

/-- What holds while the scan runs, when no dyndep file is pending. -/
structure ScanInv (env : Env) (w : World) : Prop where
  noPending : ∀ n, (w.nodes n).dyndepPending = false
  produced : ∀ e, ∀ o ∈ (w.edges e).outputs, w.producer o = some e
  fresh : ∀ n f, w.producer n = some f → (w.edges f).mark = .none →
    (w.nodes n).existence = .unknown ∧ (w.nodes n).dirty = false
  unloaded : ∀ e, (w.edges e).mark = .none → (w.edges e).depsLoaded = false
  leaves : ∀ n, LeafSpec w n
  edges : ∀ e, (w.edges e).mark = .done → EdgeSpec env w e

/-- A node that the scan has come to: a leaf that was looked at, or an output of an edge whose
visit has begun. -/
def World.Met (w : World) (n : Path) : Prop :=
  match w.producer n with
  | none => (w.nodes n).statusKnown = true
  | some e => (w.edges e).mark ≠ .none

lemma World.Visited.met {w : World} (h : w.Visited n) : w.Met n := by
  unfold World.Visited at h
  unfold World.Met
  cases hp : w.producer n with
  | none => simpa [hp] using h
  | some e =>
    simp only [hp] at h ⊢
    simp [h]

/-- A node that was met stays so, and visited if it was, when neither its findings nor its edge
change. -/
lemma World.Met.keep {w w' : World} (hn : w.Met n) (hprod : w'.producer n = w.producer n)
    (hst : (w'.nodes n).SameStatus (w.nodes n))
    (hedge : ∀ e, w.producer n = some e → (w.edges e).mark ≠ .none → w'.edges e = w.edges e) :
    w'.Met n ∧ (w.Visited n → w'.Visited n) := by
  unfold World.Met at hn ⊢
  unfold World.Visited
  rw [hprod]
  cases hp : w.producer n with
  | none =>
    simp only [hp] at hn ⊢
    rw [hst.statusKnown_eq]
    exact ⟨hn, id⟩
  | some e =>
    simp only [hp] at hn ⊢
    rw [hedge e hp hn]
    exact ⟨hn, id⟩

/-- What was met before is as it was, and so are the edges that were not met until the end. -/
structure Frame (w w' : World) : Prop where
  ground : SameGround w w'
  edges : ∀ e, (w.edges e).mark ≠ .none → w'.edges e = w.edges e
  unmet : ∀ e, (w'.edges e).mark = .none → w'.edges e = w.edges e
  nodes : ∀ n, w.Met n → (w'.nodes n).SameStatus (w.nodes n)

namespace Frame

variable {w w' w'' : World}

lemma refl (w : World) : Frame w w := ⟨.refl w, fun _ _ => rfl, fun _ _ => rfl, fun _ _ => .refl _⟩

lemma met (h : Frame w w') (hn : w.Met n) : w'.Met n :=
  (hn.keep (h.ground.producer n) (h.nodes n hn) fun e _ => h.edges e).1

lemma visited (h : Frame w w') (hn : w.Visited n) : w'.Visited n :=
  (hn.met.keep (h.ground.producer n) (h.nodes n hn.met) fun e _ => h.edges e).2 hn

lemma trans (h₁ : Frame w w') (h₂ : Frame w' w'') : Frame w w'' where
  ground := h₁.ground.trans h₂.ground
  edges e he := by
    rw [h₂.edges e (by rwa [h₁.edges e he]), h₁.edges e he]
  unmet e he := by
    have hlast := h₂.unmet e he
    exact hlast.trans (h₁.unmet e (hlast ▸ he))
  nodes n hn := (h₂.nodes n (h₁.met hn)).trans (h₁.nodes n hn)

end Frame

/-- A step of the visit to `e`: it touches `e` and the findings for its outputs. -/
structure OwnStep (e : EdgeId) (w w' : World) : Prop where
  ground : SameGround w w'
  edges : ∀ f, f ≠ e → w'.edges f = w.edges f
  nodes : ∀ n, w.producer n ≠ some e → (w'.nodes n).SameStatus (w.nodes n)

/-- As `Frame`, but for the edge whose visit is going on. -/
structure OwnFrame (e : EdgeId) (w w' : World) : Prop where
  ground : SameGround w w'
  edges : ∀ f, f ≠ e → (w.edges f).mark ≠ .none → w'.edges f = w.edges f
  unmet : ∀ f, f ≠ e → (w'.edges f).mark = .none → w'.edges f = w.edges f
  nodes : ∀ n, w.Met n → w.producer n ≠ some e → (w'.nodes n).SameStatus (w.nodes n)

section Own

variable {env : Env} {e : EdgeId} {w w' w'' : World}
variable {g : EdgeId} {n : Path}

lemma OwnStep.refl (w : World) : OwnStep e w w := ⟨.refl w, fun _ _ => rfl, fun _ _ => .refl _⟩

lemma OwnStep.trans (h₁ : OwnStep e w w') (h₂ : OwnStep e w' w'') : OwnStep e w w'' where
  ground := h₁.ground.trans h₂.ground
  edges f hf := (h₂.edges f hf).trans (h₁.edges f hf)
  nodes n hn := (h₂.nodes n (by rwa [h₁.ground.producer])).trans (h₁.nodes n hn)

instance : Std.Refl (OwnStep e) := ⟨OwnStep.refl⟩

instance : IsTrans World (OwnStep e) := ⟨fun _ _ _ => OwnStep.trans⟩

lemma OwnStep.ownFrame (h : OwnStep e w w') : OwnFrame e w w' :=
  ⟨h.ground, fun f hf _ => h.edges f hf, fun f hf _ => h.edges f hf, fun n _ hn => h.nodes n hn⟩

lemma Frame.ownFrame (h : Frame w w') : OwnFrame e w w' :=
  ⟨h.ground, fun f _ => h.edges f, fun f _ => h.unmet f, fun n hn _ => h.nodes n hn⟩

lemma OwnFrame.keep (h : OwnFrame e w w') (hn : w.Met n) (hne : w.producer n ≠ some e) :
    w'.Met n ∧ (w.Visited n → w'.Visited n) := by
  refine hn.keep (h.ground.producer n) (h.nodes n hn hne) fun f hp => h.edges f ?_
  rintro rfl
  exact hne hp

lemma OwnFrame.trans (h₁ : OwnFrame e w w') (h₂ : OwnFrame e w' w'') : OwnFrame e w w'' where
  ground := h₁.ground.trans h₂.ground
  edges f hf hm := by
    rw [h₂.edges f hf (by rwa [h₁.edges f hf hm]), h₁.edges f hf hm]
  unmet f hf hm := by
    have hlast := h₂.unmet f hf hm
    exact hlast.trans (h₁.unmet f hf (hlast ▸ hm))
  nodes n hn hne := (h₂.nodes n (h₁.keep hn hne).1 (by rwa [h₁.ground.producer])).trans
    (h₁.nodes n hn hne)

/-- From outside, the whole visit to an edge that was not visited is a frame. -/
lemma OwnFrame.frame (h : OwnFrame e w w') (hmark : (w.edges e).mark = .none)
    (hmet : (w'.edges e).mark ≠ .none) : Frame w w' where
  ground := h.ground
  edges f hf := h.edges f (by rintro rfl; exact hf hmark) hf
  unmet f hf := h.unmet f (by rintro rfl; exact hmet hf) hf
  nodes n hn := by
    refine h.nodes n hn fun hp => ?_
    simp [World.Met, hp, hmark] at hn

lemma World.Visited.producer_ne (h : w.Visited n) (hmark : (w.edges e).mark ≠ .done) :
    w.producer n ≠ some e := by
  intro hp
  simp only [World.Visited, hp] at h
  exact hmark h

lemma OwnFrame.visited (h : OwnFrame e w w') (hmark : (w.edges e).mark ≠ .done) (hn : w.Visited n) :
    w'.Visited n :=
  (h.keep hn.met (hn.producer_ne hmark)).2 hn

/-- The findings for a visited edge stay true as long as nothing they speak of changes. -/
lemma EdgeSpec.congr (hground : SameGround w w') (hedge : w'.edges g = w.edges g)
    (hvisited : ∀ i ∈ (w.edges g).inputs, w'.Visited i)
    (hin : ∀ i ∈ (w.edges g).inputs, (w'.nodes i).SameStatus (w.nodes i))
    (hproducer : ∀ i ∈ (w.edges g).inputs, ∀ f, w.producer i = some f → w'.edges f = w.edges f)
    (hout : ∀ o ∈ (w.edges g).outputs, (w'.nodes o).SameStatus (w.nodes o))
    (hspec : EdgeSpec env w g) : EdgeSpec env w' g := by
  have hdirty : EdgeDirty env w' g ↔ EdgeDirty env w g := by
    refine edgeDirty_congr hground (by rw [hedge]) (fun i hi => hin i ?_)
      (fun o ho => (hout o ho).exists_eq) fun _ o ho => (hout o ho).mtime
    exact List.mem_append_left _ hi
  have hready : InputsReady w' g ↔ InputsReady w g := by
    rw [InputsReady, InputsReady, hedge]
    refine forall₂_congr fun i hi => forall_congr' fun f => ?_
    rw [hground.producer]
    refine imp_congr_right fun hp => ?_
    rw [hproducer i hi f hp]
  constructor
  · rw [hedge]
    exact hvisited
  · rw [hedge]
    intro o ho
    rw [(hout o ho).dirty, hspec.dirty o ho, hdirty]
  · rw [hedge, hready, hdirty]
    exact hspec.ready

/-- The findings for a visited edge stay true while another edge is visited. -/
lemma EdgeSpec.own (h : OwnFrame e w w') (hmark : (w.edges e).mark ≠ .done)
    (hproduced : ∀ f, ∀ o ∈ (w.edges f).outputs, w.producer o = some f)
    (hg : (w.edges g).mark = .done) (hspec : EdgeSpec env w g) : EdgeSpec env w' g := by
  have hge : g ≠ e := by
    rintro rfl
    exact hmark hg
  refine hspec.congr h.ground (h.edges g hge (by simp [hg])) (fun i hi => ?_) (fun i hi => ?_)
    (fun i hi f hp => ?_) fun o ho => ?_
  · exact h.visited hmark (hspec.inputs i hi)
  · exact h.nodes i (hspec.inputs i hi).met ((hspec.inputs i hi).producer_ne hmark)
  · have hvis := hspec.inputs i hi
    have hfe : f ≠ e := by
      rintro rfl
      exact hvis.producer_ne hmark hp
    simp only [World.Visited, hp] at hvis
    exact h.edges f hfe (by simp [hvis])
  · have hp := hproduced g o ho
    refine h.nodes o (by simp [World.Met, hp, hg]) ?_
    rw [hp, ne_eq, Option.some.injEq]
    exact hge

/-- The findings for a visited edge stay true over a whole visit to a node. -/
lemma EdgeSpec.frame (h : Frame w w')
    (hproduced : ∀ f, ∀ o ∈ (w.edges f).outputs, w.producer o = some f)
    (hg : (w.edges g).mark = .done) (hspec : EdgeSpec env w g) : EdgeSpec env w' g := by
  refine hspec.congr h.ground (h.edges g (by simp [hg])) (fun i hi => h.visited (hspec.inputs i hi))
    (fun i hi => h.nodes i (hspec.inputs i hi).met) (fun i hi f hp => ?_)
    fun o ho => h.nodes o (by simp [World.Met, hproduced g o ho, hg])
  have hvis := hspec.inputs i hi
  simp only [World.Visited, hp] at hvis
  exact h.edges f (by simp [hvis])

lemma ScanInv.own (hinv : ScanInv env w) (h : OwnStep e w w') (hbefore : (w.edges e).mark ≠ .done)
    (hafter : (w'.edges e).mark ≠ .none) (hdone : (w'.edges e).mark = .done → EdgeSpec env w' e) :
    ScanInv env w' where
  noPending n := (h.ground.pending n).trans (hinv.noPending n)
  produced f o ho := by
    rw [h.ground.producer]
    rw [(h.ground.statement f).outputs] at ho
    exact hinv.produced f o ho
  fresh n f hp hm := by
    rw [h.ground.producer] at hp
    have hf : f ≠ e := by
      rintro rfl
      exact hafter hm
    rw [h.edges f hf] at hm
    have hst := h.nodes n (by rw [hp, ne_eq, Option.some.injEq]; exact hf)
    rw [hst.existence, hst.dirty]
    exact hinv.fresh n f hp hm
  unloaded f hm := by
    have hf : f ≠ e := by
      rintro rfl
      exact hafter hm
    rw [h.edges f hf] at hm ⊢
    exact hinv.unloaded f hm
  leaves n hp hk := by
    rw [h.ground.producer] at hp
    have hst := h.nodes n (by simp [hp])
    rw [hst.statusKnown_eq] at hk
    rw [hst.dirty, h.ground.disk]
    exact hinv.leaves n hp hk
  edges f hm := by
    by_cases hf : f = e
    · subst hf
      exact hdone hm
    · rw [h.edges f hf] at hm
      exact (hinv.edges f hm).own h.ownFrame hbefore hinv.produced hm

end Own

end Reninja
