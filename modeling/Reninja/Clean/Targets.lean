import Reninja.Clean.Dyndeps

/-!
# Cleaning targets

`DoCleanTarget` marks a node when its inputs are done. It walks the graph as `Visits.visit` does:
it ends, and has then visited all that the targets need, exactly if no cycle is ahead of a target.
-/

namespace Reninja

open Program Relation Filter List

def World.inputsOf (w : World) (n : Path) : List Path :=
  match w.producer n with
  | none => []
  | some e => (w.edges e).inputs

namespace Cleaner

variable {cfg : CleanConfig} {s s' s'' : Cleaner}
variable {o : Option (List Path)} {m : EStateM Failure Cleaner Unit}

/-! ### What stays -/

/-- Of the world only the disk changes. -/
structure Keeps (s s' : Cleaner) : Prop where
  world : s'.world = { s.world with disk := s'.world.disk }

lemma Keeps.refl (s : Cleaner) : Keeps s s := ⟨rfl⟩

lemma Keeps.trans (h₁ : Keeps s s') (h₂ : Keeps s' s'') : Keeps s s'' :=
  ⟨by rw [h₂.world, h₁.world]⟩

lemma Keeps.edges (h : Keeps s s') : s'.world.edges = s.world.edges := by rw [h.world]

lemma Keeps.inputsOf (h : Keeps s s') : s'.world.inputsOf = s.world.inputsOf := by
  rw [h.world]
  rfl

/-- The marks stay, and of the world all but the disk. -/
structure Removes (s s' : Cleaner) : Prop extends Keeps s s' where
  cleaned : s'.cleaned = s.cleaned

lemma Removes.refl (s : Cleaner) : Removes s s := ⟨.refl s, rfl⟩

lemma Removes.trans (h₁ : Removes s s') (h₂ : Removes s' s'') : Removes s s'' :=
  ⟨h₁.toKeeps.trans h₂.toKeeps, h₂.cleaned.trans h₁.cleaned⟩

lemma removeFile_removes (path : Path) : Removes s (s.removeFile cfg path) := by
  simp only [removeFile, report]
  split_ifs <;> exact ⟨⟨rfl⟩, rfl⟩

lemma remove_removes (path : Path) : Removes s (s.remove cfg path) := by
  rw [remove]
  split_ifs
  · exact .refl s
  · have hadd : Removes s { s with removed := s.removed ++ [path] } := ⟨⟨rfl⟩, rfl⟩
    exact hadd.trans (removeFile_removes path)

lemma removeBinding_removes (e : EdgeId) (k : Key) : Removes s (s.removeBinding cfg e k) := by
  rw [removeBinding]
  split_ifs
  · exact remove_removes _
  · exact .refl s

lemma removeEdgeFiles_removes (e : EdgeId) : Removes s (s.removeEdgeFiles cfg e) :=
  (removeBinding_removes e .depfile).trans (removeBinding_removes e .rspfile)

lemma cleanOutput_removes (target : Path) (e : EdgeId) :
    Removes s (s.cleanOutput cfg target e) := by
  rw [cleanOutput]
  split_ifs
  · exact .refl s
  · exact (remove_removes target).trans (removeEdgeFiles_removes e)

/-- A call does what a visit does: it returns with its marks, or runs out of fuel. -/
def Walks (s : Cleaner) (r : EStateM.Result Failure Cleaner Unit) : Option (List Path) → Prop
  | some marked => ∃ s', r = .ok () s' ∧ s'.cleaned = marked ∧ Keeps s s'
  | none => ∃ s', r = .error .outOfFuel s'

lemma Walks.pure (s : Cleaner) :
    Walks s ((Pure.pure () : EStateM Failure Cleaner Unit) s) (some s.cleaned) :=
  ⟨s, rfl, rfl, .refl s⟩

lemma Walks.of_keeps {r : EStateM.Result Failure Cleaner Unit} (hkeeps : Keeps s s')
    (h : Walks s' r o) : Walks s r o := by
  cases o with
  | none => exact h
  | some marked =>
    obtain ⟨t, ht, hmarked, hkeeps'⟩ := h
    exact ⟨t, ht, hmarked, hkeeps.trans hkeeps'⟩

lemma Walks.bind {f : Unit → EStateM Failure Cleaner Unit} {visit : List Path → Option (List Path)}
    (hm : Walks s (m s) o) (hf : ∀ t, Keeps s t → Walks t (f () t) (visit t.cleaned)) :
    Walks s ((m >>= f) s) (o.bind visit) := by
  rw [bind_apply]
  cases o with
  | none =>
    obtain ⟨t, ht⟩ := hm
    exact ⟨t, by rw [ht]⟩
  | some marked =>
    obtain ⟨t, ht, rfl, hkeeps⟩ := hm
    rw [ht, Option.bind_some]
    exact .of_keeps hkeeps (hf t hkeeps)

lemma Walks.mark (hm : Walks s (m s) o) (target : Path) :
    Walks s ((m >>= fun _ => modify fun s => { s with cleaned := s.cleaned ++ [target] }) s)
      (o.map (· ++ [target])) := by
  rw [Option.map_eq_bind]
  exact hm.bind fun t _ => ⟨{ t with cleaned := t.cleaned ++ [target] }, rfl, rfl, ⟨rfl⟩⟩

lemma forEach_walks {f : Path → EStateM Failure Cleaner Unit}
    {visit : Path → List Path → Option (List Path)} {inputs : List Path}
    (hf : ∀ n t, Keeps s t → Walks t (f n t) (visit n t.cleaned)) :
    Walks s (forEach inputs (fun n => do if n ∉ (← get).cleaned then f n) s)
      (Visits.visitEach visit inputs s.cleaned) := by
  induction inputs generalizing s with
  | nil => exact ⟨s, rfl, rfl, .refl s⟩
  | cons n inputs ih =>
    refine Walks.bind ?_ fun t ht => ih fun m u hu => hf m u (ht.trans hu)
    change Walks s ((if n ∉ s.cleaned then f n else pure ()) s) _
    by_cases hn : n ∈ s.cleaned
    · rw [if_pos hn, if_neg (not_not.mpr hn)]
      exact .pure s
    · rw [if_neg hn, if_pos hn]
      exact hf n s (.refl s)

lemma doCleanTarget_walks (fuel : Nat) (target : Path) (s : Cleaner) :
    Walks s (doCleanTarget cfg fuel target s)
      (Visits.visit s.world.inputsOf fuel target s.cleaned) := by
  induction fuel generalizing target s with
  | zero => exact ⟨s, rfl⟩
  | succ fuel ih =>
    rw [doCleanTarget, Visits.visit, bind_apply, get_apply]
    dsimp only
    cases hproducer : s.world.producer target with
    | none =>
      have hinputs : s.world.inputsOf target = [] := by rw [World.inputsOf, hproducer]
      rw [hinputs]
      exact (Walks.pure s).mark target
    | some e =>
      have hinputs : s.world.inputsOf target = (s.world.edges e).inputs := by
        rw [World.inputsOf, hproducer]
      have hout := @cleanOutput_removes cfg s target e
      have hloop : Walks (s.cleanOutput cfg target e)
          (forEach ((s.cleanOutput cfg target e).world.edges e).inputs
            (fun n => do if n ∉ (← get).cleaned then doCleanTarget cfg fuel n)
            (s.cleanOutput cfg target e))
          (Visits.visitEach (Visits.visit s.world.inputsOf fuel) (s.world.inputsOf target)
            s.cleaned) := by
        rw [hinputs, hout.toKeeps.edges, ← hout.cleaned]
        refine forEach_walks fun n t ht => ?_
        rw [← hout.toKeeps.inputsOf, ← ht.inputsOf]
        exact ih n t
      exact Walks.of_keeps hout.toKeeps (hloop.mark target)

/-! ### The calls -/

def namedTargets (cfg : CleanConfig) (names : List GoString) : List Path :=
  ((names.filter (· ≠ [])).map cfg.env.canonicalizePath).filter (cfg.isNode ·)

lemma cleanNamedTarget_walks (fuel : Nat) (name : GoString) (s : Cleaner) :
    Walks s (cleanNamedTarget cfg fuel name s)
      (Visits.visitAll s.world.inputsOf fuel (namedTargets cfg [name]) s.cleaned) := by
  rw [cleanNamedTarget]
  have hstatus : Walks s ((modify fun s => { s with status := 1 } : EStateM Failure Cleaner Unit) s)
      (some s.cleaned) := ⟨{ s with status := 1 }, rfl, rfl, ⟨rfl⟩⟩
  split_ifs with hempty hnode
  · simpa [namedTargets, hempty, Visits.visitAll] using hstatus
  · simpa [namedTargets, hempty, hnode, Visits.visitAll] using doCleanTarget_walks fuel _ s
  · simpa [namedTargets, hempty, hnode, Visits.visitAll] using hstatus

lemma namedTargets_cons (name : GoString) (names : List GoString) :
    namedTargets cfg (name :: names) = namedTargets cfg [name] ++ namedTargets cfg names := by
  rw [namedTargets, namedTargets, namedTargets, ← filter_append, ← map_append,
    ← filter_append, singleton_append]

lemma forEach_named_walks (fuel : Nat) (names : List GoString) (s : Cleaner) :
    Walks s (forEach names (cleanNamedTarget cfg fuel) s)
      (Visits.visitAll s.world.inputsOf fuel (namedTargets cfg names) s.cleaned) := by
  induction names generalizing s with
  | nil => exact .pure s
  | cons name names ih =>
    rw [namedTargets_cons, Visits.visitAll_append]
    refine (cleanNamedTarget_walks fuel name s).bind fun t ht => ?_
    rw [← ht.inputsOf]
    exact ih t

/-- The call returns, and has visited all that the targets are made from. -/
def VisitsAll (g : World) (targets : List Path) (r : EStateM.Result Failure Cleaner Int) : Prop :=
  ∃ status t, r = .ok status t ∧
    ∀ n ∈ targets, ∀ m, ReflTransGen (Visits.Leads g.inputsOf) n m → m ∈ t.cleaned

lemma Walks.visitsAll_iff {g : World} {targets : List Path} (h : Walks s (m s) o) :
    VisitsAll g targets ((do m; return (← get).status : EStateM Failure Cleaner Int) s) ↔
      ∃ marked, o = some marked ∧
        ∀ n ∈ targets, ∀ m, ReflTransGen (Visits.Leads g.inputsOf) n m → m ∈ marked := by
  cases o with
  | none =>
    obtain ⟨t, ht⟩ := h
    have hfails : (do m; return (← get).status : EStateM Failure Cleaner Int) s =
        .error .outOfFuel t := by rw [bind_apply, ht]
    rw [VisitsAll, hfails]
    simp
  | some marked =>
    obtain ⟨t, ht, rfl, -⟩ := h
    have hreturns : (do m; return (← get).status : EStateM Failure Cleaner Int) s =
        .ok t.status t := by
      rw [bind_apply, ht]
      rfl
    rw [VisitsAll, hreturns]
    simp

lemma inputsOf_finite {w : World} (hw : ∀ n e, w.producer n = some e → e < w.edgeCount) :
    {n | ∃ m, n ∈ w.inputsOf m}.Finite := by
  refine (((range w.edgeCount).flatMap fun e => (w.edges e).inputs).finite_toSet).subset ?_
  rintro n ⟨m, hn⟩
  rw [World.inputsOf] at hn
  split at hn
  · exact absurd hn not_mem_nil
  · rename_i e he
    exact mem_flatMap.mpr ⟨e, mem_range.mpr (hw m e he), hn⟩

/-- `CleanTarget` and `CleanTargets` terminate and visit all that their targets are made from
exactly if the graph, with the dyndep files that can be loaded, has no cycle ahead of a target. -/
theorem cleanTargets_visit_iff (hw : s.world.Connected) :
    (∀ target, (∀ᶠ fuel in atTop, VisitsAll (s.world.withDyndeps cfg.env) [target]
        (cleanTarget cfg fuel target s)) ↔
      ¬ Visits.Endless (s.world.withDyndeps cfg.env).inputsOf target) ∧
    ∀ names, (∀ᶠ fuel in atTop, VisitsAll (s.world.withDyndeps cfg.env) (namedTargets cfg names)
        (cleanTargets cfg fuel names s)) ↔
      ∀ target ∈ namedTargets cfg names,
        ¬ Visits.Endless (s.world.withDyndeps cfg.env).inputsOf target := by
  have hconn : (s.world.withDyndeps cfg.env).Connected := World.withDyndeps_connected hw
  have hfinite := inputsOf_finite fun n e he => (hconn.producer n e he).1
  constructor
  · intro target
    have hwalks : ∀ fuel, Walks (s.start cfg) (doCleanTarget cfg fuel target (s.start cfg))
        (Visits.visitAll (s.world.withDyndeps cfg.env).inputsOf fuel [target] []) := by
      intro fuel
      rw [Visits.visitAll_singleton]
      exact doCleanTarget_walks fuel target (s.start cfg)
    have hiff := Visits.eventually_visitAll_iff [target] hfinite fun a b h => ⟨a, h⟩
    rw [forall_mem_singleton] at hiff
    rw [← hiff]
    exact Filter.eventually_congr (.of_forall fun fuel => (hwalks fuel).visitsAll_iff)
  · intro names
    rw [← Visits.eventually_visitAll_iff _ hfinite fun a b h => ⟨a, h⟩]
    refine Filter.eventually_congr (.of_forall fun fuel => ?_)
    exact (forEach_named_walks fuel names (s.start cfg)).visitsAll_iff

end Cleaner

/-- `build a: cc b`. -/
def oneInput : World where
  nodes n :=
    if n = "a" then { inEdge := some 0, generatedByDepLoader := false }
    else if n = "b" then { outEdges := [0], generatedByDepLoader := false }
    else {}
  edges e := if e = 0 then { explicitInputs := ["b"], outputs := ["a"] } else {}
  edgeCount := 1

lemma oneInput_producer (n : Path) : oneInput.producer n = if n = "a" then some 0 else none := by
  simp only [World.producer, oneInput]
  split_ifs <;> rfl

lemma oneInput_connected : oneInput.Connected := by
  constructor
  · intro n e h
    rw [oneInput_producer] at h
    split_ifs at h with hn
    obtain rfl := Option.some.inj h
    exact ⟨Nat.one_pos, by simp [oneInput, hn]⟩
  · intro e n h
    simp only [oneInput] at h ⊢
    split_ifs at h with he
    · obtain rfl : n = "b" := by simpa [Edge.inputs] using h
      rw [if_neg (by decide +kernel), if_pos rfl, he]
      exact mem_singleton.mpr rfl
    · simp [Edge.inputs] at h

theorem cleanTargets_visit_oneInput : oneInput.Connected ∧
    ∀ᶠ fuel in atTop, Cleaner.VisitsAll (oneInput.withDyndeps {}) ["a"]
      (Cleaner.cleanTarget {} fuel "a" { world := oneInput }) := by
  obtain ⟨hiff, -⟩ := @Cleaner.cleanTargets_visit_iff {} { world := oneInput } oneInput_connected
  refine ⟨oneInput_connected, (hiff "a").mpr fun h => ?_⟩
  have ha : (oneInput.withDyndeps {}).inputsOf "a" = [("b" : Path)] := by decide +kernel
  have hb : (oneInput.withDyndeps {}).inputsOf "b" = [] := by decide +kernel
  obtain ⟨b, hab, h⟩ := h.exists_next
  rw [ha, mem_singleton] at hab
  subst hab
  obtain ⟨c, hbc, -⟩ := h.exists_next
  exact absurd (hb ▸ hbc) not_mem_nil

/-- `build a: cc b` and `build b: cc a`. -/
def mutualInputs : World where
  nodes n :=
    if n = "a" then { inEdge := some 0, outEdges := [1], generatedByDepLoader := false }
    else if n = "b" then { inEdge := some 1, outEdges := [0], generatedByDepLoader := false }
    else {}
  edges e :=
    if e = 0 then { explicitInputs := ["b"], outputs := ["a"] }
    else if e = 1 then { explicitInputs := ["a"], outputs := ["b"] }
    else {}
  edgeCount := 2

lemma mutualInputs_connected : mutualInputs.Connected := by
  constructor
  · intro n e h
    simp only [World.producer, mutualInputs] at h ⊢
    split_ifs at h with ha hb
    · obtain rfl := Option.some.inj h
      simp [ha]
    · obtain rfl := Option.some.inj h
      simp [hb]
  · intro e n h
    simp only [mutualInputs] at h ⊢
    split_ifs at h with h0 h1
    · obtain rfl : n = "b" := by simpa [Edge.inputs] using h
      rw [if_neg (by decide +kernel), if_pos rfl, h0]
      exact mem_singleton.mpr rfl
    · obtain rfl : n = "a" := by simpa [Edge.inputs] using h
      rw [if_pos rfl, h1]
      exact mem_singleton.mpr rfl
    · simp [Edge.inputs] at h

/-- Each of the two nodes leads to the other, so no fuel is enough. -/
theorem cleanTargets_visit_fails : mutualInputs.Connected ∧ ∀ fuel, ∃ t,
    Cleaner.cleanTarget {} fuel "a" { world := mutualInputs } = .error .outOfFuel t := by
  refine ⟨mutualInputs_connected, fun fuel => ?_⟩
  have ha : (mutualInputs.withDyndeps {}).inputsOf "a" = [("b" : Path)] := by decide +kernel
  have hb : (mutualInputs.withDyndeps {}).inputsOf "b" = [("a" : Path)] := by decide +kernel
  have hloop : Visits.Endless (mutualInputs.withDyndeps {}).inputsOf "a" := by
    have hab : Visits.Leads (mutualInputs.withDyndeps {}).inputsOf "a" "b" := by
      rw [Visits.Leads, ha, mem_singleton]
    have hba : Visits.Leads (mutualInputs.withDyndeps {}).inputsOf "b" "a" := by
      rw [Visits.Leads, hb, mem_singleton]
    exact ⟨"a", .refl, .tail (.single hab) hba⟩
  let s : Cleaner := { world := mutualInputs.withDyndeps {} }
  have hwalks := @Cleaner.doCleanTarget_walks {} fuel "a" s
  cases hvisit : Visits.visit s.world.inputsOf fuel "a" s.cleaned with
  | none =>
    rw [hvisit] at hwalks
    obtain ⟨t, ht⟩ := hwalks
    refine ⟨t, ?_⟩
    rw [Cleaner.cleanTarget, bind_apply, modify_apply]
    change (Cleaner.doCleanTarget {} fuel "a" >>= _) s = _
    rw [bind_apply, ht]
  | some marked =>
    have hdone := Visits.visit_done hvisit
    exact absurd hloop (hdone.endless nofun "a" (hdone.targets mem_cons_self))

end Reninja
