import Reninja.Clean.Targets

/-!
# What the cleaner removes

Every call is a sequence of calls of `Remove`, which acts once for each path. Here is which paths
they are, and when they are products of the build.
-/

namespace Reninja

open Program List

namespace Cleaner

variable {cfg : CleanConfig} {s s' s'' : Cleaner} {ps qs : Set Path}

/-- No path was removed twice or counted twice, or is unknown to `removed`. -/
structure Once (s : Cleaner) : Prop where
  removals : s.removals.Nodup
  reports : s.reports.Nodup
  removals_subset : s.removals ⊆ s.removed
  reports_subset : s.reports ⊆ s.removed

/-- The paths `ps` have been removed. -/
structure Clears (ps : Set Path) (s s' : Cleaner) : Prop extends Keeps s s' where
  removed : ∀ p, p ∈ s'.removed ↔ p ∈ s.removed ∨ p ∈ ps
  once : s.Once → s'.Once

lemma Clears.none (s : Cleaner) : Clears ∅ s s := ⟨.refl s, by simp, id⟩

lemma Clears.congr (h : Clears ps s s') (hps : ∀ p, p ∈ ps ↔ p ∈ qs) : Clears qs s s' :=
  ⟨h.toKeeps, fun p => by rw [h.removed, hps], h.once⟩

lemma Clears.trans (h₁ : Clears ps s s') (h₂ : Clears qs s' s'') : Clears (ps ∪ qs) s s'' where
  toKeeps := h₁.toKeeps.trans h₂.toKeeps
  removed p := by rw [h₂.removed, h₁.removed, Set.mem_union, or_assoc]
  once h := h₂.once (h₁.once h)

lemma removeFile_counts (path : Path) : (s.removeFile cfg path).removed = s.removed ∧
    ((s.removeFile cfg path).removals = s.removals ∨
      (s.removeFile cfg path).removals = s.removals ++ [path]) ∧
    ((s.removeFile cfg path).reports = s.reports ∨
      (s.removeFile cfg path).reports = s.reports ++ [path]) := by
  simp only [removeFile, report]
  split_ifs <;> simp

lemma nodup_of_append {l l' removed : List Path} {path : Path} (hl : l.Nodup) (hsub : l ⊆ removed)
    (hpath : path ∉ removed) (h : l' = l ∨ l' = l ++ [path]) :
    l'.Nodup ∧ l' ⊆ removed ++ [path] := by
  rcases h with rfl | rfl
  · exact ⟨hl, List.Subset.trans hsub (subset_append_left _ _)⟩
  · exact ⟨hl.append (nodup_singleton _) (disjoint_singleton.mpr fun h => hpath (hsub h)),
      append_subset.mpr ⟨List.Subset.trans hsub (subset_append_left _ _),
        subset_append_right _ _⟩⟩

lemma remove_clears (path : Path) : Clears {path} s (s.remove cfg path) := by
  refine ⟨(remove_removes path).toKeeps, ?_, ?_⟩ <;> rw [remove] <;> split_ifs with hmem
  · intro p
    refine ⟨.inl, ?_⟩
    rintro (hp | rfl)
    · exact hp
    · exact hmem
  · intro p
    rw [(removeFile_counts path).1]
    simp
  · exact id
  · intro h
    obtain ⟨hremoved, hremovals, hreports⟩ :=
      removeFile_counts (s := { s with removed := s.removed ++ [path] }) path
    obtain ⟨h₁, h₂⟩ := nodup_of_append h.removals h.removals_subset hmem hremovals
    obtain ⟨h₃, h₄⟩ := nodup_of_append h.reports h.reports_subset hmem hreports
    exact ⟨h₁, h₃, hremoved ▸ h₂, hremoved ▸ h₄⟩

lemma foldl_clears {α : Type} {f : Cleaner → α → Cleaner} {ps : α → Set Path} {l : List α}
    (h : ∀ a ∈ l, ∀ t, Keeps s t → Clears (ps a) t (f t a)) :
    Clears {p | ∃ a ∈ l, p ∈ ps a} s (l.foldl f s) := by
  induction l generalizing s with
  | nil => simpa using Clears.none s
  | cons a l ih =>
    have hfirst := h a mem_cons_self s (.refl s)
    have hrest := ih (s := f s a) fun b hb t ht =>
      h b (mem_cons_of_mem a hb) t (hfirst.toKeeps.trans ht)
    exact (hfirst.trans hrest).congr fun p => by simp

end Cleaner

def World.bindingFile (w : World) (e : EdgeId) (k : Key) : List Path :=
  [w.getBinding e k].filter (· ≠ [])

def World.files (w : World) (e : EdgeId) : List Path :=
  (w.edges e).outputs ++ w.bindingFile e .depfile ++ w.bindingFile e .rspfile

namespace Cleaner

variable {cfg : CleanConfig} {s s' : Cleaner}

lemma Keeps.files (h : Keeps s s') (e : EdgeId) : s'.world.files e = s.world.files e := by
  rw [h.world]
  rfl

lemma Keeps.nodes (h : Keeps s s') : s'.world.nodes = s.world.nodes := by rw [h.world]

lemma Keeps.bindingFile (h : Keeps s s') (e : EdgeId) (k : Key) :
    s'.world.bindingFile e k = s.world.bindingFile e k := by
  rw [h.world]
  rfl

lemma removeBinding_clears (e : EdgeId) (k : Key) :
    Clears {p | p ∈ s.world.bindingFile e k} s (s.removeBinding cfg e k) := by
  rw [removeBinding, World.bindingFile]
  split_ifs with h
  · simpa [h] using remove_clears (s := s) (s.world.getBinding e k)
  · simpa [not_not.mp h] using Clears.none s

lemma removeAll_clears (paths : List Path) :
    Clears {p | p ∈ paths} s (s.removeAll cfg paths) := by
  have h : Clears {p | ∃ a ∈ paths, p ∈ ({a} : Set Path)} s (s.removeAll cfg paths) :=
    foldl_clears fun p _ t _ => remove_clears p
  exact h.congr fun p => by simp

lemma removeEdgeFiles_clears (e : EdgeId) :
    Clears {p | p ∈ s.world.bindingFile e .depfile ++ s.world.bindingFile e .rspfile} s
      (s.removeEdgeFiles cfg e) := by
  have h₁ := @removeBinding_clears cfg s e .depfile
  have h₂ := @removeBinding_clears cfg (s.removeBinding cfg e .depfile) e .rspfile
  rw [h₁.toKeeps.bindingFile] at h₂
  exact (h₁.trans h₂).congr fun p => by simp

lemma removeFiles_clears (e : EdgeId) :
    Clears {p | p ∈ s.world.files e} s
      ((s.removeAll cfg (s.world.edges e).outputs).removeEdgeFiles cfg e) := by
  have h₁ := @removeAll_clears cfg s (s.world.edges e).outputs
  have h₂ := @removeEdgeFiles_clears cfg (s.removeAll cfg (s.world.edges e).outputs) e
  rw [h₁.toKeeps.bindingFile, h₁.toKeeps.bindingFile] at h₂
  exact (h₁.trans h₂).congr fun p => by simp [World.files]

/-! ### The calls -/

def skips (w : World) (generator : Bool) (e : EdgeId) : Bool :=
  (w.edges e).phony || !generator && w.getBindingBool e .generator

lemma cleanEdge_clears (generator : Bool) (e : EdgeId) :
    Clears {p | skips s.world generator e = false ∧ p ∈ s.world.files e} s
      (cleanEdge cfg generator s e) := by
  rw [cleanEdge]
  split_ifs with hphony hgen
  · exact (Clears.none s).congr fun p => by simp [skips, hphony]
  · exact (Clears.none s).congr fun p => by simp [skips, hgen]
  · exact (removeFiles_clears e).congr fun p => by simp [skips, hphony, hgen]

lemma Keeps.skips (h : Keeps s s') (generator : Bool) (e : EdgeId) :
    skips s'.world generator e = skips s.world generator e := by
  rw [h.world]
  rfl

lemma Keeps.edgeIds (h : Keeps s s') : s'.edgeIds = s.edgeIds := by
  rw [Cleaner.edgeIds, h.world]
  rfl

lemma cleanAll_clears (generator : Bool) :
    Clears {p | ∃ e ∈ (s.start cfg).edgeIds,
      skips (s.start cfg).world generator e = false ∧ p ∈ (s.start cfg).world.files e}
      (s.start cfg) (s.cleanAll cfg generator) := by
  refine foldl_clears fun e _ t ht => ?_
  rw [← ht.skips, ← ht.files]
  exact cleanEdge_clears generator e

lemma cleanRuleEdge_clears (rule : GoString) (e : EdgeId) :
    Clears {p | cfg.ruleName e = rule ∧ (s.world.edges e).outputs ≠ [] ∧ p ∈ s.world.files e} s
      (cleanRuleEdge cfg rule s e) := by
  rw [cleanRuleEdge]
  split_ifs with hrule
  · have h : Clears {p | ∃ o ∈ (s.world.edges e).outputs, p ∈ ({o} : Set Path) ∪
        {p | p ∈ s.world.bindingFile e .depfile ++ s.world.bindingFile e .rspfile}} s
        ((s.world.edges e).outputs.foldl
          (fun s o => (s.remove cfg o).removeEdgeFiles cfg e) s) := by
      refine foldl_clears fun o _ t ht => ?_
      have ho := @remove_clears cfg t o
      rw [← ht.bindingFile, ← ht.bindingFile, ← ho.toKeeps.bindingFile, ← ho.toKeeps.bindingFile]
      exact ho.trans (removeEdgeFiles_clears e)
    refine h.congr fun p => ?_
    cases hout : (s.world.edges e).outputs with
    | nil => simp
    | cons o os =>
      simp only [World.files, hout, Set.mem_union, Set.mem_ofPred_eq, Set.mem_singleton_iff,
        mem_append, ne_eq, reduceCtorEq, not_false_eq_true, true_and, hrule]
      constructor
      · rintro ⟨x, hx, rfl | hp | hp⟩
        · exact .inl (.inl hx)
        · exact .inl (.inr hp)
        · exact .inr hp
      · rintro ((hp | hp) | hp)
        · exact ⟨p, hp, .inl rfl⟩
        · exact ⟨o, mem_cons_self, .inr (.inl hp)⟩
        · exact ⟨o, mem_cons_self, .inr (.inr hp)⟩
  · exact (Clears.none s).congr fun p => by simp [hrule]

lemma doCleanRule_clears (rule : GoString) :
    Clears {p | ∃ e ∈ s.edgeIds, cfg.ruleName e = rule ∧ (s.world.edges e).outputs ≠ [] ∧
      p ∈ s.world.files e} s (s.doCleanRule cfg rule) := by
  refine foldl_clears fun e _ t ht => ?_
  rw [← ht.edges, ← ht.files]
  exact cleanRuleEdge_clears rule e

lemma cleanNamedRule_clears (name : GoString) :
    Clears {p | cfg.hasRule name = true ∧ ∃ e ∈ s.edgeIds, cfg.ruleName e = name ∧
      (s.world.edges e).outputs ≠ [] ∧ p ∈ s.world.files e} s (cleanNamedRule cfg s name) := by
  rw [cleanNamedRule]
  split_ifs with hrule
  · exact (doCleanRule_clears name).congr fun p => by simp [hrule]
  · have h : Clears ∅ s { s with status := 1 } :=
      ⟨⟨rfl⟩, by simp, fun h => ⟨h.removals, h.reports, h.removals_subset, h.reports_subset⟩⟩
    exact h.congr fun p => by simp [hrule]

lemma cleanRules_clears (names : List GoString) :
    Clears {p | ∃ name ∈ names, cfg.hasRule name = true ∧ ∃ e ∈ (s.start cfg).edgeIds,
      cfg.ruleName e = name ∧ ((s.start cfg).world.edges e).outputs ≠ [] ∧
        p ∈ (s.start cfg).world.files e} (s.start cfg) (s.cleanRules cfg names) := by
  refine foldl_clears fun name _ t ht => ?_
  simp only [← ht.edgeIds, ← ht.edges, ← ht.files]
  exact cleanNamedRule_clears name

lemma cleanEntry_clears (path : Path) :
    Clears {p | p = path ∧ (s.world.nodes p).inEdge = none ∧ (s.world.nodes p).outEdges = []} s
      (cleanEntry cfg s path) := by
  rw [cleanEntry]
  split_ifs with h
  · refine (remove_clears path).congr fun p => ⟨?_, fun hp => hp.1⟩
    rintro rfl
    exact ⟨rfl, h⟩
  · refine (Clears.none s).congr fun p => ⟨nofun, ?_⟩
    rintro ⟨rfl, hp⟩
    exact absurd hp h

end Cleaner

/-! ### Products -/

/-- An output, the depfile or the response file of an edge that is not phony. -/
def World.Product (w : World) (p : Path) : Prop :=
  ∃ e < w.edgeCount, (w.edges e).phony = false ∧ p ∈ w.files e

def World.Unused (w : World) (p : Path) : Prop :=
  ∀ e < w.edgeCount, p ∉ (w.edges e).outputs ∧ p ∉ (w.edges e).inputs ∧ p ∉ (w.edges e).validations

instance (w : World) (p : Path) : Decidable (w.Product p) :=
  inferInstanceAs (Decidable (∃ e < w.edgeCount, (w.edges e).phony = false ∧ p ∈ w.files e))

instance (w : World) (p : Path) : Decidable (w.Unused p) :=
  inferInstanceAs (Decidable (∀ e < w.edgeCount, p ∉ (w.edges e).outputs ∧
    p ∉ (w.edges e).inputs ∧ p ∉ (w.edges e).validations))

/-- The calls of the cleaner, with the fuel where they have one. -/
inductive CleanCall where
  | all (generator : Bool)
  | target (fuel : Nat) (n : Path)
  | targets (fuel : Nat) (names : List GoString)
  | rule (name : GoString)
  | rules (names : List GoString)
  | dead (entries : List Path)

namespace CleanCall

variable (cfg : CleanConfig)

def run (s : Cleaner) : CleanCall → Cleaner
  | .all generator => s.cleanAll cfg generator
  | .target fuel n => finalState (Cleaner.cleanTarget cfg fuel n s)
  | .targets fuel names => finalState (Cleaner.cleanTargets cfg fuel names s)
  | .rule name => s.cleanRule cfg name
  | .rules names => s.cleanRules cfg names
  | .dead entries => s.cleanDead cfg entries

/-- What a call may remove, in the graph with the dyndep files. -/
def May (g : World) (p : Path) : CleanCall → Prop
  | .dead entries => p ∈ entries ∧ g.Unused p
  | _ => g.Product p

def ruleNames : CleanCall → List GoString
  | .rule name => [name]
  | .rules names => names.filter (cfg.hasRule ·)
  | _ => []

/-- The entries of the build log that a call looks at. -/
def entries : CleanCall → List Path
  | .dead entries => entries
  | _ => []

/-- When a call does no harm: the files of a phony edge are not removed with its rule, unless they
are products of another edge, and an output or a validation of an edge is known as such by its
node. -/
structure Harmless (g : World) (call : CleanCall) : Prop where
  rules : ∀ e < g.edgeCount, cfg.ruleName e ∈ call.ruleNames cfg → (g.edges e).phony = true →
    (g.edges e).outputs ≠ [] → ∀ p ∈ g.files e, g.Product p
  entries : ∀ e < g.edgeCount, ∀ p ∈ (g.edges e).outputs ++ (g.edges e).validations,
    p ∈ call.entries → (g.nodes p).inEdge ≠ none ∨ (g.nodes p).outEdges ≠ []

end CleanCall

/-! ### Targets -/

namespace Cleaner

variable {cfg : CleanConfig} {s s' : Cleaner}

lemma Keeps.product (h : Keeps s s') (p : Path) : s'.world.Product p ↔ s.world.Product p := by
  rw [h.world]
  rfl

lemma Keeps.connected (h : Keeps s s') (hs : s.world.Connected) : s'.world.Connected := by
  rw [h.world]
  exact ⟨hs.producer, hs.inputs⟩

def ClearsProducts (s s' : Cleaner) : Prop := ∃ ps, Clears ps s s' ∧ ∀ p ∈ ps, s.world.Product p

instance : Std.Refl ClearsProducts := ⟨fun s => ⟨∅, .none s, nofun⟩⟩

instance : IsTrans Cleaner ClearsProducts where
  trans := by
    rintro s s' s'' ⟨ps, hps, hp⟩ ⟨qs, hqs, hq⟩
    refine ⟨ps ∪ qs, hps.trans hqs, ?_⟩
    rintro p (h | h)
    · exact hp p h
    · exact (hps.toKeeps.product p).mp (hq p h)

lemma ClearsProducts.connected (h : ClearsProducts s s') (hs : s.world.Connected) :
    s'.world.Connected := by
  obtain ⟨ps, hps, -⟩ := h
  exact hps.toKeeps.connected hs

lemma clearsProducts_of_eq (hworld : s'.world = s.world) (hremoved : s'.removed = s.removed)
    (hremovals : s'.removals = s.removals) (hreports : s'.reports = s.reports) :
    ClearsProducts s s' := by
  refine ⟨∅, ⟨⟨by rw [hworld]⟩, by simp [hremoved], fun h => ?_⟩, nofun⟩
  refine ⟨?_, ?_, ?_, ?_⟩
  · exact hremovals ▸ h.removals
  · exact hreports ▸ h.reports
  · exact hremovals ▸ hremoved ▸ h.removals_subset
  · exact hreports ▸ hremoved ▸ h.reports_subset

lemma cleanOutput_clearsProducts (hs : s.world.Connected) {n : Path} {e : EdgeId}
    (he : s.world.producer n = some e) : ClearsProducts s (s.cleanOutput cfg n e) := by
  obtain ⟨hlt, hout⟩ := hs.producer n e he
  rw [cleanOutput]
  split_ifs with hphony
  · exact Std.Refl.refl s
  · have h₁ := @remove_clears cfg s n
    have h₂ := @removeEdgeFiles_clears cfg (s.remove cfg n) e
    rw [h₁.toKeeps.bindingFile, h₁.toKeeps.bindingFile] at h₂
    refine ⟨_, h₁.trans h₂, fun p hp => ⟨e, hlt, by simpa using hphony, ?_⟩⟩
    rw [World.files, append_assoc, mem_append]
    rcases hp with rfl | hp
    · exact .inl hout
    · exact .inr hp

lemma doCleanTarget_clearsProducts (fuel : Nat) (n : Path) (hs : s.world.Connected) :
    Moves ClearsProducts s (doCleanTarget cfg fuel n) := by
  induction fuel generalizing n s with
  | zero => exact .throw _
  | succ fuel ih =>
    rw [doCleanTarget]
    refine .get_bind ?_
    have hmark : ∀ t, Moves ClearsProducts t
        (modify fun s => { s with cleaned := s.cleaned ++ [n] } : EStateM Failure Cleaner Unit) :=
      fun t => .modify (clearsProducts_of_eq rfl rfl rfl rfl)
    cases he : s.world.producer n with
    | none => exact hmark s
    | some e =>
      have hout : ClearsProducts s (s.cleanOutput cfg n e) := cleanOutput_clearsProducts hs he
      refine .bind (.modify hout) fun _ t ht => .get_bind ?_
      obtain rfl := modify_ok.mp ht
      refine .bind ?_ fun _ t _ => hmark t
      refine .forEach_of (I := fun t => t.world.Connected) (fun a b ha hab => hab.connected ha)
        (fun m _ t ht => .get_bind (.ite (fun _ => ih m ht) fun _ => .pure _)) ?_
      exact hout.connected hs

lemma cleanNamedTarget_clearsProducts (fuel : Nat) (name : GoString) (hs : s.world.Connected) :
    Moves ClearsProducts s (cleanNamedTarget cfg fuel name) := by
  have hstatus : Moves ClearsProducts s
      (modify fun s => { s with status := 1 } : EStateM Failure Cleaner Unit) :=
    Moves.modify (clearsProducts_of_eq rfl rfl rfl rfl)
  exact .ite (fun _ => hstatus) fun _ =>
    Moves.ite (fun _ => doCleanTarget_clearsProducts fuel _ hs) fun _ => hstatus

lemma cleanTarget_clearsProducts (fuel : Nat) (n : Path) (hs : (s.start cfg).world.Connected) :
    ClearsProducts (s.start cfg) (finalState (cleanTarget cfg fuel n s)) :=
  Moves.bind (doCleanTarget_clearsProducts fuel n hs) fun _ _ _ => .get_bind (.pure _)

lemma cleanTargets_clearsProducts (fuel : Nat) (names : List GoString)
    (hs : (s.start cfg).world.Connected) :
    ClearsProducts (s.start cfg) (finalState (cleanTargets cfg fuel names s)) :=
  Moves.bind (.forEach_of (I := fun t => t.world.Connected) (fun _ _ ha hab => hab.connected ha)
    (fun name _ _ ht => cleanNamedTarget_clearsProducts fuel name ht) hs)
    fun _ _ _ => .get_bind (.pure _)

end Cleaner

/-! ### All calls -/

namespace CleanCall

variable {cfg : CleanConfig} {s : Cleaner}
variable {call : CleanCall} {t : Cleaner}

lemma removes_iff {ps : Set Path} (h : Cleaner.Clears ps (s.start cfg) t) {P : Path → Prop} :
    ((∀ p ∈ t.removed, P p) ∧ t.Once) ↔ ∀ p ∈ ps, P p := by
  have hmem : ∀ p, p ∈ t.removed ↔ p ∈ ps := fun p => by simpa [Cleaner.start] using h.removed p
  have honce : t.Once := h.once ⟨nodup_nil, nodup_nil, nofun, nofun⟩
  simp only [hmem, honce, and_true]

/-- A call that is neither about rules nor about the build log. -/
lemma harmless_of_nil {g : World} {call : CleanCall} (hrules : call.ruleNames cfg = [])
    (hentries : call.entries = []) : call.Harmless cfg g := by
  constructor
  · intro e _ he
    exact absurd (hrules ▸ he) not_mem_nil
  · intro e _ p _ hp
    exact absurd (hentries ▸ hp) not_mem_nil

lemma products_iff_harmless (hrules : call.ruleNames cfg = []) (hentries : call.entries = [])
    (h : Cleaner.ClearsProducts (s.start cfg) t) :
    ((∀ p ∈ t.removed, (s.world.withDyndeps cfg.env).Product p) ∧ t.Once) ↔
      call.Harmless cfg (s.world.withDyndeps cfg.env) := by
  obtain ⟨ps, hps, hp⟩ := h
  rw [removes_iff hps]
  exact ⟨fun _ => harmless_of_nil hrules hentries, fun _ => hp⟩

lemma rules_iff_harmless {t : Cleaner} {call : CleanCall} (hentries : call.entries = [])
    (h : Cleaner.Clears {p | ∃ e ∈ (s.start cfg).edgeIds, cfg.ruleName e ∈ call.ruleNames cfg ∧
      ((s.start cfg).world.edges e).outputs ≠ [] ∧ p ∈ (s.start cfg).world.files e}
      (s.start cfg) t) :
    ((∀ p ∈ t.removed, (s.world.withDyndeps cfg.env).Product p) ∧ t.Once) ↔
      call.Harmless cfg (s.world.withDyndeps cfg.env) := by
  rw [removes_iff h]
  constructor
  · intro hall
    refine ⟨fun e he hrule _ hout p hp => hall p ⟨e, mem_range.mpr he, hrule, hout, hp⟩, ?_⟩
    intro e _ p _ hp
    exact absurd (hentries ▸ hp) not_mem_nil
  · rintro hharmless p ⟨e, he, hrule, hout, hp⟩
    have hlt := mem_range.mp he
    cases hphony : ((s.start cfg).world.edges e).phony with
    | false => exact ⟨e, hlt, hphony, hp⟩
    | true => exact hharmless.rules e hlt hrule hphony hout p hp

lemma dead_iff_harmless (hg : (s.start cfg).world.Connected) (entries : List Path) :
    ((∀ p ∈ (s.cleanDead cfg entries).removed, p ∈ entries ∧
        (s.world.withDyndeps cfg.env).Unused p) ∧ (s.cleanDead cfg entries).Once) ↔
      (CleanCall.dead entries).Harmless cfg (s.world.withDyndeps cfg.env) := by
  have h : Cleaner.Clears {p | ∃ q ∈ entries, p ∈ {p | p = q ∧
      ((s.start cfg).world.nodes p).inEdge = none ∧ ((s.start cfg).world.nodes p).outEdges = []}}
      (s.start cfg) (s.cleanDead cfg entries) := by
    refine Cleaner.foldl_clears fun q _ t ht => ?_
    rw [← ht.nodes]
    exact Cleaner.cleanEntry_clears q
  rw [removes_iff h]
  constructor
  · intro hall
    refine ⟨fun e _ he => absurd he not_mem_nil, fun e he p hp hentry => ?_⟩
    by_contra hnone
    obtain ⟨hin, hout⟩ := not_or.mp hnone
    obtain ⟨-, hunused⟩ := hall p ⟨p, hentry, rfl, not_not.mp hin, not_not.mp hout⟩
    rcases mem_append.mp hp with hp | hp
    · exact (hunused e he).1 hp
    · exact (hunused e he).2.2 hp
  · rintro hharmless p ⟨q, hentry, rfl, hin, hout⟩
    have hnot : ¬ (((s.start cfg).world.nodes p).inEdge ≠ none ∨
        ((s.start cfg).world.nodes p).outEdges ≠ []) := by simp [hin, hout]
    refine ⟨hentry, fun e he => ⟨fun hp => ?_, fun hp => ?_, fun hp => ?_⟩⟩
    · exact hnot (hharmless.entries e he p (mem_append_left _ hp) hentry)
    · exact absurd (hout ▸ hg.inputs e p hp) not_mem_nil
    · exact hnot (hharmless.entries e he p (mem_append_right _ hp) hentry)

/-- The cleaner removes products of the build only, and each path once, exactly if the call is
harmless in the graph with the dyndep files. -/
theorem run_removes_iff (hw : s.world.Connected) (call : CleanCall) :
    ((∀ p ∈ (call.run cfg s).removed, call.May (s.world.withDyndeps cfg.env) p) ∧
      (call.run cfg s).Once) ↔ call.Harmless cfg (s.world.withDyndeps cfg.env) := by
  have hg : (s.start cfg).world.Connected := World.withDyndeps_connected hw
  cases call with
  | all generator =>
    refine products_iff_harmless rfl rfl ⟨_, Cleaner.cleanAll_clears generator, ?_⟩
    rintro p ⟨e, he, hskips, hp⟩
    exact ⟨e, mem_range.mp he, (Bool.or_eq_false_iff.mp hskips).1, hp⟩
  | target fuel n =>
    exact products_iff_harmless rfl rfl (Cleaner.cleanTarget_clearsProducts fuel n hg)
  | targets fuel names =>
    exact products_iff_harmless rfl rfl (Cleaner.cleanTargets_clearsProducts fuel names hg)
  | rule name =>
    refine rules_iff_harmless rfl ((Cleaner.doCleanRule_clears name).congr fun p => ?_)
    simp [ruleNames]
  | rules names =>
    refine rules_iff_harmless rfl ((Cleaner.cleanRules_clears names).congr fun p => ?_)
    simp only [ruleNames, mem_filter, Set.mem_ofPred_eq]
    constructor
    · rintro ⟨name, hname, hrule, e, he, rfl, hp⟩
      exact ⟨e, he, ⟨hname, hrule⟩, hp⟩
    · rintro ⟨e, he, ⟨hname, hrule⟩, hp⟩
      exact ⟨_, hname, hrule, e, he, rfl, hp⟩
  | dead entries => exact dead_iff_harmless hg entries

/-- `build out: cc |@ check` and `build all: phony out`. -/
def checkedAlias : World where
  nodes n :=
    if n = "out" then { inEdge := some 0, outEdges := [1], generatedByDepLoader := false }
    else if n = "all" then { inEdge := some 1, generatedByDepLoader := false }
    else if n = "check" then { generatedByDepLoader := false }
    else {}
  edges e :=
    if e = 0 then { outputs := ["out"], validations := ["check"] }
    else if e = 1 then { phony := true, explicitInputs := ["out"], outputs := ["all"] }
    else {}
  edgeCount := 2

def checkedAliasRules : CleanConfig where
  ruleName e := if e = 0 then "cc" else "phony"

lemma checkedAlias_connected : checkedAlias.Connected := by
  constructor
  · intro n e h
    simp only [World.producer, checkedAlias] at h ⊢
    split_ifs at h with hout hall
    · obtain rfl := Option.some.inj h
      simp [hout]
    · obtain rfl := Option.some.inj h
      simp [hall]
  · intro e n h
    simp only [checkedAlias] at h ⊢
    split_ifs at h with h0 h1
    · simp [Edge.inputs] at h
    · obtain rfl : n = "out" := by simpa [Edge.inputs] using h
      rw [if_pos rfl, h1]
      exact mem_singleton.mpr rfl
    · simp [Edge.inputs] at h

theorem run_removes_cc : checkedAlias.Connected ∧
    (∀ p ∈ ((CleanCall.rules ["cc"]).run checkedAliasRules { world := checkedAlias }).removed,
      (CleanCall.rules ["cc"]).May (checkedAlias.withDyndeps {}) p) ∧
    ((CleanCall.rules ["cc"]).run checkedAliasRules { world := checkedAlias }).Once := by
  refine ⟨checkedAlias_connected, (run_removes_iff
    (s := { world := checkedAlias }) checkedAlias_connected (.rules ["cc"])).mpr ?_⟩
  refine ⟨fun e he hrule hphony => ?_, fun e _ p _ hp => absurd hp not_mem_nil⟩
  have hone : ∀ e < 2, checkedAliasRules.ruleName e ∈ (CleanCall.rules ["cc"]).ruleNames
      checkedAliasRules → ((checkedAlias.withDyndeps {}).edges e).phony = false := by
    decide +kernel
  exact absurd (hphony.symm.trans (hone e he hrule)) (by simp)

/-- The rule of a phony edge takes its output along, and a file that is only a validation counts as
one that the graph does not have. -/
theorem run_removes_fails : checkedAlias.Connected ∧
    (("all" : Path) ∈ ((CleanCall.rules ["phony"]).run checkedAliasRules
      { world := checkedAlias }).removals ∧
      ¬ (CleanCall.rules ["phony"]).May (checkedAlias.withDyndeps {}) "all") ∧
    ("check" : Path) ∈ ((CleanCall.dead ["check"]).run checkedAliasRules
      { world := checkedAlias }).removals ∧
      ¬ (CleanCall.dead ["check"]).May (checkedAlias.withDyndeps {}) "check" := by
  have hall : ¬ (checkedAlias.withDyndeps {}).Product "all" := by decide +kernel
  have hcheck : ¬ (checkedAlias.withDyndeps {}).Unused "check" := by decide +kernel
  exact ⟨checkedAlias_connected, ⟨by decide +kernel, hall⟩, by decide +kernel, fun h => hcheck h.2⟩

end CleanCall

end Reninja
