import Reninja.Plan.Counters
import Reninja.Scan.Restat
import Reninja.Scan.Spec

/-!
# What `CleanNode` may clean

`CleanNode` takes an edge out of the wanted ones when its inputs seem to be clean and its outputs
are not dirty. It looks for a dirty input by a binary search, which finds one only at the places it
looks at. This file says what cleaning changes, and when the edges that it un-wants are clean.
-/

namespace Reninja

open Program World List

/-! ### What cleaning changes -/

/-- Cleaning changes the dirty flags and the times of nodes in `S`: nodes only become clean, and
only outputs of phony edges get another time. -/
structure Cleaned (S : Path → Prop) (w w' : World) : Prop where
  ground : SameGround w w'
  edges : w'.edges = w.edges
  outEdges : ∀ n, (w'.nodes n).outEdges = (w.nodes n).outEdges
  existence : ∀ n, (w'.nodes n).existence = (w.nodes n).existence
  dirty : ∀ n, (w'.nodes n).dirty = true → (w.nodes n).dirty = true
  mtime : ∀ n, (∀ f, n ∈ (w.edges f).outputs → (w.edges f).phony = false) →
    (w'.nodes n).mtime = (w.nodes n).mtime
  others : ∀ n, ¬ S n → w'.nodes n = w.nodes n
  trace : w.trace <+: w'.trace

section Cleaned

variable {S T : Path → Prop} {env : Env} {w w' : World} {e : EdgeId} {n : Path}
  {newest : Option Path} {command : GoString}

instance : Std.Refl (Cleaned S) :=
  ⟨fun w => ⟨.refl w, rfl, fun _ => rfl, fun _ => rfl, fun _ h => h, fun _ _ => rfl, fun _ _ => rfl,
    prefix_rfl⟩⟩

instance : IsTrans World (Cleaned S) where
  trans _ _ _ h₁ h₂ :=
    { ground := h₁.ground.trans h₂.ground
      edges := h₂.edges.trans h₁.edges
      outEdges := fun n => (h₂.outEdges n).trans (h₁.outEdges n)
      existence := fun n => (h₂.existence n).trans (h₁.existence n)
      dirty := fun n h => h₁.dirty n (h₂.dirty n h)
      mtime := fun n h => (h₂.mtime n (by rwa [h₁.edges])).trans (h₁.mtime n h)
      others := fun n h => (h₂.others n h).trans (h₁.others n h)
      trace := h₁.trace.trans h₂.trace }

lemma Cleaned.mono (h : Cleaned S w w') (hST : ∀ n, S n → T n) : Cleaned T w w' :=
  { h with others := fun n hn => h.others n fun hS => hn (hST n hS) }

lemma Cleaned.sameLinks {g : World} (h : Cleaned S w w') (hg : g.SameLinks w) : g.SameLinks w' :=
  ⟨fun e => by rw [h.edges, hg.1], fun n => (h.outEdges n).trans (hg.2 n)⟩

lemma sameGround_of_nodes {g : World} (hdisk : g.disk = w.disk) (hbuild : g.buildLog = w.buildLog)
    (hdeps : g.depsLog = w.depsLog) (hscopes : g.scopes = w.scopes) (hedges : g.edges = w.edges)
    (hnodes : ∀ n, (g.nodes n).inEdge = (w.nodes n).inEdge ∧
      (g.nodes n).dyndepPending = (w.nodes n).dyndepPending) : SameGround w g :=
  ⟨hdisk, hbuild, hdeps, hscopes, fun n => (hnodes n).1, fun n => (hnodes n).2,
    fun e => by rw [hedges]; exact .refl _⟩

/-- A node that may be touched becomes clean, or gets another time. -/
lemma cleaned_setNode {g : Node → Node} (hn : S n)
    (hinEdge : (g (w.nodes n)).inEdge = (w.nodes n).inEdge)
    (hpending : (g (w.nodes n)).dyndepPending = (w.nodes n).dyndepPending)
    (houtEdges : (g (w.nodes n)).outEdges = (w.nodes n).outEdges)
    (hexistence : (g (w.nodes n)).existence = (w.nodes n).existence)
    (hdirty : (g (w.nodes n)).dirty = true → (w.nodes n).dirty = true)
    (hmtime : (∀ f, n ∈ (w.edges f).outputs → (w.edges f).phony = false) →
      (g (w.nodes n)).mtime = (w.nodes n).mtime) : Cleaned S w (w.setNode n g) := by
  refine ⟨sameGround_of_nodes rfl rfl rfl rfl rfl ?_, rfl, ?_, ?_, ?_, ?_, fun m hm => ?_,
    prefix_rfl⟩
  · exact setNode_forall (P := fun _ x y => y.inEdge = x.inEdge ∧ y.dyndepPending = x.dyndepPending)
      (fun _ _ => ⟨rfl, rfl⟩) ⟨hinEdge, hpending⟩
  · exact setNode_forall (P := fun _ x y => y.outEdges = x.outEdges) (fun _ _ => rfl) houtEdges
  · exact setNode_forall (P := fun _ x y => y.existence = x.existence) (fun _ _ => rfl) hexistence
  · exact setNode_forall (P := fun _ x y => y.dirty = true → x.dirty = true) (fun _ _ h => h) hdirty
  · exact setNode_forall
      (P := fun m x y => (∀ f, m ∈ (w.edges f).outputs → (w.edges f).phony = false) →
        y.mtime = x.mtime) (fun _ _ _ => rfl) hmtime
  · refine setNode_nodes_ne _ fun heq => hm (heq ▸ hn)

lemma cleaned_setClean (hn : S n) :
    Cleaned S w (w.setNode n fun m => { m with dirty := false }) :=
  cleaned_setNode hn rfl rfl rfl rfl (fun h => nomatch h) fun _ => rfl

lemma cleaned_setTime {t : TimeStamp} (hn : S n) (hout : n ∈ (w.edges e).outputs)
    (hphony : (w.edges e).phony = true) :
    Cleaned S w (w.setNode n fun m => { m with mtime := t }) :=
  cleaned_setNode hn rfl rfl rfl rfl (fun h => h) fun hnone => by
    rw [hnone e hout] at hphony
    cases hphony

lemma cleaned_unwant (w : World) (e : EdgeId) : Cleaned S w (w.unwant e) := by
  rw [unwant_eq]
  exact ⟨sameGround_of_nodes rfl rfl rfl rfl rfl fun _ => ⟨rfl, rfl⟩, rfl, fun _ => rfl,
    fun _ => rfl, fun _ h => h, fun _ _ => rfl, fun _ _ => rfl, prefix_append _ _⟩

lemma Cleaned.outputDirty_phony (h : Cleaned S w w') (hphony : (w.edges e).phony = true)
    (o : Path) : outputDirty env w' e newest command o = outputDirty env w e newest command o := by
  simp only [outputDirty, h.edges, hphony, if_true, Node.exists, h.existence]

lemma recomputeOutputDirty_cleaned (env : Env) (newest : Option Path) (command : GoString)
    {o : Path} (ho : o ∈ (w.edges e).outputs) :
    ∃ w', recomputeOutputDirty env e newest command o w =
        .ok (outputDirty env w e newest command o) w' ∧
      Cleaned (· ∈ (w.edges e).outputs) w w' ∧ w'.trace = w.trace ∧ w'.want = w.want := by
  cases newest with
  | none => exact ⟨w, rfl, Std.Refl.refl w, rfl, rfl⟩
  | some i =>
    simp only [recomputeOutputDirty, bind_apply, get_apply]
    split
    next hupdate => exact ⟨_, rfl, cleaned_setTime ho ho hupdate.1, rfl, rfl⟩
    next => exact ⟨w, rfl, Std.Refl.refl w, rfl, rfl⟩

lemma anyDirty_cleaned {os : List Path} (hphony : (w.edges e).phony = true)
    (hos : ∀ o ∈ os, o ∈ (w.edges e).outputs) :
    ∃ w', recomputeOutputsDirty.anyDirty env e newest command os w =
        .ok (os.any (outputDirty env w e newest command)) w' ∧
      Cleaned (· ∈ (w.edges e).outputs) w w' ∧ w'.trace = w.trace ∧ w'.want = w.want := by
  induction os generalizing w with
  | nil => exact ⟨w, rfl, Std.Refl.refl w, rfl, rfl⟩
  | cons o os ih =>
    obtain ⟨ho, hos⟩ := forall_mem_cons.mp hos
    obtain ⟨w₁, hone, hcleaned, htrace, hwant⟩ := recomputeOutputDirty_cleaned env newest command ho
    rw [recomputeOutputsDirty.anyDirty, bind_apply, hone, any_cons]
    cases hd : outputDirty env w e newest command o with
    | true => exact ⟨w₁, rfl, hcleaned, htrace, hwant⟩
    | false =>
      obtain ⟨w', hrest, hcleaned', htrace', hwant'⟩ := ih (w := w₁) (by rwa [hcleaned.edges])
        (by rwa [hcleaned.edges])
      have hsame : outputDirty env w₁ e newest command = outputDirty env w e newest command :=
        funext (hcleaned.outputDirty_phony hphony)
      rw [hcleaned.edges] at hcleaned'
      refine ⟨w', ?_, IsTrans.trans _ _ _ hcleaned hcleaned', htrace'.trans htrace,
        hwant'.trans hwant⟩
      rw [hsame] at hrest
      exact hrest

lemma recomputeOutputsDirty_cleaned (env : Env) (w : World) (e : EdgeId) (newest : Option Path) :
    ∃ w', recomputeOutputsDirty env e newest w =
        .ok ((w.edges e).outputs.any (outputDirty env w e newest (w.evaluateCommand e true))) w' ∧
      Cleaned (· ∈ (w.edges e).outputs) w w' ∧ w'.trace = w.trace ∧ w'.want = w.want := by
  cases hphony : (w.edges e).phony with
  | true => exact anyDirty_cleaned hphony fun _ ho => ho
  | false => exact ⟨w, recomputeOutputsDirty_apply (by simp [hphony]), Std.Refl.refl w, rfl, rfl⟩

end Cleaned

/-! ### One out edge -/

def World.newestInput (w : World) (e : EdgeId) : Option Path :=
  mostRecent w (w.edges e).nonOrderOnlyInputs

def World.dirtyAt (w : World) (e : EdgeId) (k : Nat) : Bool :=
  (w.nodes ((w.edges e).nonOrderOnlyInputs.getD k [])).dirty

/-- The indices of inputs that the binary search looks at, as long as it finds no dirty one. -/
def World.searched (w : World) (e : EdgeId) : List Nat :=
  Search.probes (w.edges e).nonOrderOnlyInputs.length

/-- An edge that `CleanNode` compares the outputs of: it is wanted, its dependencies are there, and
no dirty input is found. -/
structure SeemsClean (w : World) (e : EdgeId) : Prop where
  wanted : e ∈ w.wantedSet
  deps : (w.edges e).depsMissing = false
  inputs : ∀ k ∈ w.searched e, w.dirtyAt e k = false

section CleanEdge

variable {env : Env} {clean : Path → M Unit} {w g : World} {e : EdgeId}

/-- The part of the visit to an out edge that comes after the tests of its inputs. -/
def finishClean (clean : Path → M Unit) (e : EdgeId) (outputs : List Path) (dirty : Bool) :
    M Unit :=
  if dirty then pure ()
  else do
    forEach outputs clean
    modify fun w => w.unwant e

lemma cleanEdge_wanted (h : e ∈ w.wantedSet) :
    cleanEdge env clean e w =
      (if (w.edges e).depsMissing then pure ()
        else if Search.search (w.edges e).nonOrderOnlyInputs.length (w.dirtyAt e) =
          (w.edges e).nonOrderOnlyInputs.length then
          recomputeOutputsDirty env e (w.newestInput e) >>= finishClean clean e (w.edges e).outputs
        else pure ()) w := by
  rw [cleanEdge, bind_apply, get_apply]
  cases hwant : w.want e with
  | none => exact absurd hwant h.1
  | some v =>
    cases v with
    | nothing => exact absurd hwant h.2
    | toStart =>
      simp only [hwant]
      rfl
    | toFinish =>
      simp only [hwant]
      rfl

lemma cleanEdge_unwanted (h : e ∉ w.wantedSet) : cleanEdge env clean e w = .ok () w := by
  rw [cleanEdge, bind_apply, get_apply]
  cases hwant : w.want e with
  | none =>
    simp only [hwant]
    rfl
  | some v =>
    have hv : v = .nothing := by
      by_contra hv
      exact h ⟨by simp [hwant], by simpa [hwant] using hv⟩
    subst hv
    simp only [hwant]
    rfl

lemma cleanEdge_apply (env : Env) (clean : Path → M Unit) (w : World) (e : EdgeId) :
    (SeemsClean w e ∧ cleanEdge env clean e w =
      (recomputeOutputsDirty env e (w.newestInput e) >>=
        finishClean clean e (w.edges e).outputs) w) ∨
    ¬ SeemsClean w e ∧ cleanEdge env clean e w = .ok () w := by
  by_cases hwanted : e ∈ w.wantedSet
  · rw [cleanEdge_wanted hwanted]
    by_cases hdeps : (w.edges e).depsMissing = true
    · rw [if_pos hdeps]
      exact .inr ⟨fun h => by simp [h.deps] at hdeps, rfl⟩
    · rw [if_neg hdeps]
      by_cases hfound : ∀ k ∈ w.searched e, w.dirtyAt e k = false
      · rw [if_pos (Search.search_eq_iff.mpr hfound)]
        exact .inl ⟨⟨hwanted, by simpa using hdeps, hfound⟩, rfl⟩
      · rw [if_neg fun h => hfound (Search.search_eq_iff.mp h)]
        exact .inr ⟨fun h => hfound h.inputs, rfl⟩
  · exact .inr ⟨fun h => hwanted h.wanted, cleanEdge_unwanted hwanted⟩

/-- A node that cleaning `n` may touch. -/
def World.Touches (w : World) (n m : Path) : Prop :=
  m = n ∨ ∃ f, w.Below n f ∧ m ∈ (w.edges f).outputs

def World.TouchedBy (w : World) (e : EdgeId) (m : Path) : Prop :=
  ∃ f, Relation.ReflTransGen w.Feeds e f ∧ m ∈ (w.edges f).outputs

lemma World.Touches.touchedBy {o m : Path} (h : w.Touches o m) (ho : o ∈ (w.edges e).outputs) :
    w.TouchedBy e m := by
  rcases h with rfl | ⟨f, ⟨f₀, hf₀, hf⟩, hm⟩
  · exact ⟨e, .refl, ho⟩
  · exact ⟨f, .head ⟨o, ho, hf₀⟩ hf, hm⟩

lemma finishClean_cleaned {outputs : List Path} {d : Bool}
    (houtputs : outputs = (g.edges e).outputs) (hlinks : g.SameLinks w)
    (hclean : ∀ o t, g.SameLinks t → Moves (Cleaned (g.Touches o)) t (clean o)) :
    Moves (Cleaned (g.TouchedBy e)) w (finishClean clean e outputs d) := by
  refine .ite (fun _ => .pure _) fun _ => .bind ?_ fun _ t _ => cleaned_unwant t e
  refine .forEach_of (fun _ _ h hc => Cleaned.sameLinks hc h) (fun o ho t h => ?_) hlinks
  exact Cleaned.mono (hclean o t h) fun m hm => hm.touchedBy (houtputs ▸ ho)

lemma cleanEdge_cleaned (hlinks : g.SameLinks w)
    (hclean : ∀ o t, g.SameLinks t → Moves (Cleaned (g.Touches o)) t (clean o)) :
    Moves (Cleaned (g.TouchedBy e)) w (cleanEdge env clean e) := by
  rcases cleanEdge_apply env clean w e with ⟨-, heq⟩ | ⟨-, heq⟩
  · obtain ⟨w₁, hdirty, hc, -⟩ := recomputeOutputsDirty_cleaned env w e (w.newestInput e)
    have hc' : Cleaned (g.TouchedBy e) w w₁ := hc.mono fun m hm => ⟨e, .refl, hlinks.1 e ▸ hm⟩
    have hrest := finishClean_cleaned (e := e)
      (d := (w.edges e).outputs.any
        (outputDirty env w e (w.newestInput e) (w.evaluateCommand e true)))
      (hlinks.1 e) (hc.sameLinks hlinks) hclean
    rw [Moves, heq, bind_apply, hdirty]
    exact IsTrans.trans _ _ _ hc' hrest
  · rw [Moves, heq]
    exact Std.Refl.refl w

lemma cleanNode_cleaned (env : Env) (fuel : Nat) (n : Path) (hlinks : g.SameLinks w) :
    Moves (Cleaned (g.Touches n)) w (cleanNode env fuel n) := by
  induction fuel generalizing w n with
  | zero => exact .throw _
  | succ fuel ih =>
    have hfirst : Cleaned (g.Touches n) w (w.setNode n fun m => { m with dirty := false }) :=
      cleaned_setClean (.inl rfl)
    refine .bind hfirst fun _ t ht => ?_
    obtain rfl := updNode_ok.mp ht
    have hlinks₁ := hfirst.sameLinks hlinks
    refine .bind (getNode_moves n) fun m t hm => ?_
    obtain ⟨rfl, rfl⟩ := getNode_ok.mp hm
    refine .forEach_of (fun _ _ h hc => Cleaned.sameLinks hc h) (fun e he t h => ?_) hlinks₁
    refine Cleaned.mono (cleanEdge_cleaned h fun o t' h' => ih o h') ?_
    rintro m ⟨f, hf, hm⟩
    exact .inr ⟨f, ⟨e, hlinks₁.2 n ▸ he, hf⟩, hm⟩

end CleanEdge

/-! ### The edges that are looked at -/

def LooksAt (env : Env) (fuel : Nat) (node : Path) (w : World) (e : EdgeId) (s : World) : Prop :=
  ∃ es es', (w.nodes node).outEdges = es ++ e :: es' ∧
    forEach es (cleanEdge env (cleanNode env fuel))
      (w.setNode node fun m => { m with dirty := false }) = .ok () s

def GoesOn (env : Env) (fuel : Nat) (s : World) (e : EdgeId) (o : Path) (s' : World) : Prop :=
  SeemsClean s e ∧ ∃ s₁ os os', recomputeOutputsDirty env e (s.newestInput e) s = .ok false s₁ ∧
    (s.edges e).outputs = os ++ o :: os' ∧ forEach os (cleanNode env fuel) s₁ = .ok () s'

/-- A call of `CleanNode`, or one of the calls that it makes, comes to an edge in a state. -/
inductive CleanVisit (env : Env) : Nat → Path → World → EdgeId → World → Prop
  | own {fuel : Nat} {node : Path} {w s : World} {e : EdgeId} (h : LooksAt env fuel node w e s) :
      CleanVisit env (fuel + 1) node w e s
  | further {fuel : Nat} {node o : Path} {w s s' s'' : World} {e f : EdgeId}
      (h : LooksAt env fuel node w e s) (hgo : GoesOn env fuel s e o s')
      (hbelow : CleanVisit env fuel o s' f s'') : CleanVisit env (fuel + 1) node w f s''

def World.since (w w' : World) : List Event := w'.trace.drop w.trace.length

/-- The state at a moment of a call that has been recorded. -/
def World.restore (w : World) (s : Snapshot) : World :=
  { w with nodes := s.nodes, edges := s.edges }

/-- It is right that an edge is not wanted: no input of it is dirty, its dependencies are there,
and compared with the newest input none of its outputs is dirty. -/
structure CleanSound (env : Env) (w : World) (e : EdgeId) : Prop where
  inputs : ∀ i ∈ (w.edges e).nonOrderOnlyInputs, (w.nodes i).dirty = false
  deps : (w.edges e).depsMissing = false
  outputs : ∃ w', recomputeOutputsDirty env e (w.newestInput e) w = .ok false w'

/-- If the edge is wanted, its dependencies are there and its outputs are not dirty, then there is a
dirty input only if there is one where the binary search looks. -/
def DirtyFound (env : Env) (w : World) (e : EdgeId) : Prop :=
  e ∈ w.wantedSet → (w.edges e).depsMissing = false →
    (∀ o ∈ (w.edges e).outputs,
      outputDirty env w e (w.newestInput e) (w.evaluateCommand e true) o = false) →
    (∃ i ∈ (w.edges e).nonOrderOnlyInputs, (w.nodes i).dirty = true) →
    ∃ k ∈ w.searched e, w.dirtyAt e k = true

/-- A graph whose links agree and in which no edge leads to itself. -/
structure CleanGraph (w : World) : Prop where
  acyclic : w.Acyclic
  linked : ∀ e, ∀ i ∈ (w.edges e).nonOrderOnlyInputs, e ∈ (w.nodes i).outEdges
  produced : ∀ e f o, o ∈ (w.edges e).outputs → o ∈ (w.edges f).outputs → f = e

section Visits

variable {env : Env} {S : Path → Prop} {w w' w'' g : World} {e : EdgeId}
variable {fuel : Nat}

lemma World.since_eq {l : List Event} (h : w'.trace = w.trace ++ l) : w.since w' = l := by
  rw [since, h, drop_left]

lemma World.since_trans (h₁ : w.trace <+: w'.trace) (h₂ : w'.trace <+: w''.trace) :
    w.since w'' = w.since w' ++ w'.since w'' := by
  obtain ⟨l₁, h₁⟩ := h₁
  obtain ⟨l₂, h₂⟩ := h₂
  have h : w''.trace = w.trace ++ (l₁ ++ l₂) := by rw [← h₂, ← h₁, append_assoc]
  rw [since_eq h, since_eq h₁.symm, since_eq h₂.symm]

lemma World.since_self (w : World) : w.since w = [] := by rw [since, drop_length]

lemma forEach_extends {α : Type} {f : α → M Unit} {xs : List α}
    (hextends : ∀ x s s', f x s = .ok () s' → s.trace <+: s'.trace)
    (hok : forEach xs f w = .ok () w') : w.trace <+: w'.trace := by
  induction xs generalizing w with
  | nil =>
    obtain ⟨-, rfl⟩ := pure_ok.mp hok
    exact prefix_rfl
  | cons x xs ih =>
    obtain ⟨_, w₁, hx, hrest⟩ := bind_ok.mp hok
    exact (hextends x w w₁ hx).trans (ih hrest)

/-- Everything that a loop records is recorded by one of its rounds. -/
lemma forEach_since {α : Type} {f : α → M Unit} {xs : List α} {P : Event → Prop}
    (hextends : ∀ x s s', f x s = .ok () s' → s.trace <+: s'.trace)
    (hok : forEach xs f w = .ok () w') :
    (∀ ev ∈ w.since w', P ev) ↔ ∀ as x bs s s', xs = as ++ x :: bs →
      forEach as f w = .ok () s → f x s = .ok () s' → ∀ ev ∈ s.since s', P ev := by
  induction xs generalizing w with
  | nil =>
    obtain ⟨-, rfl⟩ := pure_ok.mp hok
    simp [since_self]
  | cons x xs ih =>
    obtain ⟨_, w₁, hx, hrest⟩ := bind_ok.mp hok
    rw [since_trans (hextends x w w₁ hx) (forEach_extends hextends hrest),
      forall_mem_append, ih hrest]
    constructor
    · rintro ⟨hfirst, hothers⟩ as y bs s s' hsplit has hy
      cases as with
      | nil =>
        obtain ⟨rfl, -⟩ := cons.inj hsplit
        obtain ⟨-, rfl⟩ := pure_ok.mp has
        rw [hx] at hy
        cases hy
        exact hfirst
      | cons a as =>
        obtain ⟨rfl, htail⟩ := cons.inj hsplit
        obtain ⟨_, w₂, hx', has⟩ := bind_ok.mp has
        rw [hx] at hx'
        cases hx'
        exact hothers as y bs s s' htail has hy
    · intro hall
      refine ⟨hall [] x xs w w₁ rfl rfl hx, fun as y bs s s' hsplit has hy => ?_⟩
      refine hall (x :: as) y bs s s' (by rw [hsplit, cons_append]) ?_ hy
      exact bind_ok.mpr ⟨(), w₁, hx, has⟩

lemma cleanSound_iff : CleanSound env w e ↔
    (∀ i ∈ (w.edges e).nonOrderOnlyInputs, (w.nodes i).dirty = false) ∧
      (w.edges e).depsMissing = false ∧ ∀ o ∈ (w.edges e).outputs,
        outputDirty env w e (w.newestInput e) (w.evaluateCommand e true) o = false := by
  obtain ⟨w₁, hdirty, -⟩ := recomputeOutputsDirty_cleaned env w e (w.newestInput e)
  have hany : (∃ w', recomputeOutputsDirty env e (w.newestInput e) w = .ok false w') ↔
      ∀ o ∈ (w.edges e).outputs,
        outputDirty env w e (w.newestInput e) (w.evaluateCommand e true) o = false := by
    rw [hdirty]
    simp only [EStateM.Result.ok.injEq, exists_and_left, exists_eq', and_true, any_eq_false,
      Bool.not_eq_true]
  rw [← hany]
  exact ⟨fun h => ⟨h.inputs, h.deps, h.outputs⟩, fun h => ⟨h.1, h.2.1, h.2.2⟩⟩

/-- What is right about an edge depends on the edge, its inputs and its outputs. -/
lemma cleanSound_congr (hground : SameGround w w') (hedges : w'.edges = w.edges)
    (hin : ∀ i ∈ (w.edges e).nonOrderOnlyInputs, w'.nodes i = w.nodes i)
    (hout : ∀ o ∈ (w.edges e).outputs, (w'.nodes o).existence = (w.nodes o).existence ∧
      ((w.edges e).phony = false → (w'.nodes o).mtime = (w.nodes o).mtime)) :
    CleanSound env w' e ↔ CleanSound env w e := by
  have hnewest : w'.newestInput e = w.newestInput e := by
    rw [newestInput, newestInput, hedges]
    refine foldl_newerInput_congr fun i hi => ?_
    rcases hi with hi | hi
    · rw [hin i hi]
    · cases hi
  have hdirty : ∀ o ∈ (w.edges e).outputs,
      outputDirty env w' e (w.newestInput e) (w.evaluateCommand e true) o =
        outputDirty env w e (w.newestInput e) (w.evaluateCommand e true) o := by
    intro o ho
    refine outputDirty_congr hground (by rw [hedges]) ?_ (hout o ho).2 fun i hi => ?_
    · rw [Node.exists, Node.exists, (hout o ho).1]
    · rcases foldl_newerInput_mem hi with hi | hi
      · rw [hin i hi]
      · cases hi
  rw [cleanSound_iff, cleanSound_iff, hedges, hnewest, hground.evaluateCommand]
  refine and_congr (forall₂_congr fun i hi => by rw [hin i hi]) (and_congr Iff.rfl ?_)
  exact forall₂_congr fun o ho => by rw [hdirty o ho]

/-- The event is not one of un-wanting an edge that should be wanted. -/
def Event.Sound (env : Env) (g : World) (ev : Event) : Prop :=
  ∀ e before, ev = .unwanted e before → CleanSound env (g.restore before) e

lemma sound_unwanted (hground : SameGround g w) :
    Event.Sound env g (.unwanted e w.snapshot) ↔ CleanSound env w e := by
  have hsame : CleanSound env w e ↔ CleanSound env (g.restore w.snapshot) e :=
    cleanSound_congr ⟨hground.disk, hground.buildLog, hground.depsLog, hground.scopes,
      fun _ => rfl, fun _ => rfl, fun _ => .refl _⟩ rfl (fun _ _ => rfl)
      fun _ _ => ⟨rfl, fun _ => rfl⟩
  constructor
  · intro h
    exact hsame.mpr (h e _ rfl)
  · rintro h e' before heq
    cases heq
    exact hsame.mp h

lemma CleanGraph.cleanSound_iff_before (hg : CleanGraph g) (hedges : w.edges = g.edges)
    (h : Cleaned (g.TouchedBy e) w w') : CleanSound env w' e ↔ CleanSound env w e := by
  refine cleanSound_congr h.ground h.edges (fun i hi => h.others i ?_) fun o ho =>
    ⟨h.existence o, fun hp => h.mtime o fun f hf => ?_⟩
  · rintro ⟨f, hf, hi'⟩
    rw [hedges] at hi
    exact hg.acyclic e (.tail' hf ⟨i, hi', hg.linked e i hi⟩)
  · rw [hedges] at ho hf hp ⊢
    rw [hg.produced e f o ho hf]
    exact hp

lemma SeemsClean.sound_iff (h : SeemsClean w e) (hout : ∀ o ∈ (w.edges e).outputs,
    outputDirty env w e (w.newestInput e) (w.evaluateCommand e true) o = false) :
    CleanSound env w e ↔ DirtyFound env w e := by
  rw [cleanSound_iff]
  constructor
  · rintro ⟨hin, -⟩ - - - ⟨i, hi, hdirty⟩
    rw [hin i hi] at hdirty
    cases hdirty
  · intro hfound
    refine ⟨fun i hi => ?_, h.deps, hout⟩
    by_contra hdirty
    obtain ⟨k, hk, hk'⟩ := hfound h.wanted h.deps hout ⟨i, hi, by simpa using hdirty⟩
    rw [h.inputs k hk] at hk'
    cases hk'

lemma DirtyFound.of_not_seemsClean (h : ¬ SeemsClean w e) : DirtyFound env w e := by
  intro hwanted hdeps _ _
  by_contra hnone
  refine h ⟨hwanted, hdeps, fun k hk => ?_⟩
  by_contra hk'
  exact hnone ⟨k, hk, by simpa using hk'⟩

/-! ### Whole calls -/

/-- What holds of the calls that are made for the outputs of an edge. -/
def CleansRight (env : Env) (g : World) (fuel : Nat) : Prop :=
  ∀ o t t', Cleaned (fun _ => True) g t → cleanNode env fuel o t = .ok () t' →
    ((∀ ev ∈ t.since t', ev.Sound env g) ↔
      ∀ f s, CleanVisit env fuel o t f s → DirtyFound env s f)

lemma cleanNode_extends {o : Path} {t t' : World} (hok : cleanNode env fuel o t = .ok () t') :
    t.trace <+: t'.trace :=
  ((cleanNode_cleaned (g := t) env fuel o ⟨fun _ => rfl, fun _ => rfl⟩).of_ok hok).trace

lemma cleanEdge_extends {t t' : World} (hok : cleanEdge env (cleanNode env fuel) e t = .ok () t') :
    t.trace <+: t'.trace :=
  ((cleanEdge_cleaned (g := t) ⟨fun _ => rfl, fun _ => rfl⟩
    fun o _ h => cleanNode_cleaned env fuel o h).of_ok hok).trace

lemma forEach_ok_split {α : Type} {f : α → M Unit} {as bs : List α} {x : α}
    (hok : forEach (as ++ x :: bs) f w = .ok () w') {s : World} (has : forEach as f w = .ok () s) :
    ∃ s', f x s = .ok () s' := by
  induction as generalizing w with
  | nil =>
    obtain ⟨-, rfl⟩ := pure_ok.mp has
    obtain ⟨_, s', hx, -⟩ := bind_ok.mp hok
    exact ⟨s', hx⟩
  | cons a as ih =>
    obtain ⟨_, w₁, ha, hok⟩ := bind_ok.mp hok
    obtain ⟨_, w₂, ha', has⟩ := bind_ok.mp has
    rw [ha] at ha'
    cases ha'
    exact ih hok has

lemma outputs_sound_iff {s s₁ m : World} (ih : CleansRight env g fuel) (hseems : SeemsClean s e)
    (hdirty : recomputeOutputsDirty env e (s.newestInput e) s = .ok false s₁)
    (hs₁ : Cleaned (fun _ => True) g s₁)
    (hok : forEach (s.edges e).outputs (cleanNode env fuel) s₁ = .ok () m) :
    (∀ ev ∈ s₁.since m, ev.Sound env g) ↔ ∀ o t, GoesOn env fuel s e o t →
      ∀ f s', CleanVisit env fuel o t f s' → DirtyFound env s' f := by
  have hmoves : ∀ as t, forEach as (cleanNode env fuel) s₁ = .ok () t →
      Cleaned (fun _ => True) g t := by
    intro as t hok
    have hstep : Moves (Cleaned fun _ => True) s₁ (forEach as (cleanNode env fuel)) :=
      Moves.forEach fun o _ t => Cleaned.mono
        (cleanNode_cleaned (g := t) env fuel o ⟨fun _ => rfl, fun _ => rfl⟩) fun _ _ => trivial
    exact IsTrans.trans _ _ _ hs₁ (hstep.of_ok hok)
  rw [forEach_since (fun o t t' h => cleanNode_extends h) hok]
  constructor
  · rintro hall o t ⟨-, s₂, as, bs, hdirty', hsplit, has⟩
    rw [hdirty] at hdirty'
    cases hdirty'
    obtain ⟨t', ht'⟩ := forEach_ok_split (hsplit ▸ hok) has
    exact (ih o t t' (hmoves as t has) ht').mp (hall as o bs t t' hsplit has ht')
  · intro hall as o bs t t' hsplit has ht'
    exact (ih o t t' (hmoves as t has) ht').mpr
      (hall o t ⟨hseems, s₁, as, bs, hdirty, hsplit, has⟩)

lemma cleanEdge_sound_iff (hg : CleanGraph g) {s s' : World} (ih : CleansRight env g fuel)
    (hs : Cleaned (fun _ => True) g s) (hok : cleanEdge env (cleanNode env fuel) e s = .ok () s') :
    (∀ ev ∈ s.since s', ev.Sound env g) ↔ DirtyFound env s e ∧ ∀ o t, GoesOn env fuel s e o t →
      ∀ f s'', CleanVisit env fuel o t f s'' → DirtyFound env s'' f := by
  rcases cleanEdge_apply env (cleanNode env fuel) s e with ⟨hseems, heq⟩ | ⟨hseems, heq⟩
  swap
  · rw [heq] at hok
    cases hok
    simp only [since_self, not_mem_nil, false_imp_iff, implies_true, true_iff]
    exact ⟨.of_not_seemsClean hseems, fun o t hgo => absurd hgo.1 hseems⟩
  obtain ⟨s₁, hdirty, hc, htrace, -⟩ := recomputeOutputsDirty_cleaned env s e (s.newestInput e)
  rw [heq, bind_apply, hdirty] at hok
  have hsince : ∀ t, s.since t = s₁.since t := fun t => by rw [since, since, htrace]
  cases hany : (s.edges e).outputs.any
      (outputDirty env s e (s.newestInput e) (s.evaluateCommand e true)) with
  | true =>
    rw [hany] at hok hdirty
    obtain ⟨-, rfl⟩ := pure_ok.mp hok
    obtain ⟨o, ho, ho'⟩ := any_eq_true.mp hany
    simp only [hsince, since_self, not_mem_nil, false_imp_iff, implies_true, true_iff]
    constructor
    · intro _ _ hclean
      rw [hclean o ho] at ho'
      cases ho'
    · rintro o t ⟨-, s₂, -, -, hdirty', -⟩
      rw [hdirty] at hdirty'
      cases hdirty'
  | false =>
    rw [hany] at hok hdirty
    obtain ⟨_, m, houts, hm⟩ := bind_ok.mp hok
    obtain rfl := modify_ok.mp hm
    have hs₁ : Cleaned (fun _ => True) g s₁ :=
      IsTrans.trans _ _ _ hs (hc.mono fun _ _ => trivial)
    have hlinks : g.SameLinks s₁ :=
      ⟨fun f => by rw [hs₁.edges], fun n => hs₁.outEdges n⟩
    have hm : Cleaned (g.TouchedBy e) s₁ m := by
      have hmoves : Moves (Cleaned (g.TouchedBy e)) s₁
          (forEach (s.edges e).outputs (cleanNode env fuel)) :=
        Moves.forEach_of (fun _ _ h hc => Cleaned.sameLinks hc h)
          (fun o ho t h => Cleaned.mono (cleanNode_cleaned env fuel o h) fun m hm =>
            hm.touchedBy (hs.edges ▸ ho)) hlinks
      exact hmoves.of_ok houts
    have hsm : Cleaned (g.TouchedBy e) s m :=
      IsTrans.trans _ _ _ (hc.mono fun n hn => ⟨e, .refl, hs.edges ▸ hn⟩) hm
    have hlast : m.since (m.unwant e) = [.unwanted e m.snapshot] :=
      since_eq (by rw [unwant_eq])
    have hclean : ∀ o ∈ (s.edges e).outputs,
        outputDirty env s e (s.newestInput e) (s.evaluateCommand e true) o = false := by
      simpa using hany
    have hground : SameGround g m := hs.ground.trans hsm.ground
    rw [hsince, since_trans hm.trace (by rw [unwant_eq]; exact prefix_append _ _),
      hlast, forall_mem_append, forall_mem_singleton, sound_unwanted hground,
      hg.cleanSound_iff_before hs.edges hsm, hseems.sound_iff hclean,
      outputs_sound_iff ih hseems hdirty hs₁ houts, and_comm]

lemma cleanNode_cleansRight (hg : CleanGraph g) (fuel : Nat) : CleansRight env g fuel := by
  induction fuel with
  | zero =>
    intro o t t' _ hok
    exact absurd hok throw_ok
  | succ fuel ih =>
    intro o t t' ht hok
    obtain ⟨_, t₁, hclean, hok⟩ := bind_ok.mp hok
    obtain rfl := updNode_ok.mp hclean
    obtain ⟨x, t₂, hnode, hok⟩ := bind_ok.mp hok
    obtain ⟨rfl, rfl⟩ := getNode_ok.mp hnode
    have houtEdges : ((t.setNode o fun m => { m with dirty := false }).nodes o).outEdges =
        (t.nodes o).outEdges := by
      rw [setNode_nodes_self]
    rw [houtEdges] at hok
    have hsame : ∀ as s, forEach as (cleanEdge env (cleanNode env fuel))
        (t.setNode o fun m => { m with dirty := false }) = .ok () s →
        Cleaned (fun _ => True) g s := by
      intro as s hok
      have hmoves : Moves (Cleaned fun _ => True) (t.setNode o fun m => { m with dirty := false })
          (forEach as (cleanEdge env (cleanNode env fuel))) :=
        Moves.forEach fun e _ s => Cleaned.mono (cleanEdge_cleaned (g := s)
          ⟨fun _ => rfl, fun _ => rfl⟩ fun o t' h => cleanNode_cleaned env fuel o h)
            fun _ _ => trivial
      exact IsTrans.trans _ _ _ (IsTrans.trans _ _ _ ht (cleaned_setClean trivial))
        (hmoves.of_ok hok)
    have hsince : t.since t' = (t.setNode o fun m => { m with dirty := false }).since t' := rfl
    rw [hsince, forEach_since (fun e s s' h => cleanEdge_extends h) hok]
    constructor
    · intro hall f s hvisit
      cases hvisit with
      | own hlooks =>
        obtain ⟨as, bs, hsplit, has⟩ := hlooks
        obtain ⟨s', hs'⟩ := forEach_ok_split (hsplit ▸ hok) has
        exact ((cleanEdge_sound_iff hg ih (hsame as s has) hs').mp
          (hall as f bs s s' hsplit has hs')).1
      | further hlooks hgo hbelow =>
        obtain ⟨as, bs, hsplit, has⟩ := hlooks
        obtain ⟨s', hs'⟩ := forEach_ok_split (hsplit ▸ hok) has
        exact ((cleanEdge_sound_iff hg ih (hsame as _ has) hs').mp
          (hall as _ bs _ s' hsplit has hs')).2 _ _ hgo f s hbelow
    · intro hall as e bs s s' hsplit has hs'
      have hlooks : LooksAt env fuel o t e s := ⟨as, bs, hsplit, has⟩
      refine (cleanEdge_sound_iff hg ih (hsame as s has) hs').mpr
        ⟨hall e s (.own hlooks), fun o' t' hgo f s'' hbelow => ?_⟩
      exact hall f s'' (.further hlooks hgo hbelow)

end Visits

/-- **Cleaning.** In a call of `CleanNode`, every edge is clean when it is un-wanted, if and only if
at every edge that the call comes to the binary search finds a dirty input where there is one. -/
theorem cleanNode_sound_iff (env : Env) (fuel : Nat) (node : Path) {w w' : World}
    (hg : CleanGraph w) (hok : cleanNode env fuel node w = .ok () w') :
    (∀ e before, .unwanted e before ∈ w.since w' → CleanSound env (w.restore before) e) ↔
      ∀ e s, CleanVisit env fuel node w e s → DirtyFound env s e := by
  rw [← cleanNode_cleansRight hg fuel node w w' (Std.Refl.refl w) hok]
  constructor
  · intro h ev hev e before heq
    exact h e before (heq ▸ hev)
  · intro h e before hev
    exact h _ hev e before rfl

/-- A wanted edge that makes `o` from `a` and `b`. All files exist, and `o` is the newest. -/
def twoInputs (aDirty bDirty : Bool) : World where
  nodes n :=
    if n = [97] then { mtime := 1, existence := .present, dirty := aDirty, outEdges := [0] }
    else if n = [98] then { mtime := 1, existence := .present, dirty := bDirty, outEdges := [0] }
    else { mtime := 5, existence := .present, dirty := true, inEdge := some 0 }
  edges e := if e = 0 then { explicitInputs := [[97], [98]], outputs := [[111]] } else {}
  edgeCount := 1
  want e := if e = 0 then some .toStart else none
  wantedEdges := 1
  commandEdges := 1

lemma twoInputs_cleanGraph (aDirty bDirty : Bool) : CleanGraph (twoInputs aDirty bDirty) where
  acyclic e he := by
    have hnone : ∀ e f, ¬ (twoInputs aDirty bDirty).Feeds e f := by
      rintro e f ⟨o, ho, hf⟩
      by_cases he : e = 0
      · obtain rfl : o = [111] := by simpa [twoInputs, he] using ho
        simp [twoInputs] at hf
      · simp [twoInputs, he] at ho
    obtain ⟨f, hf, -⟩ := Relation.TransGen.head'_iff.mp he
    exact hnone e f hf
  linked e i hi := by
    by_cases he : e = 0
    · subst he
      have hi : i = [97] ∨ i = [98] := by simpa [twoInputs, Edge.nonOrderOnlyInputs] using hi
      rcases hi with rfl | rfl <;> simp [twoInputs]
    · simp [twoInputs, he, Edge.nonOrderOnlyInputs] at hi
  produced e f o ho ho' := by
    by_cases he : e = 0
    · by_cases hf : f = 0
      · rw [he, hf]
      · simp [twoInputs, hf] at ho'
    · simp [twoInputs, he] at ho

/-- When the last dirty input becomes clean, the edge is rightly un-wanted, and so the search has
missed nothing. -/
theorem cleanNode_sound_twoInputs : ∃ w' before,
    cleanNode {} 2 [98] (twoInputs false true) = .ok () w' ∧
      .unwanted 0 before ∈ (twoInputs false true).since w' ∧
      CleanSound {} ((twoInputs false true).restore before) 0 ∧
      ∀ e s, CleanVisit {} 2 [98] (twoInputs false true) e s → DirtyFound {} s e := by
  refine ⟨_, _, rfl, mem_singleton.mpr rfl, ⟨by decide, rfl, _, rfl⟩,
    (cleanNode_sound_iff {} 2 [98] (twoInputs_cleanGraph false true) rfl).mp fun e before hev => ?_⟩
  cases mem_singleton.mp hev
  exact ⟨by decide, rfl, _, rfl⟩

/-- With the dirty input `a` before the clean input `b`, the edge is un-wanted. -/
theorem cleanNode_misses_dirty : ∃ w' before,
    cleanNode {} 2 [98] (twoInputs true false) = .ok () w' ∧ CleanGraph (twoInputs true false) ∧
      .unwanted 0 before ∈ (twoInputs true false).since w' ∧
      ¬ CleanSound {} ((twoInputs true false).restore before) 0 := by
  refine ⟨_, _, rfl, twoInputs_cleanGraph true false, mem_singleton.mpr rfl, fun h => ?_⟩
  have hdirty := h.inputs [97] (by decide)
  exact absurd hdirty (by decide)

end Reninja
