import Reninja.Manifest.Steps

/-!
# Scopes

A `subninja` statement parses its file in a new scope. What the parser has built until then does
not change: all scopes that exist keep their bindings and rules, and all edges keep their values.
-/

namespace Reninja

open Program List

namespace State

variable {st st' : State} {n m : Nat}

lemma KeepsScopes.binding (h : st.KeepsScopes n st') {t : ScopeId} (ht : t < n) (v : GoString) :
    st'.binding t v = st.binding t v := by
  unfold State.binding
  rw [h.scopes t ht, h.vars t ht]

lemma findSome?_congr_of_mem {α β : Type} {f g : α → Option β} {xs : List α}
    (h : ∀ x ∈ xs, f x = g x) : xs.findSome? f = xs.findSome? g := by
  induction xs with
  | nil => rfl
  | cons x xs ih =>
    rw [findSome?_cons, findSome?_cons, h x mem_cons_self,
      ih fun y hy => h y (mem_cons_of_mem _ hy)]

lemma KeepsScopes.lookupVariable (h : st.KeepsScopes n st') {s : ScopeId}
    (hs : ∀ t ∈ s :: st.parents s, t < n) (v : GoString) :
    st'.lookupVariable s v = st.lookupVariable s v := by
  unfold State.lookupVariable
  rw [h.parents s (hs s mem_cons_self),
    findSome?_congr_of_mem fun t ht => h.binding (hs t ht) v]

lemma KeepsScopes.lookupRule (h : st.KeepsScopes n st') {s : ScopeId}
    (hs : ∀ t ∈ s :: st.parents s, t < n) (name : GoString) :
    st'.lookupRule s name = st.lookupRule s name := by
  unfold State.lookupRule
  rw [h.parents s (hs s mem_cons_self),
    findSome?_congr_of_mem fun t ht => by rw [h.rules t (hs t ht)]]

lemma edgeLookup_congr {e : EdgeId} {b : Bool} (hedge : st'.world.edges e = st.world.edges e)
    (hrule : st'.edgeRule e = st.edgeRule e)
    (hbinding : ∀ t ∈ (st.world.edges e).scope :: (st.world.edges e).parents, ∀ v,
      st'.binding t v = st.binding t v) (fuel : Nat) :
    st'.edgeLookup e b fuel = st.edgeLookup e b fuel := by
  induction fuel with
  | zero => rfl
  | succ fuel ih =>
    funext v
    have hbuiltin : st'.builtin e b v = st.builtin e b v := by
      unfold builtin
      rw [hedge]
    have hfallback : st'.lookupWithFallback e (st.edgeLookup e b fuel) v =
        st.lookupWithFallback e (st.edgeLookup e b fuel) v := by
      unfold lookupWithFallback
      simp only [hedge, hbinding _ mem_cons_self,
        findSome?_congr_of_mem fun t ht => hbinding t (mem_cons_of_mem _ ht) v]
    rw [edgeLookup, edgeLookup, ih, hbuiltin, hrule, hfallback]

end State

namespace Parser

variable {n : Nat}

/-! ### Scopes that exist -/

/-- The scopes that a state speaks of exist, and so does the current one. -/
structure WellScoped (st : State) (s : ScopeId) : Prop where
  env : s < st.scopeCount
  parents : ∀ t < st.scopeCount, ∀ u ∈ st.parents t, u < st.scopeCount
  edges : ∀ e < st.world.edgeCount, (st.world.edges e).scope < st.scopeCount ∧
    ∀ u ∈ (st.world.edges e).parents, u < st.scopeCount

variable {st st' : State} {s : ScopeId}

lemma initial_wellScoped (disk : Disk) : WellScoped (State.initial disk) 0 where
  env := Nat.zero_lt_one
  parents _ _ _ hu := absurd hu not_mem_nil
  edges _ he := absurd he (Nat.not_lt_zero _)

lemma newScope_wellScoped (h : WellScoped st s) : WellScoped (st.newScope s) st.scopeCount where
  env := Nat.lt_succ_self _
  parents t ht u hu := by
    by_cases hnew : t = st.scopeCount
    · subst hnew
      simp only [State.newScope, Function.update_self, mem_cons] at hu
      rcases hu with rfl | hu
      · exact Nat.lt_succ_of_lt h.env
      · exact Nat.lt_succ_of_lt (h.parents s h.env u hu)
    · simp only [State.newScope, Function.update_of_ne hnew] at hu
      have ht' : t < st.scopeCount := Nat.lt_of_le_of_ne (Nat.le_of_lt_succ ht) hnew
      exact Nat.lt_succ_of_lt (h.parents t ht' u hu)
  edges e he :=
    ⟨Nat.lt_succ_of_lt (h.edges e he).1, fun u hu => Nat.lt_succ_of_lt ((h.edges e he).2 u hu)⟩

lemma WellScoped.congr (h : WellScoped st s) (hparents : st'.parents = st.parents)
    (hcount : st'.scopeCount = st.scopeCount) (hedges : st'.world.edges = st.world.edges)
    (hedgeCount : st'.world.edgeCount = st.world.edgeCount) : WellScoped st' s := by
  refine ⟨?_, ?_, ?_⟩
  · rw [hcount]
    exact h.env
  · rw [hcount, hparents]
    exact h.parents
  · rw [hcount, hedges, hedgeCount]
    exact h.edges

lemma addBinding_same (st : State) (t : ScopeId) (v value : GoString) :
    (st.addBinding t v value).parents = st.parents ∧
      (st.addBinding t v value).scopeCount = st.scopeCount ∧
      (st.addBinding t v value).world.edges = st.world.edges ∧
      (st.addBinding t v value).world.edgeCount = st.world.edgeCount ∧
      (st.addBinding t v value).rules = st.rules ∧
      (st.addBinding t v value).edgeRule = st.edgeRule := by
  unfold State.addBinding
  split <;> exact ⟨rfl, rfl, rfl, rfl, rfl, rfl⟩

lemma addDefault_eq {n : Path} (h : st.addDefault n = .ok st') :
    st' = { st with defaults := st.defaults ++ [n] } := by
  unfold State.addDefault at h
  split at h
  · exact (Except.ok.inj h).symm
  · exact absurd h (by simp)

lemma Change.wellScoped (h : Change s st st') (hw : WellScoped st s) : WellScoped st' s := by
  cases h with
  | newScope =>
    have new := newScope_wellScoped hw
    exact ⟨Nat.lt_succ_of_lt hw.env, new.parents, new.edges⟩
  | addBinding ht v value =>
    obtain ⟨hparents, hcount, hedges, hedgeCount, -⟩ := addBinding_same st _ v value
    exact hw.congr hparents hcount hedges hedgeCount
  | addRule | addPool => exact hw.congr rfl rfl rfl rfl
  | addDefault n hst =>
    obtain rfl := addDefault_eq hst
    exact hw.congr rfl rfl rfl rfl
  | build steps scopes edges new =>
    refine ⟨?_, ?_, fun e he => ?_⟩
    · rw [scopes.count]
      exact hw.env
    · rw [scopes.count, scopes.parents]
      exact hw.parents
    · by_cases hold : e < st.world.edgeCount
      · rw [((edges _ (Nat.le_refl _)).2 e hold).1, scopes.count]
        exact hw.edges e hold
      · have hs : s < st'.scopeCount := by
          rw [scopes.count]
          exact hw.env
        obtain ⟨hscope, hparents⟩ := new e (Nat.not_lt.mp hold) he hs
        refine ⟨hscope, ?_⟩
        rw [hparents, scopes.parents, scopes.count]
        rw [scopes.count] at hscope
        exact hw.parents _ hscope

lemma Change.scopeCount_le (h : Change s st st') : st.scopeCount ≤ st'.scopeCount := by
  cases h with
  | newScope => exact Nat.le_succ _
  | addBinding ht v value => exact Nat.le_of_eq (addBinding_same st _ v value).2.1.symm
  | addRule | addPool => exact Nat.le_refl _
  | addDefault n hst =>
    obtain rfl := addDefault_eq hst
    exact Nat.le_refl _
  | build steps scopes => exact Nat.le_of_eq scopes.count.symm

def ScopesGrow (p q : Parser) : Prop := p.state.scopeCount ≤ q.state.scopeCount

instance : IgnoresLexer ScopesGrow where
  trans _ _ _ := Nat.le_trans
  lexer _ _ := Nat.le_refl _

instance : Closed (During WellScoped ScopesGrow) where
  change _ _ h hw := ⟨h.wellScoped hw, h.scopeCount_le⟩
  enter _ hw := ⟨newScope_wellScoped hw, Nat.le_succ _⟩
  leave p q h hw := by
    obtain ⟨hq, hle⟩ := h hw
    exact ⟨⟨Nat.lt_of_lt_of_le hw.env hle, hq.parents, hq.edges⟩, hle⟩

lemma At.wellScoped {env : Env} {opts : ParserOptions} {disk : Disk} {files : List GoString}
    {p : Parser} (h : At env opts disk files p) : WellScoped p.state p.env :=
  (h.moves (R := During WellScoped ScopesGrow) (initial_wellScoped disk)).1

def Frame (n m : Nat) (p q : Parser) : Prop :=
  n ≤ p.env ∧ p.env < p.state.scopeCount →
    (n ≤ q.env ∧ q.env < q.state.scopeCount) ∧
      p.state.KeepsScopes n q.state ∧ p.state.KeepsEdges m q.state

lemma newScope_keepsScopes (hn : n ≤ st.scopeCount) (s : ScopeId) :
    st.KeepsScopes n (st.newScope s) where
  scopes _ _ := rfl
  vars _ _ := rfl
  parents _ ht := Function.update_of_ne (Nat.ne_of_lt (Nat.lt_of_lt_of_le ht hn)) _ _
  rules _ _ := rfl
  count := Nat.le_succ _

lemma addBinding_keepsScopes {t : ScopeId} (ht : n ≤ t) (v value : GoString) :
    st.KeepsScopes n (st.addBinding t v value) := by
  unfold State.addBinding
  split
  · refine ⟨fun u hu => ?_, fun _ _ => rfl, fun _ _ => rfl, fun _ _ => rfl, Nat.le_refl _⟩
    exact Function.update_of_ne (Nat.ne_of_lt (Nat.lt_of_lt_of_le hu ht)) _ _
  · refine ⟨fun _ _ => rfl, fun u hu => ?_, fun _ _ => rfl, fun _ _ => rfl, Nat.le_refl _⟩
    exact Function.update_of_ne (Nat.ne_of_lt (Nat.lt_of_lt_of_le hu ht)) _ _

lemma addRule_keepsScopes (hs : n ≤ s) (rule : Rule) : st.KeepsScopes n (st.addRule s rule) where
  scopes _ _ := rfl
  vars _ _ := rfl
  parents _ _ := rfl
  rules _ ht := Function.update_of_ne (Nat.ne_of_lt (Nat.lt_of_lt_of_le ht hs)) _ _
  count := Nat.le_refl _

lemma Change.keepsScopes (h : Change s st st') (hn : n ≤ s) (hs : s < st.scopeCount) :
    st.KeepsScopes n st' := by
  cases h with
  | newScope => exact newScope_keepsScopes (Nat.le_of_lt (Nat.lt_of_le_of_lt hn hs)) s
  | addBinding ht v value => exact addBinding_keepsScopes (Nat.le_trans hn (ht hs)) v value
  | addRule => exact addRule_keepsScopes hn _
  | addPool => exact ⟨fun _ _ => rfl, fun _ _ => rfl, fun _ _ => rfl, fun _ _ => rfl, Nat.le_refl _⟩
  | addDefault _ hst =>
    obtain rfl := addDefault_eq hst
    exact ⟨fun _ _ => rfl, fun _ _ => rfl, fun _ _ => rfl, fun _ _ => rfl, Nat.le_refl _⟩
  | build steps scopes => exact scopes.keepsScopes n

lemma Change.keepsEdges {m : Nat} (h : Change s st st') : st.KeepsEdges m st' := by
  cases h with
  | newScope | addRule | addPool => exact fun hm => ⟨hm, fun _ _ => ⟨rfl, rfl⟩⟩
  | addBinding ht v value =>
    obtain ⟨-, -, hedges, hedgeCount, -, hrule⟩ := addBinding_same st _ v value
    intro hm
    rw [hedges, hedgeCount, hrule]
    exact ⟨hm, fun _ _ => ⟨rfl, rfl⟩⟩
  | addDefault _ hst =>
    obtain rfl := addDefault_eq hst
    exact fun hm => ⟨hm, fun _ _ => ⟨rfl, rfl⟩⟩
  | build steps scopes edges => exact edges m

instance (n m : Nat) : IgnoresLexer (Frame n m) where
  trans _ _ _ h₁ h₂ hp := by
    obtain ⟨hq, scopes₁, edges₁⟩ := h₁ hp
    obtain ⟨hr, scopes₂, edges₂⟩ := h₂ hq
    exact ⟨hr, scopes₁.trans scopes₂, edges₁.trans edges₂⟩
  lexer p _ hp := ⟨hp, .refl n p.state, .refl m p.state⟩

instance (n m : Nat) : Closed (Frame n m) where
  change p _ h hp :=
    ⟨⟨hp.1, Nat.lt_of_lt_of_le hp.2 h.scopeCount_le⟩, h.keepsScopes hp.1 hp.2, h.keepsEdges⟩
  enter p hp := by
    have hn : n ≤ p.state.scopeCount := Nat.le_of_lt (Nat.lt_of_le_of_lt hp.1 hp.2)
    exact ⟨⟨hn, Nat.lt_succ_self _⟩, newScope_keepsScopes hn _,
      fun hm => ⟨hm, fun _ _ => ⟨rfl, rfl⟩⟩⟩
  leave p q h hp := by
    obtain ⟨-, scopes, edges⟩ := h hp
    exact ⟨⟨hp.1, Nat.lt_of_lt_of_le hp.2 scopes.count⟩, scopes, edges⟩

instance (n m : Nat) : Std.Refl fun st st' : State => st.KeepsScopes n st' ∧ st.KeepsEdges m st' :=
  ⟨fun st => ⟨.refl n st, .refl m st⟩⟩

instance (n m : Nat) :
    IsTrans State fun st st' => st.KeepsScopes n st' ∧ st.KeepsEdges m st' :=
  ⟨fun _ _ _ h₁ h₂ => ⟨h₁.1.trans h₂.1, h₁.2.trans h₂.2⟩⟩

lemma subninja_keeps (env : Env) (opts : ParserOptions) (depth : Nat) (p : Parser) {n m : Nat}
    (hn : n = p.state.scopeCount) :
    Moves (Via fun st st' => st.KeepsScopes n st' ∧ st.KeepsEdges m st') p
      (parseFileInclude (parseFile env opts depth) true) := by
  refine .bind readPath_moves fun es q hq => ?_
  obtain ⟨hstate, -⟩ : OnlyLexer p q := readPath_moves.of_ok hq
  rw [← hstate] at hn
  apply Moves.get_bind
  refine .bind (.modify ?_) fun _ q₁ h₁ => ?_
  · exact ⟨newScope_keepsScopes (Nat.le_of_eq hn) _, fun hm => ⟨hm, fun _ _ => ⟨rfl, rfl⟩⟩⟩
  obtain rfl := modify_ok.mp h₁
  refine .bind ?_ fun _ q₂ _ => ?_
  · have frame := parseFile_moves (R := Frame n m) env opts depth
      (p := { q with state := q.state.newScope q.env, env := q.state.scopeCount })
      (q.state.evaluate q.env es)
    exact (frame ⟨Nat.le_of_eq hn, Nat.lt_succ_self _⟩).2
  · exact .bind (.modify (Std.Refl.refl (r := fun st st' : State =>
      st.KeepsScopes n st' ∧ st.KeepsEdges m st') q₂.state)) fun _ _ _ => expectToken_moves _

def afterSubninja (env : Env) (opts : ParserOptions) (depth : Nat) (p : Parser) : Parser :=
  finalState (parseStatement env opts (parseFile env opts depth) .subninja
    { p with lexer := p.lexer.readToken.2 })

lemma afterSubninja_keeps (env : Env) (opts : ParserOptions) (depth : Nat) (p : Parser) (m : Nat) :
    p.state.KeepsScopes p.state.scopeCount (afterSubninja env opts depth p).state ∧
      p.state.KeepsEdges m (afterSubninja env opts depth p).state := by
  have keeps := subninja_keeps env opts depth { p with lexer := p.lexer.readToken.2 } (m := m) rfl
  have last := finalState_bind (m := parseFileInclude (parseFile env opts depth) true)
    (f := fun _ => pure true) (s := { p with lexer := p.lexer.readToken.2 }) fun _ _ => rfl
  unfold afterSubninja
  rw [parseStatement, last]
  exact keeps

/-- **Scopes of `subninja` do not leak.** Wherever a parse reads a `subninja` statement, the
statement changes neither the variables nor the rules of the scope it is in and of the scopes
around, nor the variables of the edges that are there, whether it succeeds or fails. -/
theorem subninja_does_not_leak {env : Env} {opts : ParserOptions} {disk : Disk}
    {files : List GoString} {p : Parser} (h : At env opts disk files p) (depth : Nat) :
    (∀ s ∈ p.env :: p.state.parents p.env,
      (∀ v, (afterSubninja env opts depth p).state.lookupVariable s v =
        p.state.lookupVariable s v) ∧
      ∀ name, (afterSubninja env opts depth p).state.lookupRule s name =
        p.state.lookupRule s name) ∧
    ∀ e < p.state.world.edgeCount, ∀ b fuel v,
      (afterSubninja env opts depth p).state.getBinding e b fuel v =
        p.state.getBinding e b fuel v := by
  have wellScoped := h.wellScoped
  obtain ⟨scopes, edges⟩ := afterSubninja_keeps env opts depth p p.state.world.edgeCount
  generalize (afterSubninja env opts depth p).state = st' at scopes edges ⊢
  refine ⟨fun s hs => ?_, fun e he b fuel v => ?_⟩
  · have around : ∀ t ∈ s :: p.state.parents s, t < p.state.scopeCount := by
      have hexists : s < p.state.scopeCount := by
        rcases mem_cons.mp hs with rfl | hs
        · exact wellScoped.env
        · exact wellScoped.parents _ wellScoped.env s hs
      exact forall_mem_cons.mpr ⟨hexists, wellScoped.parents s hexists⟩
    exact ⟨scopes.lookupVariable around, scopes.lookupRule around⟩
  · obtain ⟨sameEdge, sameRule⟩ := (edges (Nat.le_refl _)).2 e he
    have around : ∀ t ∈ (p.state.world.edges e).scope :: (p.state.world.edges e).parents,
        t < p.state.scopeCount := forall_mem_cons.mpr (wellScoped.edges e he)
    unfold State.getBinding
    rw [State.edgeLookup_congr sameEdge sameRule fun t ht v => scopes.binding (around t ht) v]

/-- A manifest that reads another one, which binds a variable of its own. -/
def twoFiles : Disk :=
  (({} : Disk).put "build.ninja" "subninja sub.ninja\n" false).put "sub.ninja" "x = 1\n" false

def firstOfTwo : Parser where
  state := State.initial twoFiles
  lexer := Lexer.start "build.ninja" "subninja sub.ninja\n"

theorem subninja_does_not_leak_twoFiles : At {} {} twoFiles ["build.ninja"] firstOfTwo ∧
    (afterSubninja {} {} 1 firstOfTwo).state.lookupVariable 0 "x" = [] := by
  have start : At {} {} twoFiles ["build.ninja"] firstOfTwo := At.start (by decide +kernel)
  refine ⟨start, ?_⟩
  rw [((subninja_does_not_leak start 1).1 0 mem_cons_self).1]
  decide +kernel

end Parser

end Reninja
